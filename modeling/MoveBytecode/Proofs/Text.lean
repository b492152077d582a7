import Mathlib
import MoveBytecode.Proofs.Bytes
import MoveBytecode.Proofs.Steps
import MoveBytecode.Value.Text

/-! The text around the items of a list: decimal numbers, texts without blanks at their ends, and the commas that no
bracket encloses. -/

set_option autoImplicit false

namespace MoveBytecode

namespace Text

/-- A character that means nothing in a list and is no blank. -/
def isPlain (c : Char) : Bool := c ≠ '[' && c ≠ ']' && c ≠ ',' && !isBlank c

theorem isPlain_of_isAlphanum {c : Char} (shown : c.isAlphanum = true) : isPlain c = true := by
  have place : (48 ≤ c.toNat ∧ c.toNat ≤ 57) ∨ (65 ≤ c.toNat ∧ c.toNat ≤ 90) ∨ (97 ≤ c.toNat ∧ c.toNat ≤ 122) := by
    simp only [Char.isAlphanum, Char.isAlpha, Char.isUpper, Char.isLower, Char.isDigit, Bool.or_eq_true,
      Bool.and_eq_true, decide_eq_true_eq, ge_iff_le, UInt32.le_iff_toNat_le] at shown
    change ((65 ≤ c.toNat ∧ c.toNat ≤ 90) ∨ 97 ≤ c.toNat ∧ c.toNat ≤ 122) ∨ 48 ≤ c.toNat ∧ c.toNat ≤ 57 at shown
    omega
  have opens : c ≠ '[' := fun same => by subst same; revert place; decide
  have closes : c ≠ ']' := fun same => by subst same; revert place; decide
  have parts : c ≠ ',' := fun same => by subst same; revert place; decide
  have dark : isBlank c = false := by
    simp only [isBlank, List.contains_eq_mem, List.mem_cons, List.not_mem_nil, or_false, Bool.or_eq_false_iff,
      Bool.and_eq_false_iff, decide_eq_false_iff_not]
    omega
  simp [isPlain, opens, closes, parts, dark]

theorem isAlphanum_of_mem_decimal {n : Nat} {c : Char} (member : c ∈ decimal n) : c.isAlphanum = true := by
  have digit := Nat.isDigit_of_mem_toDigits (by decide) (by decide) member
  simp [Char.isAlphanum, digit]

theorem isDigit_of_mem_decimal {n : Nat} {c : Char} (member : c ∈ decimal n) : isDigit c = true := by
  have digit := Nat.isDigit_of_mem_toDigits (by decide) (by decide) member
  simpa [isDigit, Char.isDigit, Char.le_def] using digit

theorem decimal_ne_nil (n : Nat) : decimal n ≠ [] := Nat.toDigits_ne_nil

@[simp] theorem readDecimal?_decimal (n : Nat) : readDecimal? (decimal n) = some n := by
  have digits : (decimal n).all isDigit = true := List.all_eq_true.mpr fun c member => isDigit_of_mem_decimal member
  have value : Nat.ofDigitChars 10 (decimal n) 0 = n := Nat.ofDigitChars_ten_toDigits
  rw [readDecimal?, if_pos ⟨decimal_ne_nil n, digits⟩, value]

def Tight (text : List Char) : Prop :=
  (∃ first rest, text = first :: rest ∧ isBlank first = false) ∧
    ∃ front last, text = front ++ [last] ∧ isBlank last = false

theorem Tight.trim_eq {text : List Char} (tight : Tight text) : trim text = text := by
  obtain ⟨⟨first, rest, starts, shown⟩, front, last, ends, shown'⟩ := tight
  have start : trimStart text = text := by
    rw [starts, trimStart, List.dropWhile_cons_of_neg (by simp [shown])]
  rw [trim, start, ends, trimEnd, List.reverse_append, List.reverse_singleton, List.singleton_append,
    List.dropWhile_cons_of_neg (by simp [shown']), List.reverse_cons, List.reverse_reverse]

theorem Tight.trim_behind_blank {text : List Char} (tight : Tight text) : trim (' ' :: text) = text := by
  have dropped : trimStart (' ' :: text) = trimStart text := List.dropWhile_cons_of_pos rfl
  rw [trim, dropped]
  exact tight.trim_eq

theorem Tight.any_not_blank {text : List Char} (tight : Tight text) (rest : List Char) :
    (text ++ rest).all isBlank = false := by
  obtain ⟨⟨first, more, starts, shown⟩, -⟩ := tight
  simp [starts, shown]

theorem tight_of_plain {text : List Char} (nonempty : text ≠ []) (plain : ∀ c ∈ text, isPlain c = true) :
    Tight text := by
  have shown : ∀ c ∈ text, isBlank c = false := by
    intro c member
    have all := plain c member
    simp only [isPlain, Bool.and_eq_true, Bool.not_eq_true'] at all
    exact all.2
  constructor
  · obtain ⟨first, rest, same⟩ := List.exists_cons_of_ne_nil nonempty
    exact ⟨first, rest, same, shown first (by simp [same])⟩
  · refine ⟨text.dropLast, text.getLast nonempty, (List.dropLast_concat_getLast nonempty).symm, ?_⟩
    exact shown _ (List.getLast_mem nonempty)

end Text

namespace Value

open Text

/-- How many brackets are open behind a character; none where it closes one that was not open or parts a list. -/
def openBehind? (depth : Nat) (c : Char) : Option Nat :=
  if c = '[' then some (depth + 1)
  else if c = ']' then if depth = 0 then none else some (depth - 1)
  else if c = ',' ∧ depth = 0 then none
  else some depth

def openAfter? (depth : Nat) (text : List Char) : Option Nat := text.foldlM openBehind? depth

/-- A text that may stand at any depth: it closes the brackets it opens and has no comma outside of them. -/
def Balanced (text : List Char) : Prop := ∀ depth, openAfter? depth text = some depth

theorem openAfter?_append (depth : Nat) (front back : List Char) :
    openAfter? depth (front ++ back) = (openAfter? depth front).bind fun depth => openAfter? depth back :=
  List.foldlM_append

theorem openBehind?_plain {c : Char} (plain : isPlain c = true) (depth : Nat) : openBehind? depth c = some depth := by
  simp only [isPlain, Bool.and_eq_true, ne_eq, decide_eq_true_eq] at plain
  obtain ⟨⟨⟨opens, closes⟩, parts⟩, -⟩ := plain
  simp [openBehind?, opens, closes, parts]

theorem balanced_of_plain {text : List Char} (plain : ∀ c ∈ text, isPlain c = true) : Balanced text := by
  intro depth
  induction text with
  | nil => rfl
  | cons c rest ih =>
    obtain ⟨head, tail⟩ := List.forall_mem_cons.mp plain
    rw [openAfter?, List.foldlM_cons, openBehind?_plain head]
    exact ih tail

theorem openAfter?_intercalate {parts : List (List Char)} (balanced : ∀ part ∈ parts, Balanced part) (depth : Nat) :
    openAfter? (depth + 1) (List.intercalate [',', ' '] parts) = some (depth + 1) := by
  induction parts with
  | nil => rfl
  | cons first rest ih =>
    obtain ⟨head, tail⟩ := List.forall_mem_cons.mp balanced
    cases rest with
    | nil =>
      rw [List.intercalate_singleton]
      exact head (depth + 1)
    | cons second rest =>
      rw [List.intercalate_cons_cons, openAfter?_append, openAfter?_append, head]
      exact ih tail

theorem balanced_list {parts : List (List Char)} (balanced : ∀ part ∈ parts, Balanced part) :
    Balanced ('[' :: List.intercalate [',', ' '] parts ++ [']']) := by
  intro depth
  have inner := openAfter?_intercalate balanced depth
  change openAfter? (depth + 1) (List.intercalate [',', ' '] parts ++ [']']) = some depth
  rw [openAfter?_append, inner]
  rfl

theorem splitAtDepth_cons (depth : Nat) (c : Char) (rest : List Char) :
    splitAtDepth depth (c :: rest) =
      if c = ',' ∧ depth = 0 then (splitAtDepth 0 rest).map ([] :: ·)
      else (openBehind? depth c).bind fun depth => (splitAtDepth depth rest).map (consHead c) := by
  simp only [splitAtDepth, openBehind?]
  split_ifs <;> simp_all

theorem splitAtDepth_ne_nil (depth : Nat) (text : List Char) : splitAtDepth depth text ≠ some [] := by
  intro none
  cases text with
  | nil =>
    rw [splitAtDepth] at none
    split at none <;> cases none
  | cons c rest =>
    rw [splitAtDepth_cons] at none
    split at none
    · simp at none
    · obtain ⟨depth, -, split⟩ := Option.bind_eq_some_iff.mp none
      obtain ⟨parts, -, same⟩ := Option.map_eq_some_iff.mp split
      cases parts <;> cases same

theorem consHead_eq_cons {c : Char} {parts rest : List (List Char)} {first : List Char} (nonempty : parts ≠ []) :
    consHead c parts = first :: rest ↔ ∃ tail, first = c :: tail ∧ parts = tail :: rest := by
  cases parts with
  | nil => exact absurd rfl nonempty
  | cons part parts =>
    simp only [consHead, List.cons.injEq]
    constructor
    · intro given
      obtain ⟨head, same⟩ := given
      exact ⟨part, head.symm, rfl, same⟩
    · intro given
      obtain ⟨tail, head, same, more⟩ := given
      exact ⟨by rw [head, same], more⟩

variable {depth : Nat} {c : Char} {text first : List Char} {rest : List (List Char)}

theorem splitAtDepth_nil_eq_some :
    splitAtDepth depth [] = some (first :: rest) ↔ depth = 0 ∧ first = [] ∧ rest = [] := by
  rw [splitAtDepth]
  split
  · next closed => simp [closed, eq_comm]
  · next opened => simp [opened]

theorem splitAtDepth_comma :
    splitAtDepth 0 (',' :: text) = some (first :: rest) ↔ first = [] ∧ splitAtDepth 0 text = some rest := by
  rw [splitAtDepth_cons, if_pos ⟨rfl, rfl⟩]
  simp [and_comm, eq_comm]

/-- Every other character belongs to the first part. -/
theorem splitAtDepth_other (inside : ¬(c = ',' ∧ depth = 0)) :
    splitAtDepth depth (c :: text) = some (first :: rest) ↔ ∃ next tail,
      openBehind? depth c = some next ∧ first = c :: tail ∧ splitAtDepth next text = some (tail :: rest) := by
  rw [splitAtDepth_cons, if_neg inside, Option.bind_eq_some_iff]
  constructor
  · intro split
    obtain ⟨next, step, split⟩ := split
    obtain ⟨parts, split, same⟩ := Option.map_eq_some_iff.mp split
    have nonempty : parts ≠ [] := fun none => splitAtDepth_ne_nil next text (none ▸ split)
    obtain ⟨tail, head, rfl⟩ := (consHead_eq_cons nonempty).mp same
    exact ⟨next, tail, step, head, split⟩
  · intro split
    obtain ⟨next, tail, step, rfl, split⟩ := split
    exact ⟨next, step, Option.map_eq_some_iff.mpr ⟨_, split, rfl⟩⟩

/-- The first part closes the brackets that are open before it, the others those of their own. -/
structure Parted (depth : Nat) (text first : List Char) (rest : List (List Char)) : Prop where
  whole : text = first ++ rest.flatMap (',' :: ·)
  first : openAfter? depth first = some 0
  rest : ∀ part ∈ rest, openAfter? 0 part = some 0

theorem parted_nil : Parted depth [] first rest ↔ depth = 0 ∧ first = [] ∧ rest = [] := by
  constructor
  · intro parted
    obtain ⟨whole, closed, _⟩ := parted
    obtain ⟨rfl, more⟩ := List.append_eq_nil_iff.mp whole.symm
    cases rest with
    | nil => exact ⟨Option.some.inj closed, rfl, rfl⟩
    | cons second rest => cases more
  · intro parts
    obtain ⟨rfl, rfl, rfl⟩ := parts
    exact ⟨rfl, rfl, nofun⟩

theorem parted_comma : Parted 0 (',' :: text) first rest ↔
    first = [] ∧ ∃ second others, rest = second :: others ∧ Parted 0 text second others := by
  constructor
  · intro parted
    obtain ⟨whole, closed, balanced⟩ := parted
    cases first with
    | nil =>
      cases rest with
      | nil => cases whole
      | cons second others =>
        obtain ⟨head, tail⟩ := List.forall_mem_cons.mp balanced
        exact ⟨rfl, second, others, rfl, (List.cons.inj whole).2, head, tail⟩
    | cons c first =>
      -- No part starts with a comma outside of brackets.
      cases (List.cons.inj whole).1
      cases closed
  · intro parts
    obtain ⟨rfl, second, others, rfl, whole, head, tail⟩ := parts
    exact ⟨congrArg (',' :: ·) whole, rfl, List.forall_mem_cons.mpr ⟨head, tail⟩⟩

theorem parted_other (inside : ¬(c = ',' ∧ depth = 0)) : Parted depth (c :: text) first rest ↔ ∃ next tail,
    openBehind? depth c = some next ∧ first = c :: tail ∧ Parted next text tail rest := by
  constructor
  · intro parted
    obtain ⟨whole, closed, balanced⟩ := parted
    -- Without a character the first part would end here, at a comma outside of brackets.
    cases first with
    | nil =>
      cases closed
      cases rest with
      | nil => cases whole
      | cons second others => exact absurd ⟨(List.cons.inj whole).1, rfl⟩ inside
    | cons c' tail =>
      obtain ⟨rfl, remainder⟩ := List.cons.inj whole
      obtain ⟨next, step, closed⟩ := Option.bind_eq_some_iff.mp closed
      exact ⟨next, tail, step, rfl, remainder, closed, balanced⟩
  · intro parts
    obtain ⟨next, tail, step, rfl, whole, closed, balanced⟩ := parts
    exact ⟨congrArg (c :: ·) whole, Option.bind_eq_some_iff.mpr ⟨next, step, closed⟩, balanced⟩

theorem splitAtDepth_eq_some : splitAtDepth depth text = some (first :: rest) ↔ Parted depth text first rest := by
  induction text generalizing depth first rest with
  | nil => rw [splitAtDepth_nil_eq_some, parted_nil]
  | cons c text ih =>
    -- Splitting and being parted take the same step at a comma and the same one at any other character.
    by_cases comma : c = ',' ∧ depth = 0
    · obtain ⟨rfl, rfl⟩ := comma
      rw [splitAtDepth_comma, parted_comma]
      refine and_congr_right fun _ => ?_
      cases rest with
      | nil => exact iff_of_false (splitAtDepth_ne_nil 0 text) (by simp)
      | cons second others => simp [ih]
    · simp only [splitAtDepth_other comma, parted_other comma, ih]

end Value

end MoveBytecode
