import MoveBytecode.Proofs.Display

/-! The grammar of lists. The body of a list is cut at the commas that stand in no bracket, in one way only, and each
part stands for an item. -/

set_option autoImplicit false

namespace MoveBytecode.Value

open Text

def Blank (text : List Char) : Prop := ∀ c ∈ text, isBlank c = true

def depth (text : List Char) : Int := text.count '[' - text.count ']'

/-- Behind so many open brackets a text never closes more than are open, closes all of them in the end, and has its
commas inside of some. -/
@[mk_iff]
structure Closes (opened : Nat) (text : List Char) : Prop where
  matched : ∀ front, front <+: text → 0 ≤ opened + depth front
  closed : opened + depth text = 0
  enclosed : ∀ front, front ++ [','] <+: text → opened + depth front ≠ 0

/-- The parts of the body of a list, between the commas that stand in no bracket. -/
structure Splits (body : List Char) (parts : List (List Char)) : Prop where
  nonempty : parts ≠ []
  joined : List.intercalate [','] parts = body
  closes : ∀ part ∈ parts, Closes 0 part

/-- The bytes of a text in a list: those that a literal spells, and the text's own where it is no literal and could not
be taken for more than one part. -/
def Denotes (text : List Char) (bytes : Bytes) : Prop :=
  (∃ digits, text = '0' :: 'x' :: digits ∧ Hex.Spells digits bytes) ∨
    ¬IsLiteral text ∧ (∀ c ∈ [',', '[', ']'], c ∉ text) ∧ bytes = Bytes.ofText (String.ofList text)

/-- The items of a list: none where its body is blank, else what its parts stand for without blanks around them. A blank
body is one blank part as well, which only a byte string could be read from, so the parts are those of other bodies. -/
def Lists (element : Ty) (text : List Char) (items : List Value) : Prop :=
  ∃ body, trim text = '[' :: body ++ [']'] ∧
    (Blank body ∧ items = [] ∨
      ¬Blank body ∧ ∃ parts, Splits body parts ∧
        List.Forall₂ (fun part item => parseAt true element (trim part) = .ok item) parts items)

section
variable {opened : Nat} {c : Char} {text rest body : List Char} {parts : List (List Char)} {holds : List Char → Prop}

def rise (c : Char) : Int := if c = '[' then 1 else if c = ']' then -1 else 0

@[simp] theorem depth_nil : depth [] = 0 := rfl

theorem depth_cons (c : Char) (rest : List Char) : depth (c :: rest) = rise c + depth rest := by
  unfold depth rise
  by_cases opens : c = '['
  · subst opens
    simp
    omega
  · by_cases closes : c = ']'
    · subst closes
      simp
      omega
    · simp [opens, closes]

theorem openBehind?_eq_some {next : Nat} :
    openBehind? opened c = some next ↔ (next : Int) = opened + rise c ∧ (c = ',' → opened ≠ 0) := by
  unfold openBehind? rise
  -- Only brackets change the depth, and a comma outside of them has none behind it.
  by_cases opens : c = '['
  · subst opens
    simp
    omega
  · by_cases closes : c = ']'
    · subst closes
      by_cases outside : opened = 0
      · simp [outside]
      · simp [outside]
        omega
    · by_cases comma : c = ','
      · subst comma
        by_cases outside : opened = 0
        · simp [outside]
        · simp [outside]
          omega
      · simp [opens, closes, comma]
        omega

theorem closes_nil (opened : Nat) : Closes opened [] ↔ opened = 0 := by
  constructor
  · intro closes
    simpa using closes.closed
  · rintro rfl
    exact ⟨by simp, by simp, by simp⟩

theorem forall_prefix_cons : (∀ front, front <+: c :: rest → holds front) ↔
    holds [] ∧ ∀ front, front <+: rest → holds (c :: front) := by
  constructor
  · intro all
    exact ⟨all [] List.nil_prefix, fun front before => all (c :: front) (List.cons_prefix_cons.mpr ⟨rfl, before⟩)⟩
  · rintro ⟨start, later⟩ front before
    cases front with
    | nil => exact start
    | cons first front =>
      obtain ⟨rfl, within⟩ := List.cons_prefix_cons.mp before
      exact later front within

theorem forall_comma_cons : (∀ front, front ++ [','] <+: c :: rest → holds front) ↔
    (c = ',' → holds []) ∧ ∀ front, front ++ [','] <+: rest → holds (c :: front) := by
  constructor
  · intro all
    refine ⟨?_, fun front before => all (c :: front) (List.cons_prefix_cons.mpr ⟨rfl, before⟩)⟩
    rintro rfl
    exact all [] (List.cons_prefix_cons.mpr ⟨rfl, List.nil_prefix⟩)
  · rintro ⟨start, later⟩ front before
    cases front with
    | nil => exact start (List.cons_prefix_cons.mp before).1.symm
    | cons first front =>
      obtain ⟨rfl, within⟩ := List.cons_prefix_cons.mp before
      exact later front within

theorem closes_cons : Closes opened (c :: rest) ↔ ∃ next, openBehind? opened c = some next ∧ Closes next rest := by
  simp only [closes_iff, forall_prefix_cons, forall_comma_cons, depth_cons, depth_nil, openBehind?_eq_some]
  constructor
  · rintro ⟨⟨-, matched⟩, closed, comma, enclosed⟩
    have first : 0 ≤ opened + rise c := by simpa using matched [] List.nil_prefix
    obtain ⟨next, same⟩ := Int.eq_ofNat_of_zero_le first
    simp only [← add_assoc, same] at matched closed enclosed
    exact ⟨next, ⟨same.symm, by simpa using comma⟩, matched, closed, enclosed⟩
  · rintro ⟨next, ⟨same, comma⟩, matched, closed, enclosed⟩
    simp only [same, add_assoc] at matched closed enclosed
    exact ⟨⟨by simp, matched⟩, closed, by simpa using comma, enclosed⟩

/-- One pass over a text, which counts the open brackets, finds out whether it closes them all. -/
theorem openAfter?_eq_zero : openAfter? opened text = some 0 ↔ Closes opened text := by
  induction text generalizing opened with
  | nil =>
    rw [closes_nil]
    exact Option.some_inj
  | cons c rest ih =>
    have step : openAfter? opened (c :: rest) = (openBehind? opened c).bind fun next => openAfter? next rest := rfl
    rw [step, Option.bind_eq_some_iff, closes_cons]
    simp only [ih]

theorem splitAtDepth_iff : splitAtDepth 0 body = some parts ↔ Splits body parts := by
  cases parts with
  | nil => exact ⟨fun split => absurd split (splitAtDepth_ne_nil 0 body), fun splits => absurd rfl splits.nonempty⟩
  | cons first rest =>
    have joined : List.intercalate [','] (first :: rest) = first ++ rest.flatMap (',' :: ·) :=
      intercalate_cons [','] first rest
    rw [splitAtDepth_eq_some]
    constructor
    · intro parted
      obtain ⟨whole, head, tail⟩ := parted
      have closes : ∀ part ∈ first :: rest, openAfter? 0 part = some 0 := List.forall_mem_cons.mpr ⟨head, tail⟩
      exact ⟨List.cons_ne_nil _ _, joined.trans whole.symm, fun part member => openAfter?_eq_zero.mp (closes part member)⟩
    · intro splits
      have closes part (member : part ∈ first :: rest) := openAfter?_eq_zero.mpr (splits.closes part member)
      obtain ⟨head, tail⟩ := List.forall_mem_cons.mp closes
      exact ⟨splits.joined.symm.trans joined, head, tail⟩

theorem Splits.unique {others : List (List Char)} (splits : Splits body parts) (splits' : Splits body others) :
    parts = others := by
  have same := (splitAtDepth_iff.mpr splits).symm.trans (splitAtDepth_iff.mpr splits')
  exact Option.some.inj same

theorem splitItems_eq_some : splitItems body = some parts ↔
    Blank body ∧ parts = [] ∨ ¬Blank body ∧ Splits body parts := by
  by_cases blank : Blank body
  · rw [splitItems, if_pos (List.all_eq_true.mpr blank), Option.some_inj]
    simp [blank, eq_comm]
  · have shown : ¬(body.all isBlank = true) := fun all => blank (List.all_eq_true.mp all)
    rw [splitItems, if_neg shown, splitAtDepth_iff]
    simp [blank]

theorem bracketed?_eq_some : bracketed? text = some body ↔ text = '[' :: body ++ [']'] := by
  constructor
  · intro shown
    unfold bracketed? at shown
    split at shown
    · split at shown
      · rename_i rest last
        cases shown
        obtain ⟨front, rfl⟩ := List.getLast?_eq_some_iff.mp last
        simp
      · cases shown
    · cases shown
  · rintro rfl
    exact bracketed?_list body

end

section
variable {text : List Char} {bytes : Bytes}

theorem any_mark : text.any [',', '[', ']'].contains = true ↔ ¬∀ c ∈ [',', '[', ']'], c ∉ text := by
  simp only [List.any_eq_true, List.contains_iff_mem, not_forall, not_not]
  constructor
  · rintro ⟨c, member, mark⟩
    exact ⟨c, mark, member⟩
  · rintro ⟨c, mark, member⟩
    exact ⟨c, member, mark⟩

theorem parseBytes_nested : parseBytes true text = .ok bytes ↔ Denotes text bytes := by
  unfold Denotes
  by_cases literal : IsLiteral text
  · obtain ⟨digits, rfl, even⟩ := id literal
    obtain ⟨own, spells⟩ := Hex.exists_spells.mpr even
    rw [parseBytes_of_spells spells]
    constructor
    · intro read
      cases read
      exact .inl ⟨digits, rfl, spells⟩
    · rintro (⟨_, same, spells'⟩ | ⟨plain, _⟩)
      · cases same
        have read := (Hex.decode?_eq_some.mpr spells).symm.trans (Hex.decode?_eq_some.mpr spells')
        exact congrArg Except.ok (Option.some.inj read)
      · exact absurd literal plain
  · -- What is no literal spells no bytes, so it stands for its own, if it is one part at most.
    have other : ¬∃ digits, text = '0' :: 'x' :: digits ∧ Hex.Spells digits bytes := by
      rintro ⟨digits, whole, spells⟩
      exact literal ⟨digits, whole, Hex.exists_spells.mp ⟨bytes, spells⟩⟩
    rw [parseBytes_of_not_isLiteral literal]
    by_cases free : ∀ c ∈ [',', '[', ']'], c ∉ text
    · simp [mt any_mark.mp (not_not_intro free), other, literal, free, eq_comm]
    · simp only [Bool.true_and, any_mark.mpr free, if_true, reduceCtorEq, other, free, false_and, and_false, or_false]

theorem parseAt_bytes_eq_ok {value : Value} :
    parseAt true .bytes text = .ok value ↔ ∃ bytes, value = ofBytes bytes ∧ Denotes text bytes := by
  simp only [← parseBytes_nested]
  rw [Ty.bytes, parseAt, if_pos rfl]
  cases parseBytes true text <;> simp [eq_comm]

end

section
variable {element : Ty} {text : List Char}

theorem lists_iff {items : List Value} : Lists element text items ↔
    ∃ body parts, bracketed? (trim text) = some body ∧ splitItems body = some parts ∧
      parts.mapM (fun part => parseAt true element (trim part)) = .ok items := by
  simp only [Lists, bracketed?_eq_some, splitItems_eq_some, Steps.mapM_eq_ok]
  constructor
  · rintro ⟨body, bracketed, ⟨blank, rfl⟩ | ⟨shown, parts, splits, read⟩⟩
    · exact ⟨body, [], bracketed, .inl ⟨blank, rfl⟩, .nil⟩
    · exact ⟨body, parts, bracketed, .inr ⟨shown, splits⟩, read⟩
  · rintro ⟨body, parts, bracketed, ⟨blank, rfl⟩ | ⟨shown, splits⟩, read⟩
    · exact ⟨body, bracketed, .inl ⟨blank, List.forall₂_nil_left_iff.mp read⟩⟩
    · exact ⟨body, bracketed, .inr ⟨shown, parts, splits, read⟩⟩

theorem parseAt_vector_eq_ok (other : element ≠ .uint .w8) {nested : Bool} {value : Value} :
    parseAt nested (.vector element) text = .ok value ↔ ∃ items, value = .vector items ∧ Lists element text items := by
  simp only [lists_iff]
  rw [parseAt, if_neg other]
  cases shown : bracketed? (trim text) with
  | none => simp
  | some body =>
    cases split : splitItems body with
    | none => simp [split]
    | some parts => cases read : parts.mapM fun part => parseAt true element (trim part) <;> simp [split, read, eq_comm]

end

/-- A list of elements that are no bytes is read by the grammar, at the top as inside another list, and no part of it
can be lost, merged with another or cut in two. Byte strings in a list are literals or text. -/
theorem parse_vector_iff {element : Ty} (other : element ≠ .uint .w8) :
    (∀ (text : String) (value : Value), parse (.vector element) text = .ok value ↔
      ∃ items, value = .vector items ∧ Lists element text.toList items) ∧
    (∀ (text : List Char) (value : Value), parseAt true (.vector element) text = .ok value ↔
      ∃ items, value = .vector items ∧ Lists element text items) ∧
    (∀ (text : List Char) (value : Value), parseAt true .bytes text = .ok value ↔
      ∃ bytes, value = ofBytes bytes ∧ Denotes text bytes) ∧
    ∀ (body : List Char) (parts others : List (List Char)), Splits body parts → Splits body others → parts = others :=
  ⟨fun _ _ => parseAt_vector_eq_ok other, fun _ _ => parseAt_vector_eq_ok other, fun _ _ => parseAt_bytes_eq_ok,
    fun _ _ _ splits splits' => splits.unique splits'⟩

theorem parse_vector_words :
    parse (.vector .bytes) " [ab, 0x00fF,] " = .ok (.vector [ofBytes [0x61, 0x62], ofBytes [0x00, 0xFF], ofBytes []]) ∧
    Lists .bytes " [ab, 0x00fF,] ".toList [ofBytes [0x61, 0x62], ofBytes [0x00, 0xFF], ofBytes []] := by
  have parsed : parse (.vector .bytes) " [ab, 0x00fF,] " =
      .ok (.vector [ofBytes [0x61, 0x62], ofBytes [0x00, 0xFF], ofBytes []]) := by decide +kernel
  obtain ⟨items, same, lists⟩ := ((parse_vector_iff (by decide)).1 _ _).mp parsed
  cases same
  exact ⟨parsed, lists⟩

end MoveBytecode.Value
