import MoveBytecode.Json.Tree
import MoveBytecode.Proofs.Json.Number

/-! The tokens of a text that is put together from tokens and blanks: those it was put together from. -/

set_option autoImplicit false

namespace MoveBytecode.Json

open Token

/-! ## Strings -/

section
variable {c : Char} (rest : List Char)

def readBehind (c : Char) (rest : List Char) : Option (List Part × List Char) :=
  (readParts rest).map fun (parts, rest) => (.char c :: parts, rest)

theorem readParts_quote : readParts ('"' :: rest) = some ([], rest) := by
  rw [readParts.eq_def]
  simp

theorem readParts_plain (quote : c ≠ '"') (backslash : c ≠ '\\') (shown : 0x20 ≤ c.toNat) :
    readParts (c :: rest) = readBehind c rest := by
  rw [readParts.eq_def]
  simp only [if_neg quote, if_neg backslash, if_neg (Nat.not_lt.mpr shown), readBehind]
  cases readParts rest <;> rfl

theorem readParts_short {escaped : Char} (short : shortEscape? escaped = some c) :
    readParts ('\\' :: escaped :: rest) = readBehind c rest := by
  have other : escaped ≠ 'u' := by
    rintro rfl
    cases short
  rw [readParts.eq_def, readBehind]
  simp only [Char.reduceEq, if_false, if_true]
  split
  · next same => exact absurd (List.cons.inj same).1 other
  · next same =>
    cases same
    simp only [short]
    cases readParts rest <;> rfl
  · next same => cases same

theorem readParts_code {high low : Char} (code : hexCode? '0' '0' high low = some c.toNat) (small : c.toNat < 0x20) :
    readParts ('\\' :: 'u' :: '0' :: '0' :: high :: low :: rest) = readBehind c rest := by
  have plain : ofCode c.toNat = .char c := by
    rw [ofCode, if_neg (by omega), Char.ofNat_toNat]
  rw [readParts.eq_def, readBehind]
  simp only [Char.reduceEq, if_false, if_true, code]
  rw [← plain]
  cases readParts rest <;> rfl

end

theorem hexCode?_digits {n : Nat} (small : n < 0x20) :
    ∃ high low, Hex.digits (UInt8.ofNat n) = [high, low] ∧ hexCode? '0' '0' high low = some n := by
  refine ⟨Nat.digitChar ((UInt8.ofNat n).toNat / 16), Nat.digitChar ((UInt8.ofNat n).toNat % 16), rfl, ?_⟩
  interval_cases n <;> rfl

theorem readParts_escape (c : Char) (rest : List Char) : readParts (escape c ++ rest) = readBehind c rest := by
  have same {code : Nat} (other : Char) (there : other.toNat = code) (here : c.toNat = code) : other = c :=
    Char.toNat_inj.mp (there.trans here.symm)
  have short {escaped other : Char} (same : other = c) (known : shortEscape? escaped = some other) :
      readParts ('\\' :: escaped :: rest) = readBehind c rest := same ▸ readParts_short rest known
  unfold escape
  split
  · next quote => exact short quote.symm rfl
  split
  · next backslash => exact short backslash.symm rfl
  split
  · next backspace => exact short (same '\x08' rfl backspace) rfl
  split
  · next feed => exact short (same '\x0c' rfl feed) rfl
  split
  · next line => exact short line.symm rfl
  split
  · next back => exact short back.symm rfl
  split
  · next tab => exact short tab.symm rfl
  split
  · next small =>
    obtain ⟨high, low, digits, code⟩ := hexCode?_digits small
    rw [digits]
    exact readParts_code rest code small
  · next quote backslash _ _ _ _ _ shown => exact readParts_plain rest quote backslash (Nat.not_lt.mp shown)

theorem readParts_flatMap (text rest : List Char) :
    readParts (text.flatMap escape ++ '"' :: rest) = some (text.map .char, rest) := by
  induction text with
  | nil => exact readParts_quote rest
  | cons c text ih => rw [List.flatMap_cons, List.append_assoc, readParts_escape, readBehind, ih]; rfl

theorem text?_map_char (text : List Char) : text? (text.map .char) = some text := by
  induction text with
  | nil => rfl
  | cons c text ih => rw [List.map_cons, text?, ih]; rfl

theorem next?_quoted (text : String) (rest : List Char) :
    next? (quoted text ++ rest) = some (.string (some text), rest) := by
  rw [quoted, List.cons_append, List.cons_append, List.append_assoc, next?]
  simp [readParts_flatMap, text?_map_char]

theorem next?_of_numeric {c : Char} (numeric : c = '-' ∨ Text.isDigit c = true) (rest : List Char) :
    next? (c :: rest) = (readNumber? (c :: rest)).map fun (literal, rest) => (.number literal, rest) := by
  have other {fixed : Char} {more : List Char} (same : c :: rest = fixed :: more)
      (strange : ¬(fixed = '-' ∨ Text.isDigit fixed = true)) : False :=
    strange ((List.cons.inj same).1 ▸ numeric)
  rw [next?.eq_def]
  split
  case h_11 => rfl
  all_goals next same => exact (other same (by decide)).elim

theorem next?_number (number : Number) {rest : List Char} (ends : EndsNumber rest) :
    next? (number.text ++ rest) = some (.number number.literal, rest) := by
  have read := number.readNumber?_text ends
  obtain ⟨c, more, starts, numeric⟩ := number.text_starts
  rw [starts] at read
  rw [starts, List.cons_append, next?_of_numeric numeric, ← List.cons_append, read]
  rfl

/-! ## Texts -/

structure Spells (text : List Char) (tokens : List Token) : Prop where
  short : tokens.length ≤ text.length
  read : ∀ limit, tokens.length ≤ limit → tokens? limit text = some tokens

/-- A part of a text has these tokens, wherever it stands, if it does not stand before what goes on with a number. -/
def Writes (part : List Char) (tokens : List Token) : Prop :=
  ∀ rest after, EndsNumber rest → Spells rest after → Spells (part ++ rest) (tokens ++ after)

inductive Brackets : Char → Char → Token → Token → Prop where
  | array : Brackets '[' ']' .openArray .closeArray
  | object : Brackets '{' '}' .openObject .closeObject

theorem spells_nil : Spells [] [] := by
  refine ⟨le_rfl, fun limit _ => ?_⟩
  cases limit <;> rfl

section
variable {text rest part : List Char} {tokens after : List Token} {token : Token} {c : Char}

theorem Spells.cons (shown : ∃ c more, part = c :: more ∧ isBlank c = false)
    (next : next? (part ++ rest) = some (token, rest)) (spells : Spells rest after) :
    Spells (part ++ rest) (token :: after) := by
  obtain ⟨c, more, rfl, bright⟩ := shown
  have short := spells.short
  refine ⟨by simp only [List.length_cons, List.length_append]; omega, fun limit enough => ?_⟩
  cases limit with
  | zero => cases enough
  | succ limit =>
    rw [List.cons_append] at next ⊢
    rw [tokens?, List.dropWhile_cons_of_neg (by simp [bright])]
    simp [next, spells.read limit (Nat.le_of_succ_le_succ enough)]

theorem Spells.mark (next : next? (c :: rest) = some (token, rest)) (bright : isBlank c = false)
    (spells : Spells rest after) : Spells (c :: rest) (token :: after) :=
  @Spells.cons rest [c] after token ⟨c, [], rfl, bright⟩ next spells

theorem Spells.blanks {gap : List Char} (dark : ∀ c ∈ gap, isBlank c = true) (spells : Spells text tokens) :
    Spells (gap ++ text) tokens := by
  induction gap with
  | nil => exact spells
  | cons c gap ih =>
    obtain ⟨first, others⟩ := List.forall_mem_cons.mp dark
    have rest := ih others
    refine ⟨Nat.le_succ_of_le rest.short, fun limit enough => ?_⟩
    rw [← rest.read limit enough]
    cases limit with
    | zero => simp [tokens?, first]
    | succ limit => rw [tokens?, tokens?, List.cons_append, List.dropWhile_cons_of_pos first]

theorem endsNumber_cons (dark : isBlank c = true ∨ c ∈ [',', ':', ']', '}']) (rest : List Char) :
    EndsNumber (c :: rest) := by
  have marks : ∀ mark ∈ [' ', '\t', '\n', '\r', ',', ':', ']', '}'],
      Text.isDigit mark = false ∧ mark ≠ '.' ∧ mark ≠ 'e' ∧ mark ≠ 'E' := by
    simp [Text.isDigit]
  rintro _ ⟨⟩
  refine marks c ?_
  rcases dark with dark | mark
  · simp only [isBlank, Bool.or_eq_true, decide_eq_true_eq] at dark
    rcases dark with ((rfl | rfl) | rfl) | rfl <;> decide
  · exact List.mem_append_right [' ', '\t', '\n', '\r'] mark

theorem endsNumber_blanks {gap : List Char} (dark : ∀ c ∈ gap, isBlank c = true) (ends : EndsNumber rest) :
    EndsNumber (gap ++ rest) := by
  cases gap with
  | nil => exact ends
  | cons c gap => exact endsNumber_cons (.inl (dark c List.mem_cons_self)) _

theorem writes_quoted (text : String) : Writes (quoted text) [.string (some text)] := by
  intro rest after _ spells
  exact spells.cons ⟨'"', _, rfl, rfl⟩ (next?_quoted text rest)

theorem writes_number (number : Number) : Writes number.text [.number number.literal] := by
  intro rest after ends spells
  obtain ⟨c, more, starts, numeric⟩ := number.text_starts
  refine spells.cons ⟨c, more, starts, ?_⟩ (next?_number number ends)
  rcases numeric with rfl | digit
  · rfl
  · refine Bool.eq_false_iff.mpr fun dark => ?_
    rw [(endsNumber_cons (.inl dark) [] c rfl).1] at digit
    cases digit

theorem Spells.items {gap : List Char} (dark : ∀ c ∈ gap, isBlank c = true) {parts : List (List Char)}
    {tokenLists : List (List Token)} (written : List.Forall₂ Writes parts tokenLists) (ends : EndsNumber rest)
    (spells : Spells rest after) :
    Spells (List.intercalate (',' :: gap) parts ++ rest) (List.intercalate [.comma] tokenLists ++ after) := by
  induction written with
  | nil => exact spells
  | cons first others ih =>
    -- Only the last part has no comma behind it.
    cases others with
    | nil =>
      rw [List.intercalate_singleton, List.intercalate_singleton]
      exact first _ _ ends spells
    | cons second others =>
      rw [List.intercalate_cons_cons, List.intercalate_cons_cons]
      simp only [List.append_assoc, List.cons_append, List.nil_append] at ih ⊢
      exact first _ _ (endsNumber_cons (by decide) _) (.mark rfl rfl (ih.blanks dark))

theorem writes_enclosed {opening closing : Char} {opens closes : Token} (brackets : Brackets opening closing opens closes)
    {before behind : List Char} (dark : ∀ c ∈ before, isBlank c = true) (dark' : ∀ c ∈ behind, isBlank c = true)
    {parts : List (List Char)} {tokenLists : List (List Token)} (written : List.Forall₂ Writes parts tokenLists) :
    Writes (opening :: before ++ List.intercalate (',' :: before) parts ++ behind ++ [closing])
      (opens :: List.intercalate [.comma] tokenLists ++ [closes]) := by
  intro rest after _ spells
  have closed : Spells (closing :: rest) (closes :: after) := by
    cases brackets
    · exact .mark rfl rfl spells
    · exact .mark rfl rfl spells
  have ends : EndsNumber (closing :: rest) := endsNumber_cons (.inr (by cases brackets <;> decide)) rest
  have inner := (Spells.items dark written (endsNumber_blanks dark' ends) (closed.blanks dark')).blanks dark
  simp only [List.append_assoc, List.cons_append, List.nil_append] at inner ⊢
  cases brackets
  · exact .mark rfl rfl inner
  · exact .mark rfl rfl inner

end

end MoveBytecode.Json
