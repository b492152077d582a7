import MoveBytecode.Proofs.Package.Text

/-! A package whose further members hold no numbers but plain whole ones is read from its own text as it is: its parts
are those of the text it was first read from, and of a further member that was given more than once the last stays. -/

set_option autoImplicit false

namespace MoveBytecode

open Json (Tree)

namespace Json

namespace NumberLiteral

def signedWhole (literal : NumberLiteral) : Int :=
  if literal.negative then -(Nat.ofDigitChars 10 literal.whole 0 : Int) else Nat.ofDigitChars 10 literal.whole 0

/-- A whole number of 64 bits, signed or not, that is written as such: no fraction, no exponent and no sign for zero. -/
def Plain (literal : NumberLiteral) : Prop :=
  literal.fraction = [] ∧ literal.exponent = [] ∧ (literal.negative = true → literal.signedWhole ≠ 0) ∧
    -2 ^ 63 ≤ literal.signedWhole ∧ literal.signedWhole < 2 ^ 64

instance (literal : NumberLiteral) : Decidable literal.Plain := inferInstanceAs (Decidable (_ ∧ _))

theorem Plain.number? {literal : NumberLiteral} (plain : literal.Plain) :
    literal.number? = some (.integer literal.signedWhole) := by
  obtain ⟨fraction, exponent, notZero, lower, upper⟩ := plain
  have lowest : Nat.pow 2 63 = 9223372036854775808 := by decide
  have highest : Nat.pow 2 64 = 18446744073709551616 := by decide
  unfold signedWhole at notZero lower upper ⊢
  unfold NumberLiteral.number? isWhole
  rw [fraction, exponent]
  generalize Nat.ofDigitChars 10 literal.whole 0 = whole at notZero lower upper ⊢
  -- With a sign a number goes down to `-2 ^ 63` and is not zero.
  cases negative : literal.negative with
  | true =>
    simp only [negative, if_true, ne_eq, forall_const] at notZero lower upper
    have positive : 0 < whole := by omega
    have small : whole ≤ Nat.pow 2 63 := by omega
    simp [positive, small]
  | false =>
    simp only [negative, Bool.false_eq_true, if_false] at lower upper
    have small : whole < Nat.pow 2 64 := by omega
    simp [small]

end NumberLiteral

namespace Tree

mutual

/-- Whether all numbers in a tree are plain. -/
def plain : Tree → Bool
  | .number literal => literal.Plain
  | .array items => itemsPlain items
  | .object members => membersPlain members
  | _ => true

def itemsPlain : List Tree → Bool
  | [] => true
  | first :: rest => first.plain && itemsPlain rest

def membersPlain : List (Option String × Tree) → Bool
  | [] => true
  | (_, first) :: rest => first.plain && membersPlain rest

end

end Tree

theorem exactMembers_iff {members : List (String × Json)} :
    exactMembers members = true ↔ ∀ member ∈ members, member.2.exact = true := by
  induction members with
  | nil => simp [exactMembers]
  | cons first rest ih => simp [exactMembers, ih]

mutual

theorem exact_of_plain : ∀ {tree : Tree} {json : Json}, tree.json? = some json → tree.plain = true → json.exact = true
  | .null, _, rfl, _ => rfl
  | .bool _, _, rfl, _ => rfl
  | .number literal, json, read, plain => by
    rw [Tree.json?, (of_decide_eq_true plain).number?] at read
    cases read
    rfl
  | .string text, json, read, _ => by
    obtain ⟨value, _, rfl⟩ := Option.map_eq_some_iff.mp read
    rfl
  | .array items, json, read, plain => by
    obtain ⟨jsons, values, rfl⟩ := Option.map_eq_some_iff.mp read
    exact exactItems_of_plain values plain
  | .object members, json, read, plain => by
    obtain ⟨pairs, values, rfl⟩ := Option.map_eq_some_iff.mp read
    have each := exactMembers_iff.mp (exactMembers_of_plain values plain)
    exact exactMembers_iff.mpr fun member inside => each member (mem_of_mem_sortMembers inside)

theorem exactItems_of_plain : ∀ {items : List Tree} {jsons : List Json}, Tree.items? items = some jsons →
    Tree.itemsPlain items = true → exactItems jsons = true
  | [], _, rfl, _ => rfl
  | first :: rest, jsons, read, plain => by
    simp only [Tree.items?, Option.bind_eq_bind, Option.bind_eq_some_iff, Option.pure_def, Option.some.injEq] at read
    obtain ⟨json, value, others, values, rfl⟩ := read
    obtain ⟨head, tail⟩ := Bool.and_eq_true_iff.mp plain
    exact Bool.and_eq_true_iff.mpr ⟨exact_of_plain value head, exactItems_of_plain values tail⟩

theorem exactMembers_of_plain : ∀ {members : List (Option String × Tree)} {pairs : List (String × Json)},
    Tree.members? members = some pairs → Tree.membersPlain members = true → exactMembers pairs = true
  | [], _, rfl, _ => rfl
  | (key, first) :: rest, pairs, read, plain => by
    simp only [Tree.members?, Option.bind_eq_bind, Option.bind_eq_some_iff, Option.pure_def, Option.some.injEq] at read
    obtain ⟨name, _, json, value, others, values, rfl⟩ := read
    obtain ⟨head, tail⟩ := Bool.and_eq_true_iff.mp plain
    exact Bool.and_eq_true_iff.mpr ⟨exact_of_plain value head, exactMembers_of_plain values tail⟩

end

end Json

namespace Manifest

/-- What a manifest holds of the members it is read from: its own ones, each of them given at most once, and any other
by its key with the last value given for it. -/
structure Holds (manifest : Manifest) (members : List (String × Tree)) : Prop where
  once : ((members.filter fun member => ownKeys.contains member.1).map Prod.fst).Nodup
  modules : (members.lookup "modules").bind Tree.strings? = some manifest.modules
  dependencies : Tree.fieldOr [] Tree.strings? (members.lookup "dependencies") = some manifest.dependencies
  digest : Tree.fieldOr [] Tree.bytes? (members.lookup "digest") = some manifest.digest
  own : ∀ key ∈ ownKeys, manifest.extra.lookup key = none
  further : ∀ key ∉ ownKeys, manifest.extra.lookup key = (lastValue? members key).bind Tree.json?

def furtherPlain (text : String) : Bool :=
  match Tree.ofText? text with
  | some (.object members) => members.all fun (key, value) => key.any ownKeys.contains || value.plain
  | _ => false

variable {manifest : Manifest} {text : String} {members : List (String × Tree)}

theorem ReadFrom.lookup_extra (parts : manifest.ReadFrom members) (key : String) :
    manifest.extra.lookup key = if ownKeys.contains key then none else (lastValue? members key).bind Tree.json? := by
  obtain ⟨extra, same, further⟩ := parts.further
  -- The last value for a key is the first from behind.
  have made := lookup_of_forall₂ (List.rel_reverse further) key
  rw [← List.filter_reverse, lookup_filter fun name => !ownKeys.contains name] at made
  rw [same, Json.lookup_sortMembers, lastValue?, made, lastValue?]
  cases ownKeys.contains key <;> rfl

theorem ReadFrom.holds (parts : manifest.ReadFrom members) : manifest.Holds members where
  once := parts.once
  modules := parts.modules
  dependencies := parts.dependencies
  digest := parts.digest
  own key inside := (parts.lookup_extra key).trans (if_pos (List.contains_iff_mem.mpr inside))
  further key strange := (parts.lookup_extra key).trans (if_neg (mt List.contains_iff_mem.mp strange))

theorem ReadFrom.exactMembers (parts : manifest.ReadFrom members)
    (plain : ∀ member ∈ members, ownKeys.contains member.1 = true ∨ member.2.plain = true) :
    Json.exactMembers manifest.extra = true := by
  obtain ⟨extra, same, further⟩ := parts.further
  rw [same]
  refine Json.exactMembers_iff.mpr fun member inside => ?_
  obtain ⟨origin, among, _, made⟩ := Steps.exists_of_mem_right further (Json.mem_of_mem_sortMembers inside)
  obtain ⟨among, strange⟩ := List.mem_filter.mp among
  exact Json.exact_of_plain made ((plain origin among).resolve_left (by simpa using strange))

/-- A manifest without other numbers than plain ones is read from its own text as it is. -/
theorem ofText_text_of_plain (read : ofText text = .ok manifest) (plain : furtherPlain text = true) :
    ofText manifest.text = .ok manifest ∧ (ofText manifest.text).map Manifest.text = .ok manifest.text ∧
      ∃ members : List (String × Tree),
        Tree.ofText? text = some (.object (members.map fun member => (some member.1, member.2))) ∧
          manifest.Holds members := by
  obtain ⟨members, shape, _, parts⟩ := readFrom_of_ofText read
  have each : ∀ member ∈ members, ownKeys.contains member.1 = true ∨ member.2.plain = true := by
    rw [furtherPlain, shape] at plain
    simpa using plain
  have sound := sound_of_ofText read
  have again : ofText manifest.text = .ok manifest := by
    rw [ofText_text sound, reread_of_exact sound (parts.exactMembers each)]
  exact ⟨again, by rw [again]; rfl, members, shape, parts.holds⟩

def nestedText : String :=
  "\x7b\"z\":1,\"modules\":[\"AA==\"],\"z\":[\x7b\"b\":-9223372036854775808,\"a\":\"q\\\"\\u0001\"," ++
    "\"b\":[null,0]\x7d],\"digest\":[7],\"k\":18446744073709551615\x7d"

def nestedPretty : String :=
  "\x7b\n  \"modules\": [\n    \"AA==\"\n  ],\n  \"dependencies\": [],\n  \"digest\": [\n    7\n  ],\n" ++
    "  \"k\": 18446744073709551615,\n  \"z\": [\n    \x7b\n      \"a\": \"q\\\"\\u0001\",\n      \"b\": [\n" ++
    "        null,\n        0\n      ]\n    \x7d\n  ]\n\x7d"

theorem ofText_nestedText : ∃ manifest, ofText nestedText = .ok manifest ∧ manifest.text = nestedPretty ∧
    ofText nestedPretty = .ok manifest := by
  have read : (ofText nestedText).toOption.map Manifest.text = some nestedPretty := by decide +kernel
  cases whole : ofText nestedText with
  | error failure =>
    rw [whole] at read
    cases read
  | ok manifest =>
    rw [whole] at read
    have shown : manifest.text = nestedPretty := Option.some.inj read
    exact ⟨manifest, rfl, shown, shown ▸ (ofText_text_of_plain whole (by decide +kernel)).1⟩

end Manifest

end MoveBytecode
