import MoveBytecode.Proofs.Module.Names

/-! What a batch of renames does. The last name given for an identifier counts, all names are compared as they stand
afterwards, and a refusal gives the first reason in the order of the indices. -/

set_option autoImplicit false

namespace MoveBytecode

namespace Renames

variable {renames : Renames} {identifiers : List String} {index : Nat} {name : String}

/-- The identifiers with the last name that is given for each of them. -/
def substitute (renames : Renames) (identifiers : List String) : List String :=
  identifiers.mapIdx fun index old => (lastValue? renames index).getD old

/-- An entry is for an identifier and gives it a name. -/
def Sound (length : Nat) (entry : Nat × String) : Prop := entry.1 < length ∧ Identifier.IsName entry.2

def Apart (identifiers : List String) (entry : Nat × String) : Prop :=
  ∀ place, identifiers[place]? = some entry.2 → place = entry.1

/-- The entries that count are sound, and the identifiers that result from them are apart. -/
structure Accepted (renames : Renames) (identifiers : List String) : Prop where
  sound : ∀ index name, lastValue? renames index = some name → Sound identifiers.length (index, name)
  apart : ∀ index name, lastValue? renames index = some name → Apart (renames.substitute identifiers) (index, name)

/-- The entry with the least index that is not sound is named, or if all are sound, the one with the least index that is
not apart and the first other place of its name. -/
inductive Refused (renames : Renames) (identifiers : List String) : EditError → Prop where
  | outside {index : Nat} {name : String} (given : lastValue? renames index = some name)
      (least : ∀ other < index, ∀ new, lastValue? renames other = some new → Sound identifiers.length (other, new))
      (beyond : identifiers.length ≤ index) :
      Refused renames identifiers (.indexOutOfRange .identifiers index identifiers.length)
  | unnamed {index : Nat} {name : String} (given : lastValue? renames index = some name)
      (least : ∀ other < index, ∀ new, lastValue? renames other = some new → Sound identifiers.length (other, new))
      (inside : index < identifiers.length) (wrong : ¬Identifier.IsName name) :
      Refused renames identifiers (.invalidIdentifier name)
  | taken {index place : Nat} {name : String} (given : lastValue? renames index = some name)
      (sound : ∀ other new, lastValue? renames other = some new → Sound identifiers.length (other, new))
      (least : ∀ other < index, ∀ new, lastValue? renames other = some new →
        Apart (renames.substitute identifiers) (other, new))
      (there : (renames.substitute identifiers)[place]? = some name) (elsewhere : place ≠ index)
      (first : ∀ earlier < place, (renames.substitute identifiers)[earlier]? = some name → earlier = index) :
      Refused renames identifiers (.duplicateIdentifier name place)

theorem mem_settled : (index, name) ∈ renames.settled ↔ lastValue? renames index = some name := by
  rw [← lookup_settled]
  constructor
  · have distinct : (renames.settled.map Prod.fst).Nodup :=
      List.pairwise_map.mpr ((ordered_settled renames).imp fun {_ _} => Nat.ne_of_lt)
    exact lookup_eq_some_of_mem distinct
  · exact mem_of_lookup

theorem findSome?_settled_eq_none {α : Type} {check : Nat × String → Option α} :
    renames.settled.findSome? check = none ↔
      ∀ index name, lastValue? renames index = some name → check (index, name) = none := by
  rw [List.findSome?_eq_none_iff]
  simp only [Prod.forall, mem_settled]

/-- Of several entries with a finding the one with the least index counts. -/
theorem findSome?_settled_eq_some {α : Type} {check : Nat × String → Option α} {finding : α} :
    renames.settled.findSome? check = some finding ↔ ∃ index name, lastValue? renames index = some name ∧
      check (index, name) = some finding ∧
        ∀ other < index, ∀ new, lastValue? renames other = some new → check (other, new) = none := by
  have ordered := ordered_settled renames
  simp only [← mem_settled]
  rw [List.findSome?_eq_some_iff]
  constructor
  · rintro ⟨before, ⟨index, name⟩, behind, split, found, clear⟩
    rw [split] at ordered ⊢
    -- Entries with lower indices stand before the one found, and all of those are clear.
    have later := (List.pairwise_cons.mp (List.pairwise_append.mp ordered).2.1).1
    refine ⟨index, name, by simp, found, fun other less new member => ?_⟩
    rcases List.mem_append.mp member with earlier | member
    · exact clear _ earlier
    · cases List.mem_cons.mp member with
      | inl same =>
        cases same
        exact absurd less (Nat.lt_irrefl index)
      | inr member => exact absurd less (Nat.lt_asymm (later (other, new) member))
  · rintro ⟨index, name, member, found, clear⟩
    obtain ⟨before, behind, split⟩ := List.append_of_mem member
    refine ⟨before, (index, name), behind, split, found, fun entry earlier => ?_⟩
    rw [split] at ordered clear
    have less := (List.pairwise_append.mp ordered).2.2 entry earlier (index, name) List.mem_cons_self
    exact clear entry.1 less entry.2 (List.mem_append_left _ earlier)

theorem apply_settled (renames : Renames) (identifiers : List String) :
    renames.settled.apply identifiers = renames.substitute identifiers := by
  unfold apply substitute
  simp only [lookup_settled]

theorem getElem?_substitute (renames : Renames) (identifiers : List String) (index : Nat) :
    (renames.substitute identifiers)[index]? =
      identifiers[index]?.map fun old => (lastValue? renames index).getD old :=
  List.getElem?_mapIdx ..

theorem accepted_of_nodup
    (sound : ∀ index name, lastValue? renames index = some name → Sound identifiers.length (index, name))
    (distinct : (renames.substitute identifiers).Nodup) : renames.Accepted identifiers where
  sound := sound
  apart index name given place there := by
    have here : (renames.substitute identifiers)[index]? = some name := by
      rw [getElem?_substitute, given, List.getElem?_eq_getElem (sound index name given).1]
      rfl
    exact place_unique distinct there here

theorem fault?_eq_some {length : Nat} {error : EditError} : fault? length (index, name) = some error ↔
    length ≤ index ∧ error = .indexOutOfRange .identifiers index length ∨
      index < length ∧ ¬Identifier.IsName name ∧ error = .invalidIdentifier name := by
  rw [← Identifier.isValid_iff, fault?]
  by_cases beyond : length ≤ index
  · simp [beyond, Nat.not_lt.mpr beyond, eq_comm (a := error)]
  · by_cases valid : Identifier.isValid name = true
    · simp [beyond, valid]
    · simp [beyond, valid, Nat.not_le.mp beyond, eq_comm (a := error)]

theorem clash?_eq_some {error : EditError} : clash? identifiers (index, name) = some error ↔
    ∃ place, identifiers[place]? = some name ∧ place ≠ index ∧
      (∀ earlier < place, identifiers[earlier]? = some name → earlier = index) ∧
      error = .duplicateIdentifier name place := by
  unfold clash?
  simp only [Option.map_eq_some_iff, List.find?_eq_some_iff_getElem, List.length_zipIdx, List.getElem_zipIdx,
    Nat.zero_add, Prod.exists, Prod.mk.injEq, decide_eq_true_eq, Bool.not_eq_true', decide_eq_false_iff_not]
  constructor
  · rintro ⟨_, place, ⟨⟨elsewhere, rfl⟩, _, inside, ⟨here, rfl⟩, before⟩, rfl⟩
    refine ⟨_, List.getElem?_eq_some_iff.mpr ⟨inside, here⟩, elsewhere, fun earlier less there => ?_, rfl⟩
    obtain ⟨_, same⟩ := List.getElem?_eq_some_iff.mp there
    by_contra other
    exact before earlier less ⟨other, same⟩
  · rintro ⟨place, there, elsewhere, first, rfl⟩
    obtain ⟨inside, here⟩ := List.getElem?_eq_some_iff.mp there
    refine ⟨name, place, ⟨⟨elsewhere, rfl⟩, place, inside, ⟨here, rfl⟩, fun earlier less taken => ?_⟩, rfl⟩
    exact taken.1 (first earlier less (List.getElem?_eq_some_iff.mpr ⟨less.trans inside, taken.2⟩))

theorem refused_iff {error : EditError} :
    renames.Refused identifiers error ↔ renames.refusal? identifiers = some error := by
  simp only [refusal?, Option.or_eq_some_iff, findSome?_settled_eq_some, findSome?_settled_eq_none, fault?_eq_some,
    fault?_eq_none, clash?_eq_some, clash?_eq_none, apply_settled]
  constructor
  · intro refused
    cases refused with
    | outside given least beyond => exact .inl ⟨_, _, given, .inl ⟨beyond, rfl⟩, least⟩
    | unnamed given least inside wrong => exact .inl ⟨_, _, given, .inr ⟨inside, wrong, rfl⟩, least⟩
    | taken given sound least there elsewhere first =>
      exact .inr ⟨sound, _, _, given, ⟨_, there, elsewhere, first, rfl⟩, least⟩
  · rintro (⟨index, name, given, ⟨beyond, rfl⟩ | ⟨inside, wrong, rfl⟩, least⟩ |
      ⟨sound, index, name, given, ⟨place, there, elsewhere, first, rfl⟩, least⟩)
    · exact .outside given least beyond
    · exact .unnamed given least inside wrong
    · exact .taken given sound least there elsewhere first

theorem accepted_iff : renames.Accepted identifiers ↔ renames.refusal? identifiers = none := by
  simp only [refusal?_eq_none, Prod.forall, mem_settled, fault?_eq_none, clash?_eq_none, apply_settled]
  exact ⟨fun accepted => ⟨accepted.sound, accepted.apart⟩, fun parts => ⟨parts.1, parts.2⟩⟩

end Renames

namespace Module

variable {module renamed : Module} {renames : Renames}

theorem rename_eq_ok_iff : module.rename renames = .ok renamed ↔
    renames.Accepted module.identifiers ∧
      renamed = { module with identifiers := renames.substitute module.identifiers } := by
  rw [rename_eq_ok, ← Renames.accepted_iff, Renames.apply_settled]

/-- A batch is made as a whole, or refused before any of it is written. -/
theorem rename_iff (module : Module) (renames : Renames) :
    (∀ renamed, Editor.rename renames module = .ok () renamed ↔ renames.Accepted module.identifiers ∧
      renamed = { module with identifiers := renames.substitute module.identifiers }) ∧
    ∀ error left, Editor.rename renames module = .error error left ↔
      renames.Refused module.identifiers error ∧ left = module := by
  simp only [Editor.rename_eq, Renames.accepted_iff, Renames.refused_iff, Renames.apply_settled]
  cases renames.refusal? module.identifiers with
  | none => simp [eq_comm]
  | some cause => simp [eq_comm]

end Module

end MoveBytecode
