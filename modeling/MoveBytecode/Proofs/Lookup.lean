import Mathlib

/-! Values by key in a list of pairs: the first one with a key, which is the only one where no key comes twice, and the
last one, which counts where a later pair replaces an earlier one. -/

set_option autoImplicit false

namespace MoveBytecode

variable {κ α : Type}

section
variable [BEq κ] [LawfulBEq κ] {pairs others : List (κ × α)} {key : κ} {value : α}

theorem mem_of_lookup (found : pairs.lookup key = some value) : (key, value) ∈ pairs := by
  obtain ⟨before, rest, split, _⟩ := List.lookup_eq_some_iff.mp found
  rw [split]
  exact List.mem_append_right _ List.mem_cons_self

theorem lookup_eq_some_of_mem (distinct : (pairs.map Prod.fst).Nodup) (member : (key, value) ∈ pairs) :
    pairs.lookup key = some value := by
  obtain ⟨before, rest, split⟩ := List.append_of_mem member
  refine List.lookup_eq_some_iff.mpr ⟨before, rest, split, fun pair earlier => ?_⟩
  rw [split, List.map_append, List.map_cons] at distinct
  have apart := (List.nodup_append.mp distinct).2.2 pair.1 (List.mem_map_of_mem earlier) key List.mem_cons_self
  exact bne_iff_ne.mpr apart.symm

theorem lookup_of_perm (distinct : (pairs.map Prod.fst).Nodup) (perm : pairs.Perm others) (key : κ) :
    others.lookup key = pairs.lookup key := by
  have distinct' := (perm.map Prod.fst).nodup_iff.mp distinct
  refine Option.ext fun value => ⟨fun found => ?_, fun found => ?_⟩
  · exact lookup_eq_some_of_mem distinct (perm.mem_iff.mpr (mem_of_lookup found))
  · exact lookup_eq_some_of_mem distinct' (perm.mem_iff.mp (mem_of_lookup found))

theorem lookup_cons_of_ne {pair : κ × α} (apart : key ≠ pair.1) : (pair :: pairs).lookup key = pairs.lookup key := by
  rw [List.lookup_cons, beq_false_of_ne apart]

theorem lookup_eq_none_of_fresh (fresh : key ∉ pairs.map Prod.fst) : pairs.lookup key = none := by
  cases found : pairs.lookup key with
  | none => rfl
  | some value => exact absurd (List.mem_map_of_mem (mem_of_lookup found)) fresh

theorem lookup_isSome_iff : (pairs.lookup key).isSome = true ↔ key ∈ pairs.map Prod.fst := by
  constructor
  · intro found
    obtain ⟨value, found⟩ := Option.isSome_iff_exists.mp found
    exact List.mem_map_of_mem (mem_of_lookup found)
  · intro member
    by_contra absent
    obtain ⟨pair, inside, rfl⟩ := List.mem_map.mp member
    have apart := List.lookup_eq_none_iff.mp (Option.not_isSome_iff_eq_none.mp absent) pair inside
    exact bne_iff_ne.mp apart rfl

theorem lookup_filter (keep : κ → Bool) (key : κ) :
    (pairs.filter fun pair => keep pair.1).lookup key = if keep key then pairs.lookup key else none := by
  induction pairs with
  | nil => simp
  | cons pair rest ih =>
    rw [List.filter_cons]
    by_cases same : key = pair.1
    · subst same
      split
      · rw [List.lookup_cons, List.lookup_cons, beq_self_eq_true]
      · next dropped => rw [ih, if_neg dropped]
    · rw [lookup_cons_of_ne same, ← ih]
      split
      · rw [lookup_cons_of_ne same]
      · rfl

theorem lookup_of_forall₂ {β : Type} {read : α → Option β} {results : List (κ × β)}
    (made : List.Forall₂ (fun pair result => pair.1 = result.1 ∧ read pair.2 = some result.2) pairs results) (key : κ) :
    results.lookup key = (pairs.lookup key).bind read := by
  induction made with
  | nil => rfl
  | @cons pair result _ _ head _ ih =>
    by_cases same : key = pair.1
    · rw [List.lookup_cons, List.lookup_cons, ← head.1, beq_iff_eq.mpr same, Option.bind_some, head.2]
    · rw [lookup_cons_of_ne same, lookup_cons_of_ne (head.1 ▸ same), ih]

end

variable [BEq κ]

def lastValue? (pairs : List (κ × α)) (key : κ) : Option α := pairs.reverse.lookup key

@[simp] theorem lastValue?_nil (key : κ) : lastValue? ([] : List (κ × α)) key = none := rfl

theorem mem_of_lastValue? [LawfulBEq κ] {pairs : List (κ × α)} {key : κ} {value : α}
    (found : lastValue? pairs key = some value) : (key, value) ∈ pairs := List.mem_reverse.mp (mem_of_lookup found)

theorem lastValue?_of_perm [LawfulBEq κ] {pairs others : List (κ × α)} (distinct : (pairs.map Prod.fst).Nodup)
    (perm : others.Perm pairs) (key : κ) : lastValue? others key = lastValue? pairs key := by
  have distinct' : (pairs.reverse.map Prod.fst).Nodup := by
    rw [List.map_reverse]
    exact List.nodup_reverse.mpr distinct
  have perm' : pairs.reverse.Perm others.reverse :=
    (List.reverse_perm pairs).trans (perm.symm.trans (List.reverse_perm others).symm)
  exact lookup_of_perm distinct' perm' key

theorem lastValue?_append (earlier later : List (κ × α)) (key : κ) :
    lastValue? (earlier ++ later) key = (lastValue? later key).or (lastValue? earlier key) := by
  rw [lastValue?, List.reverse_append, List.lookup_append]
  rfl

theorem lastValue?_cons (pair : κ × α) (rest : List (κ × α)) (key : κ) :
    lastValue? (pair :: rest) key = (lastValue? rest key).or (if key == pair.1 then some pair.2 else none) := by
  have alone : lastValue? [pair] key = if key == pair.1 then some pair.2 else none := by
    simp only [lastValue?, List.reverse_singleton, List.lookup]
    cases key == pair.1 <;> rfl
  rw [← List.singleton_append, lastValue?_append, alone]

end MoveBytecode
