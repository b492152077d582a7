import Mathlib
import MoveBytecode.Container

/-! Tables behind one another in the area. Entries are brought into the order of their bytes, those that start at the
same place in the order of the directory; in that order each has to start where the one before it ends. -/

set_option autoImplicit false

namespace MoveBytecode.Container

/-- The order of the bytes, where `rank` is the order of the directory. -/
def Precedes (rank : Entry → Nat) (first second : Entry) : Prop :=
  first.offset < second.offset ∨ first.offset = second.offset ∧ rank first < rank second

instance (rank : Entry → Nat) : Trans (Precedes rank) (Precedes rank) (Precedes rank) where
  trans := by
    intro first second third before after
    unfold Precedes at before after ⊢
    omega

theorem Precedes.asymm {rank : Entry → Nat} {first second : Entry} (before : Precedes rank first second) :
    ¬Precedes rank second first := by
  intro after
  unfold Precedes at before after
  omega

theorem insertByOffset_perm (entry : Entry) (entries : List Entry) :
    (insertByOffset entry entries).Perm (entry :: entries) := by
  induction entries with
  | nil => exact .refl _
  | cons first rest ih =>
    rw [insertByOffset]
    split
    · exact .refl _
    · exact (ih.cons first).trans (.swap entry first rest)

theorem byOffset_perm (entries : List Entry) : (byOffset entries).Perm entries := by
  induction entries with
  | nil => exact .refl _
  | cons entry entries ih => exact (insertByOffset_perm entry _).trans (ih.cons entry)

theorem insertByOffset_pairwise {rank : Entry → Nat} {entry : Entry} {entries : List Entry}
    (first : ∀ other ∈ entries, rank entry < rank other) (ordered : entries.Pairwise (Precedes rank)) :
    (insertByOffset entry entries).Pairwise (Precedes rank) := by
  induction entries with
  | nil => exact List.pairwise_singleton _ entry
  | cons head rest ih =>
    obtain ⟨before, ordered'⟩ := List.pairwise_cons.mp ordered
    rw [insertByOffset]
    split
    · rename_i earlier
      -- A tie goes to the new entry, and its place in the directory is before those of the others.
      refine List.pairwise_cons.mpr ⟨fun other member => ?_, ordered⟩
      have lower := first other member
      rcases List.mem_cons.mp member with rfl | member
      · unfold Precedes
        omega
      · have := before other member
        unfold Precedes at this ⊢
        omega
    · rename_i later
      refine List.pairwise_cons.mpr
        ⟨fun other member => ?_, ih (fun other inside => first other (.tail _ inside)) ordered'⟩
      rcases List.mem_cons.mp ((insertByOffset_perm entry rest).mem_iff.mp member) with rfl | member
      · unfold Precedes
        omega
      · exact before other member

theorem byOffset_pairwise {rank : Entry → Nat} {entries : List Entry}
    (listed : entries.Pairwise fun first second => rank first < rank second) :
    (byOffset entries).Pairwise (Precedes rank) := by
  induction entries with
  | nil => exact .nil
  | cons entry entries ih =>
    obtain ⟨before, listed⟩ := List.pairwise_cons.mp listed
    exact insertByOffset_pairwise (fun other member => before other ((byOffset_perm entries).mem_iff.mp member))
      (ih listed)

theorem byOffset_eq {rank : Entry → Nat} {entries ordered : List Entry}
    (listed : entries.Pairwise fun first second => rank first < rank second) (perm : ordered.Perm entries)
    (sorted : ordered.Pairwise (Precedes rank)) : byOffset entries = ordered :=
  ((byOffset_perm entries).trans perm.symm).eq_of_pairwise (fun _ _ _ _ before after => absurd after before.asymm)
    (byOffset_pairwise listed) sorted

theorem pairwise_idxOf {kinds : List TableKind} (distinct : kinds.Nodup) :
    kinds.Pairwise fun first second => kinds.idxOf first < kinds.idxOf second := by
  rw [List.pairwise_iff_getElem]
  intro i j hi hj before
  rwa [distinct.idxOf_getElem, distinct.idxOf_getElem]

def rankIn (entries : List Entry) (entry : Entry) : Nat := (entries.map Entry.kind).idxOf entry.kind

theorem pairwise_rankIn {entries : List Entry} (distinct : (entries.map Entry.kind).Nodup) :
    entries.Pairwise fun first second => rankIn entries first < rankIn entries second := by
  have listed := pairwise_idxOf distinct
  rw [List.pairwise_map] at listed
  exact listed

theorem tiledEnd_cons {reached total : Nat} {entry : Entry} {rest : List Entry} :
    tiledEnd reached (entry :: rest) = .ok total ↔ entry.offset = reached ∧ tiledEnd entry.finish rest = .ok total := by
  rw [tiledEnd]
  split <;> simp [*]

theorem tiledEnd_append {reached total : Nat} {before rest : List Entry} :
    tiledEnd reached (before ++ rest) = .ok total ↔
      ∃ middle, tiledEnd reached before = .ok middle ∧ tiledEnd middle rest = .ok total := by
  induction before generalizing reached with
  | nil => simp [tiledEnd]
  | cons entry before ih => simp only [List.cons_append, tiledEnd_cons, ih, and_assoc, exists_and_left]

/-- Entries that lie behind one another take up all the bytes from the first to the last. -/
theorem tiledEnd_eq_sum {reached total : Nat} {entries : List Entry} (tiled : tiledEnd reached entries = .ok total) :
    total = reached + (entries.map Entry.length).sum := by
  induction entries generalizing reached with
  | nil =>
    cases tiled
    rfl
  | cons entry rest ih =>
    obtain ⟨here, rest⟩ := tiledEnd_cons.mp tiled
    have total_eq := ih rest
    rw [total_eq, List.map_cons, List.sum_cons, Entry.finish, here, Nat.add_assoc]

theorem le_of_tiledEnd {reached total : Nat} {entries : List Entry} (tiled : tiledEnd reached entries = .ok total) :
    reached ≤ total := by
  rw [tiledEnd_eq_sum tiled]
  exact Nat.le_add_right _ _

theorem bounds_of_tiledEnd {reached total : Nat} {entries : List Entry} (tiled : tiledEnd reached entries = .ok total) :
    ∀ entry ∈ entries, reached ≤ entry.offset ∧ entry.finish ≤ total := by
  induction entries generalizing reached with
  | nil => simp
  | cons entry rest ih =>
    obtain ⟨here, tail⟩ := tiledEnd_cons.mp tiled
    refine List.forall_mem_cons.mpr ⟨⟨Nat.le_of_eq here.symm, le_of_tiledEnd tail⟩, fun other member => ?_⟩
    have bounds := ih tail other member
    have grows : entry.offset ≤ entry.finish := Nat.le_add_right _ _
    exact ⟨by omega, bounds.2⟩

theorem pairwise_of_tiledEnd {reached total : Nat} {entries : List Entry}
    (tiled : tiledEnd reached entries = .ok total) :
    entries.Pairwise fun first second => first.finish ≤ second.offset := by
  induction entries generalizing reached with
  | nil => exact .nil
  | cons entry rest ih =>
    obtain ⟨_, tail⟩ := tiledEnd_cons.mp tiled
    exact List.pairwise_cons.mpr ⟨fun other member => (bounds_of_tiledEnd tail other member).1, ih tail⟩

theorem chain_of_tiledEnd {reached total : Nat} {entries : List Entry} (tiled : tiledEnd reached entries = .ok total) :
    entries.IsChain fun first second => second.offset = first.finish := by
  induction entries generalizing reached with
  | nil => exact .nil
  | cons entry rest ih =>
    obtain ⟨_, tail⟩ := tiledEnd_cons.mp tiled
    cases rest with
    | nil => exact .singleton entry
    | cons second rest => exact List.isChain_cons_cons.mpr ⟨(tiledEnd_cons.mp tail).1, ih tail⟩

theorem flatMap_slice_of_tiledEnd {container : Container} {reached : Nat} {entries : List Entry}
    (tiled : tiledEnd reached entries = .ok container.area.length) :
    entries.flatMap container.slice = container.area.drop reached := by
  induction entries generalizing reached with
  | nil =>
    cases tiled
    rw [List.drop_length, List.flatMap_nil]
  | cons entry rest ih =>
    obtain ⟨rfl, tail⟩ := tiledEnd_cons.mp tiled
    rw [List.flatMap_cons, ih tail, slice, Entry.finish, ← List.drop_drop, List.take_append_drop]

theorem finish_le_of_areaLength {entries : List Entry} {entry : Entry} {total : Nat}
    (tiled : areaLength entries = .ok total) (member : entry ∈ entries) : entry.finish ≤ total :=
  (bounds_of_tiledEnd tiled entry ((byOffset_perm entries).mem_iff.mpr member)).2

theorem length_slice {container : Container} {entries : List Entry} {entry : Entry}
    (tiled : areaLength entries = .ok container.area.length) (member : entry ∈ entries) :
    (container.slice entry).length = entry.length := by
  have inside := finish_le_of_areaLength tiled member
  rw [slice, List.length_take, List.length_drop]
  unfold Entry.finish at inside
  omega

end MoveBytecode.Container
