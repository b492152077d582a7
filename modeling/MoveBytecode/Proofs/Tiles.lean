import MoveBytecode.Proofs.Tiling

/-! The same tables seen without an order: entries in the order of their bytes lie behind one another exactly when their
ranges fill the area without sharing a byte and the empty ones stand where a range starts or ends. -/

set_option autoImplicit false

namespace MoveBytecode

def Entry.Covers (entry : Entry) (place : Nat) : Prop := entry.offset ≤ place ∧ place < entry.finish

/-- Of entries that share an offset all but the last in the directory are empty. -/
structure Tiles (entries : List Entry) (total : Nat) : Prop where
  covered : ∀ place, place < total ↔ ∃ entry ∈ entries, entry.Covers place
  apart : ∀ first ∈ entries, ∀ second ∈ entries, ∀ place, first.Covers place → second.Covers place → first = second
  empty : ∀ entry ∈ entries, entry.length = 0 →
    entry.offset = 0 ∨ ∃ other ∈ entries, 0 < other.length ∧ other.finish = entry.offset
  ties : entries.Pairwise fun first second => first.offset = second.offset → first.length = 0

namespace Container

variable {entries : List Entry} {reached total : Nat}

theorem tiledEnd_covers (tiled : tiledEnd reached entries = .ok total) (place : Nat) :
    reached ≤ place ∧ place < total ↔ ∃ entry ∈ entries, entry.Covers place := by
  induction entries generalizing reached with
  | nil =>
    cases tiled
    simp
  | cons entry rest ih =>
    obtain ⟨here, tail⟩ := tiledEnd_cons.mp tiled
    have later := ih tail
    have more := le_of_tiledEnd tail
    have grows : entry.offset ≤ entry.finish := Nat.le_add_right _ _
    simp only [List.mem_cons, exists_eq_or_imp]
    rw [← later, Entry.Covers]
    omega

theorem tiledEnd_apart (tiled : tiledEnd reached entries = .ok total) :
    ∀ first ∈ entries, ∀ second ∈ entries, ∀ place, first.Covers place → second.Covers place → first = second := by
  intro first inside second inside'
  have behind := pairwise_of_tiledEnd tiled
  refine List.Pairwise.forall_of_forall_of_flip (R := fun first second : Entry => ∀ place, first.Covers place →
    second.Covers place → first = second) ?_ ?_ ?_ inside inside'
  · intro entry _ place _ _
    rfl
  · refine behind.imp ?_
    intro first second ends place here here'
    unfold Entry.Covers at here here'
    omega
  · refine behind.imp ?_
    intro first second ends place here here'
    unfold Entry.Covers at here here'
    omega

theorem tiledEnd_edge (tiled : tiledEnd reached entries = .ok total) :
    ∀ entry ∈ entries, entry.offset = reached ∨ ∃ other ∈ entries, 0 < other.length ∧ other.finish = entry.offset := by
  induction entries generalizing reached with
  | nil => simp
  | cons first rest ih =>
    obtain ⟨here, tail⟩ := tiledEnd_cons.mp tiled
    refine List.forall_mem_cons.mpr ⟨.inl here, fun entry member => ?_⟩
    rcases ih tail entry member with next | ⟨other, inside, edge⟩
    · by_cases empty : first.length = 0
      · rw [Entry.finish, empty] at next
        exact .inl (next.trans here)
      · exact .inr ⟨first, List.mem_cons_self, Nat.pos_of_ne_zero empty, next.symm⟩
    · exact .inr ⟨other, .tail _ inside, edge⟩

section
variable {rank : Entry → Nat}

theorem Precedes.irrefl {entry : Entry} : ¬Precedes rank entry entry := fun before => before.asymm before

theorem finish_le_of_precedes (ordered : entries.Pairwise (Precedes rank))
    (tiled : tiledEnd reached entries = .ok total) :
    ∀ first ∈ entries, ∀ second ∈ entries, Precedes rank first second → first.finish ≤ second.offset := by
  intro first inside second inside' before
  have behind := pairwise_of_tiledEnd tiled
  refine List.Pairwise.forall_of_forall_of_flip (R := fun first second => Precedes rank first second →
    first.finish ≤ second.offset) ?_ ?_ ?_ inside inside' before
  · intro entry _ before
    exact absurd before Precedes.irrefl
  · refine behind.imp ?_
    intro first second ends _
    exact ends
  · exact ordered.imp fun before after => absurd after before.asymm

/-- Ranks follow the list, so what holds of an entry and a later one holds where the first has the lower rank. -/
theorem of_rank_lt {relation : Entry → Entry → Prop}
    (listed : entries.Pairwise fun first second => rank first < rank second) (related : entries.Pairwise relation) :
    ∀ first ∈ entries, ∀ second ∈ entries, rank first < rank second → relation first second := by
  intro first inside second inside' lower
  refine List.Pairwise.forall_of_forall_of_flip (R := fun first second => rank first < rank second →
    relation first second) ?_ ?_ ?_ inside inside' lower
  · intro entry _ lower
    exact absurd lower (Nat.lt_irrefl _)
  · refine related.imp ?_
    intro first second holds _
    exact holds
  · exact listed.imp fun lower higher => absurd higher (Nat.lt_asymm lower)

theorem tiles_of_tiledEnd (listed : entries.Pairwise fun first second => rank first < rank second)
    (tiled : tiledEnd 0 (byOffset entries) = .ok total) : Tiles entries total := by
  -- All of it is known of the entries in the order of their bytes, which has the same members.
  have perm := byOffset_perm entries
  have ordered := byOffset_pairwise listed
  have members : ∀ {entry}, entry ∈ byOffset entries ↔ entry ∈ entries := perm.mem_iff
  have finish_le := finish_le_of_precedes ordered tiled
  simp only [members] at finish_le
  constructor
  · intro place
    have covers := tiledEnd_covers tiled place
    simp only [members] at covers
    rw [← covers]
    omega
  · intro first inside second inside'
    exact tiledEnd_apart tiled first (members.mpr inside) second (members.mpr inside')
  · intro entry member _
    have edge := tiledEnd_edge tiled entry (members.mpr member)
    simpa only [members] using edge
  · apply listed.imp_of_mem
    intro first second inside inside' lower same
    have ends := finish_le _ inside _ inside' (.inr ⟨same, lower⟩)
    unfold Entry.finish at ends
    omega

end

/-- The entries up to a place in the order of their bytes: none of them reaches beyond it, and a table ends there. -/
structure Swept (before : List Entry) (reached : Nat) : Prop where
  behind : ∀ entry ∈ before, entry.finish ≤ reached
  edge : reached = 0 ∨ ∃ entry ∈ before, 0 < entry.length ∧ entry.finish = reached

theorem Swept.step {before : List Entry} {entry : Entry} (swept : Swept before reached)
    (here : entry.offset = reached) : Swept (before ++ [entry]) entry.finish := by
  have grows : reached ≤ entry.finish := here ▸ Nat.le_add_right _ _
  constructor
  · intro other member
    rcases List.mem_append.mp member with earlier | last
    · exact (swept.behind other earlier).trans grows
    · rw [List.mem_singleton.mp last]
  · by_cases empty : entry.length = 0
    · have still : entry.finish = reached := by rw [Entry.finish, empty, here, Nat.add_zero]
      rw [still]
      rcases swept.edge with start | ⟨other, earlier, edge⟩
      · exact .inl start
      · exact .inr ⟨other, List.mem_append_left _ earlier, edge⟩
    · exact .inr ⟨entry, List.mem_append_right _ List.mem_cons_self, Nat.pos_of_ne_zero empty, rfl⟩

end Container

namespace Tiles

variable {entries : List Entry} {total : Nat} {entry : Entry} (tiles : Tiles entries total)

include tiles

theorem finish_le_total (member : entry ∈ entries) (positive : 0 < entry.length) : entry.finish ≤ total := by
  have last : entry.finish - 1 < total := by
    refine (tiles.covered _).mpr ⟨entry, member, ?_⟩
    unfold Entry.Covers Entry.finish
    omega
  omega

theorem offset_le_total (member : entry ∈ entries) : entry.offset ≤ total := by
  rcases Nat.eq_zero_or_pos entry.length with empty | positive
  · rcases tiles.empty entry member empty with start | ⟨other, inside, positive, edge⟩
    · rw [start]
      exact Nat.zero_le total
    · exact edge ▸ tiles.finish_le_total inside positive
  · exact (Nat.le_add_right _ _).trans (tiles.finish_le_total member positive)

end Tiles

namespace Container

section
variable {entries before rest : List Entry} {entry : Entry} {reached total : Nat} {rank : Entry → Nat}
  (listed : entries.Pairwise fun first second => rank first < rank second) (tiles : Tiles entries total)
  (split : byOffset entries = before ++ entry :: rest) (swept : Swept before reached)

include listed tiles split swept

theorem not_offset_lt : ¬entry.offset < reached := by
  intro below
  have perm := byOffset_perm entries
  have ordered := byOffset_pairwise listed
  rw [split] at perm ordered
  have member := perm.mem_iff.mp (List.mem_append_right _ List.mem_cons_self)
  rcases swept.edge with start | ⟨other, earlier, positive, edge⟩
  · omega
  have inside := perm.mem_iff.mp (List.mem_append_left _ earlier)
  -- The table that ends at the place starts before this one: at a tie it would have to be empty.
  have lower : other.offset < entry.offset := by
    rcases (List.pairwise_append.mp ordered).2.2 other earlier entry List.mem_cons_self with lower | ⟨same, rank⟩
    · exact lower
    · have empty := of_rank_lt listed tiles.ties other inside entry member rank same
      omega
  rcases Nat.eq_zero_or_pos entry.length with empty | full
  · rcases tiles.empty entry member empty with start | ⟨third, inside', positive', edge'⟩
    · omega
    · -- The table that ends where this empty one stands has the byte before it, and so has the other one.
      have same := tiles.apart other inside third inside' (entry.offset - 1) (by unfold Entry.Covers; omega)
        (by unfold Entry.Covers; unfold Entry.finish at edge' ⊢; omega)
      rw [← same] at edge'
      omega
  · have same := tiles.apart other inside entry member entry.offset (by unfold Entry.Covers; omega)
      (by unfold Entry.Covers Entry.finish; omega)
    rw [same] at lower
    exact absurd lower (Nat.lt_irrefl _)

theorem not_lt_offset : ¬reached < entry.offset := by
  intro beyond
  have perm := byOffset_perm entries
  have ordered := byOffset_pairwise listed
  rw [split] at perm ordered
  have member := perm.mem_iff.mp (List.mem_append_right _ List.mem_cons_self)
  have inside := Nat.lt_of_lt_of_le beyond (tiles.offset_le_total member)
  obtain ⟨other, there, starts, ends⟩ := (tiles.covered reached).mp inside
  rcases List.mem_append.mp (perm.mem_iff.mpr there) with earlier | later
  · exact absurd (swept.behind other earlier) (Nat.not_le.mpr ends)
  rcases List.mem_cons.mp later with same | later
  · rw [same] at starts
    omega
  · have after := (List.pairwise_cons.mp (List.pairwise_append.mp ordered).2.1).1 other later
    unfold Precedes at after
    omega

end

section
variable {entries : List Entry} {total : Nat} {rank : Entry → Nat}
  (listed : entries.Pairwise fun first second => rank first < rank second)

include listed

theorem tiledEnd_of_swept (tiles : Tiles entries total) {before rest : List Entry} {reached : Nat}
    (split : byOffset entries = before ++ rest) (swept : Swept before reached) : tiledEnd reached rest = .ok total := by
  -- The entries still to come lie behind one another from the place that those before have reached.
  induction rest generalizing before reached with
  | nil =>
    rw [List.append_nil] at split
    have perm := byOffset_perm entries
    rw [split] at perm
    have reach : reached ≤ total := by
      rcases swept.edge with start | ⟨entry, member, positive, edge⟩
      · omega
      · exact edge ▸ tiles.finish_le_total (perm.mem_iff.mp member) positive
    have full : ¬reached < total := by
      intro short
      obtain ⟨entry, member, _, ends⟩ := (tiles.covered reached).mp short
      exact absurd (swept.behind entry (perm.mem_iff.mpr member)) (Nat.not_le.mpr ends)
    rw [tiledEnd]
    apply congrArg Except.ok
    omega
  | cons entry rest ih =>
    have here : entry.offset = reached := by
      have low := not_offset_lt listed tiles split swept
      have high := not_lt_offset listed tiles split swept
      omega
    refine tiledEnd_cons.mpr ⟨here, ih ?_ (swept.step here)⟩
    rw [split, List.append_assoc]
    rfl

theorem tiledEnd_byOffset : tiledEnd 0 (byOffset entries) = .ok total ↔ Tiles entries total := by
  constructor
  · intro tiled
    exact tiles_of_tiledEnd listed tiled
  · intro tiles
    have split : byOffset entries = [] ++ byOffset entries := rfl
    exact tiledEnd_of_swept listed tiles split ⟨List.forall_mem_nil _, .inl rfl⟩

end

theorem areaLength_eq_ok {entries : List Entry} {total : Nat} (distinct : (entries.map Entry.kind).Nodup) :
    areaLength entries = .ok total ↔ Tiles entries total :=
  tiledEnd_byOffset (pairwise_rankIn distinct)

end Container

end MoveBytecode
