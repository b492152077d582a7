import MoveBytecode.Proofs.Container
import MoveBytecode.Proofs.Tiles

/-! The tables as parts of the area. Where the entries lie behind one another from its start to its end, each of them can
be cut out of it, whatever the order they are taken in; laid out, the cuts are the area, and no byte is in two of them. -/

set_option autoImplicit false

namespace MoveBytecode

/-- The bytes from one place up to another, if the places are in order and there are so many bytes. -/
def Bytes.range? (bytes : Bytes) (first finish : Nat) : Option Bytes :=
  if first ≤ finish ∧ finish ≤ bytes.length then some ((bytes.take finish).drop first) else none

namespace Container

def Holds (container : Container) (entry : Entry) (place : Nat) : Prop :=
  ∃ inner byte, entry.offset + inner = place ∧ (container.slice entry)[inner]? = some byte ∧
    container.area[place]? = some byte

variable {container : Container} {entries : List Entry} {entry : Entry} {reached total place : Nat}

theorem range?_eq_slice (inside : entry.finish ≤ container.area.length) :
    container.area.range? entry.offset entry.finish = some (container.slice entry) := by
  have grows : entry.offset ≤ entry.finish := Nat.le_add_right _ _
  rw [Bytes.range?, if_pos ⟨grows, inside⟩, List.drop_take, Entry.finish, Nat.add_sub_cancel_left]
  rfl

theorem range?_of_ofBytes {bytes : Bytes} (read : ofBytes bytes = .ok container) (member : entry ∈ container.entries) :
    container.area.range? entry.offset entry.finish = some (container.slice entry) :=
  range?_eq_slice (finish_le_of_areaLength (ofBytes_eq_ok.mp read).1.tiled member)

theorem getElem?_slice (container : Container) (entry : Entry) (inner : Nat) : (container.slice entry)[inner]? =
    if inner < entry.length then container.area[entry.offset + inner]? else none := by
  rw [slice, List.getElem?_take, List.getElem?_drop]

theorem holds_iff (inside : entry.finish ≤ container.area.length) : container.Holds entry place ↔ entry.Covers place := by
  unfold Entry.finish at inside
  constructor
  · intro held
    obtain ⟨inner, byte, here, found, _⟩ := held
    rw [getElem?_slice] at found
    split at found
    · unfold Entry.Covers Entry.finish
      omega
    · cases found
  · intro covered
    obtain ⟨starts, ends⟩ := covered
    -- The place in the table is that in the area less the offset of the table.
    unfold Entry.finish at ends
    have here : entry.offset + (place - entry.offset) = place := Nat.add_sub_of_le starts
    have found : container.area[place]? = some container.area[place] := List.getElem?_eq_getElem (by omega)
    refine ⟨place - entry.offset, container.area[place], here, ?_, found⟩
    rw [getElem?_slice, if_pos (by omega), here, found]

theorem reach_of_tiledEnd (tiled : tiledEnd reached entries = .ok total) :
    total = reached ∨ ∃ entry ∈ entries, total = entry.finish := by
  induction entries generalizing reached with
  | nil =>
    cases tiled
    exact .inl rfl
  | cons entry rest ih =>
    obtain ⟨_, tail⟩ := tiledEnd_cons.mp tiled
    rcases ih tail with last | ⟨other, member, last⟩
    · exact .inr ⟨entry, List.mem_cons_self, last⟩
    · exact .inr ⟨other, .tail _ member, last⟩

theorem pairwise_apart (tiled : areaLength entries = .ok total) :
    entries.Pairwise fun first second => ∀ place, first.Covers place → ¬second.Covers place := by
  have ordered := (pairwise_of_tiledEnd tiled).imp (S := fun first second : Entry =>
    ∀ place, first.Covers place → ¬second.Covers place) ?_
  · exact ((byOffset_perm entries).pairwise_iff fun apart place second first => apart place first second).mp ordered
  · intro first second behind place here there
    exact absurd here.2 (Nat.not_lt.mpr (behind.trans there.1))

theorem existsUnique_covers (tiled : areaLength entries = .ok total) (inside : place < total) :
    ∃! index : Fin entries.length, entries[index].Covers place := by
  obtain ⟨entry, member, covered⟩ := (tiledEnd_covers tiled place).mp ⟨Nat.zero_le place, inside⟩
  obtain ⟨index, bound, same⟩ := List.mem_iff_getElem.mp ((byOffset_perm entries).mem_iff.mp member)
  subst same
  have apart := List.pairwise_iff_getElem.mp (pairwise_apart tiled)
  refine ⟨⟨index, bound⟩, covered, fun other covered' => Fin.ext ?_⟩
  rcases Nat.lt_trichotomy other.val index with before | same | after
  · exact absurd covered (apart _ _ _ _ before place covered')
  · exact same
  · exact absurd covered' (apart _ _ _ _ after place covered)

theorem areaLength_lt (fits : ∀ entry ∈ entries, entry.Fits) (tiled : areaLength entries = .ok total) :
    total < 2 ^ 33 := by
  rcases reach_of_tiledEnd tiled with start | ⟨entry, member, last⟩
  · omega
  · obtain ⟨offset, length⟩ := fits entry ((byOffset_perm entries).mem_iff.mp member)
    unfold Entry.finish at last
    omega

/-- In a directory whose entries lie behind one another every entry ends inside the total, which is far from 64 bits if
the fields of the entries have 32. From an area of that many bytes each entry can be cut out; in the order of the bytes
the cuts are the whole area, and each byte is held by one entry of the directory and no other. -/
theorem slices_of_areaLength (tiled : areaLength entries = .ok total) :
    (∀ entry ∈ entries, entry.offset ≤ entry.finish ∧ entry.finish ≤ total) ∧
    ((∀ entry ∈ entries, entry.Fits) → total < 2 ^ 33) ∧
    ∀ container : Container, container.area.length = total →
      (∀ entry ∈ entries, container.area.range? entry.offset entry.finish = some (container.slice entry)) ∧
      (byOffset entries).flatMap container.slice = container.area ∧
      ∀ place < total, ∃! index : Fin entries.length, container.Holds entries[index] place := by
  refine ⟨fun entry member => ?_, fun fits => areaLength_lt fits tiled, fun container size => ?_⟩
  · exact ⟨Nat.le_add_right _ _, finish_le_of_areaLength tiled member⟩
  · subst size
    refine ⟨fun entry member => ?_, ?_, fun place inside => ?_⟩
    · exact range?_eq_slice (finish_le_of_areaLength tiled member)
    · rw [flatMap_slice_of_tiledEnd tiled, List.drop_zero]
    · have held (index : Fin entries.length) : container.Holds entries[index] place ↔ entries[index].Covers place :=
        holds_iff (finish_le_of_areaLength tiled (List.getElem_mem index.isLt))
      exact (existsUnique_congr held).mpr (existsUnique_covers tiled inside)

def shuffled : List Entry := [⟨.addressIdentifiers, 3, 0⟩, ⟨.constantPool, 3, 3⟩, ⟨.identifiers, 0, 3⟩]

def shuffledTables : Container := ⟨⟨4, 0, by decide⟩, shuffled, [2, 0x61, 0x62, 1, 1, 0], none⟩

theorem slices_of_shuffled : areaLength shuffled = .ok 6 ∧ (∀ entry ∈ shuffled, entry.Fits) ∧ 6 < 2 ^ 33 ∧
    ⟨.constantPool, 3, 3⟩ ∈ shuffled ∧ shuffledTables.area.range? 3 6 = some [1, 1, 0] ∧
    (byOffset shuffled).flatMap shuffledTables.slice = [2, 0x61, 0x62, 1, 1, 0] ∧
    3 < 6 ∧ ∃! index : Fin shuffled.length, shuffledTables.Holds shuffled[index] 3 := by
  have tiled : areaLength shuffled = .ok 6 := rfl
  have fits : ∀ entry ∈ shuffled, entry.Fits := by simp [shuffled, Entry.Fits]
  have member : (⟨.constantPool, 3, 3⟩ : Entry) ∈ shuffled := by decide
  have inside : 3 < 6 := by decide
  obtain ⟨_, small, cut⟩ := slices_of_areaLength tiled
  obtain ⟨within, whole, alone⟩ := cut shuffledTables rfl
  exact ⟨tiled, fits, small fits, member, within _ member, whole, inside, alone 3 inside⟩

end Container

end MoveBytecode
