import MoveBytecode.Proofs.Reader.Primitive

/-! Readers on fewer bytes than they take, and on more. A reader that runs out of bytes says how many it asked for and
where the bytes end; one that refuses what is left over does so whatever the bytes are. -/

set_option autoImplicit false

namespace MoveBytecode.Reader

variable {ε ε' α β : Type} {fault : ReadError → ε}

/-- The reader asks for more bytes than are left at the place that it got to. -/
def RunsOut (fault : ReadError → ε) (reader : Reader ε α) (cursor : Cursor) : Prop :=
  ∃ needed place remaining next, reader cursor = .error (fault (.outOfBounds needed place remaining)) next ∧
    place + remaining = cursor.offset + cursor.rest.length ∧ remaining < needed

def NeedsAll (fault : ReadError → ε) (reader : Reader ε α) : Prop :=
  ∀ offset front back value place, back ≠ [] → reader ⟨offset, front ++ back⟩ = .ok value ⟨place, []⟩ →
    RunsOut fault reader ⟨offset, front⟩

/-- Where the reader takes all the bytes there are, it fails if others follow them. -/
def RefusesMore (error : Nat → ε) (reader : Reader ε α) : Prop :=
  ∀ offset bytes more value place, more ≠ [] → reader ⟨offset, bytes⟩ = .ok value ⟨place, []⟩ →
    ∃ next, reader ⟨offset, bytes ++ more⟩ = .error (error more.length) next

section
variable {reader : Reader ε α} {follow : α → Reader ε β} {form : Form α} {cursor : Cursor}

theorem RunsOut.bind (short : RunsOut fault reader cursor) : RunsOut fault (reader >>= follow) cursor := by
  obtain ⟨needed, place, remaining, next, failed, ends, lacks⟩ := short
  exact ⟨needed, place, remaining, next, bind_of_error failed, ends, lacks⟩

theorem RunsOut.bind_right {value : α} {middle : Cursor} (read : reader cursor = .ok value middle)
    (ends : middle.offset + middle.rest.length = cursor.offset + cursor.rest.length)
    (short : RunsOut fault (follow value) middle) : RunsOut fault (reader >>= follow) cursor := by
  obtain ⟨needed, place, remaining, next, failed, ends', lacks⟩ := short
  exact ⟨needed, place, remaining, next, (bind_of_ok read).trans failed, ends'.trans ends, lacks⟩

/-- The bytes end before the first reader is done, or it reads its value and they end before the second is. -/
theorem NeedsAll.bind (first : NeedsAll fault reader) (reads : Reads reader form)
    (second : ∀ value, NeedsAll fault (follow value)) : NeedsAll fault (reader >>= follow) := by
  intro offset front back result place cut done
  obtain ⟨value, ⟨middle, rest⟩, head, tail⟩ := bind_eq_ok.mp done
  obtain ⟨taken, stands, split, moved⟩ := (reads _ value _).mp head
  -- The cut is in the bytes of the first reader or behind them.
  by_cases early : front.length < taken.length
  · obtain ⟨more, whole⟩ : front <+: taken :=
      List.prefix_of_prefix_length_le ⟨back, rfl⟩ ⟨rest, split.symm⟩ (Nat.le_of_lt early)
    have lacking : more ≠ [] := by
      intro none
      simp [← whole, none] at early
    have alone : reader ⟨offset, front ++ more⟩ = .ok value ⟨offset + taken.length, []⟩ :=
      (reads _ _ _).mpr ⟨taken, stands, by simp [whole], rfl⟩
    exact (first offset front more value _ lacking alone).bind
  · obtain ⟨more, whole⟩ : taken <+: front :=
      List.prefix_of_prefix_length_le ⟨rest, split.symm⟩ ⟨back, rfl⟩ (Nat.le_of_not_lt early)
    have left : rest = more ++ back := by
      simp only [← whole, List.append_assoc, List.append_cancel_left_eq] at split
      exact split.symm
    have before : reader ⟨offset, front⟩ = .ok value ⟨middle, more⟩ :=
      (reads _ _ _).mpr ⟨taken, stands, whole.symm, moved⟩
    rw [left] at tail
    refine .bind_right before ?_ (second value middle more back result place cut tail)
    simp only at moved
    simp only [← whole, moved, List.length_append]
    omega

theorem RefusesMore.bind {error : Nat → ε} (reads : Reads reader form)
    (second : ∀ value, RefusesMore error (follow value)) : RefusesMore error (reader >>= follow) := by
  intro offset bytes more result place beyond done
  obtain ⟨value, ⟨middle, rest⟩, head, tail⟩ := bind_eq_ok.mp done
  obtain ⟨taken, stands, split, moved⟩ := (reads _ value _).mp head
  simp only at split
  have before : reader ⟨offset, bytes ++ more⟩ = .ok value ⟨middle, rest ++ more⟩ :=
    (reads _ _ _).mpr ⟨taken, stands, by simp [split], moved⟩
  obtain ⟨next, failed⟩ := second value middle rest more result place beyond tail
  exact ⟨next, (bind_of_ok before).trans failed⟩

theorem needsAll_pure (value : α) : NeedsAll fault (pure value : Reader ε α) := by
  intro offset front back result place cut done
  change EStateM.Result.ok value (⟨offset, front ++ back⟩ : Cursor) = .ok result ⟨place, []⟩ at done
  simp [cut] at done

theorem needsAll_throw (error : ε) : NeedsAll fault (throw error : Reader ε α) := by
  intro offset front back result place cut done
  cases done

theorem needsAll_ofOption (error : ε) (found : Option α) : NeedsAll fault (ofOption error found) := by
  cases found with
  | none => exact needsAll_throw error
  | some value => exact needsAll_pure value

theorem needsAll_ofExcept (convert : ε' → ε) (outcome : Except ε' α) : NeedsAll fault (ofExcept convert outcome) := by
  cases outcome with
  | error error => exact needsAll_throw _
  | ok value => exact needsAll_pure value

theorem NeedsAll.map (needs : NeedsAll fault reader) (reads : Reads reader form) (convert : α → β) :
    NeedsAll fault (do return convert (← reader)) := needs.bind reads fun _ => needsAll_pure _

theorem NeedsAll.mapError (needs : NeedsAll fault reader) (convert : ε → ε') :
    NeedsAll (fun cause => convert (fault cause)) (reader.mapError convert) := by
  intro offset front back value place cut done
  have read : reader ⟨offset, front ++ back⟩ = .ok value ⟨place, []⟩ := by
    unfold Reader.mapError at done
    cases outcome : reader ⟨offset, front ++ back⟩ with
    | ok result next => simpa [outcome] using done
    | error error next => simp [outcome] at done
  obtain ⟨needed, stop, remaining, next, failed, ends, lacks⟩ := needs offset front back value place cut read
  exact ⟨needed, stop, remaining, next, by rw [Reader.mapError, failed], ends, lacks⟩

end

section
variable {condition : Prop} [Decidable condition] {yes no : Reader ε α}

theorem NeedsAll.ite (positive : NeedsAll fault yes) (negative : NeedsAll fault no) :
    NeedsAll fault (if condition then yes else no) := by
  split
  · exact positive
  · exact negative

theorem RefusesMore.ite {error : Nat → ε} (positive : RefusesMore error yes) (negative : RefusesMore error no) :
    RefusesMore error (if condition then yes else no) := by
  split
  · exact positive
  · exact negative

end

theorem NeedsAll.unless {condition : Prop} [Decidable condition] {error : ε} {follow : Unit → Reader ε α}
    (needs : NeedsAll fault (follow ())) :
    NeedsAll fault (if condition then throw error >>= follow else follow ()) :=
  .ite ((needsAll_throw error).bind (reads_throw error) fun _ => needs) needs

theorem needsAll_get_bind {follow : Cursor → Reader ε α} (same : ∀ place rest, follow ⟨place.offset, rest⟩ = follow place)
    (needs : ∀ place, NeedsAll fault (follow place)) : NeedsAll fault (do follow (← get)) := by
  intro offset front back value place cut done
  apply needs ⟨offset, front⟩ offset front back value place cut
  rw [← same ⟨offset, front⟩ (front ++ back)]
  exact done

theorem needsAll_byte : NeedsAll id byte := by
  intro offset front back value place cut done
  cases front with
  | nil => exact ⟨1, offset, 0, _, rfl, by simp, Nat.one_pos⟩
  | cons first rest =>
    simp only [byte, List.cons_append, EStateM.Result.ok.injEq, Cursor.mk.injEq, List.append_eq_nil_iff] at done
    exact absurd done.2.2.2 cut

theorem needsAll_block (count : Nat) : NeedsAll id (block count) := by
  intro offset front back value place cut done
  have positive := List.length_pos_iff.mpr cut
  simp only [block] at done
  split at done
  · rename_i enough
    simp only [EStateM.Result.ok.injEq, Cursor.mk.injEq, List.drop_eq_nil_iff, List.length_append] at done
    simp only [List.length_take, List.length_append] at enough
    have lacks : front.length < count := by omega
    have few : (front.take count).length ≠ count := by
      simp only [List.length_take]
      omega
    exact ⟨count, offset, front.length, ⟨offset, front⟩, by simp only [block, dif_neg few, id], rfl, lacks⟩
  · cases done

theorem needsAll_bytes (count : Nat) : NeedsAll id (bytes count) :=
  (needsAll_block count).map (reads_block count) Subtype.val

theorem needsAll_littleEndian (width : Nat) : NeedsAll id (littleEndian width) :=
  (needsAll_bytes width).map (reads_bytes width) LittleEndian.decode

theorem needsAll_groups (first more : Nat) (leading : Bool) : NeedsAll id (groups first more leading) := by
  induction more generalizing leading with
  | zero => exact needsAll_byte.bind reads_byte fun _ => .ite (needsAll_pure 1) (needsAll_throw _)
  | succ more ih =>
    exact needsAll_byte.bind reads_byte fun group =>
      .ite (.ite (needsAll_throw _) (needsAll_pure _)) ((ih false).map (reads_groups first more false) _)

theorem needsAll_uleb64 : NeedsAll id uleb64 := by
  apply needsAll_get_bind fun _ _ => rfl
  intro place
  exact needsAll_groups place.offset 9 true

theorem needsAll_uleb32 : NeedsAll id uleb32 := by
  apply needsAll_get_bind fun _ _ => rfl
  intro place
  exact needsAll_uleb64.bind reads_uleb64 fun number => .ite (needsAll_pure number) (needsAll_throw _)

/-- The last step of a reader that refuses to leave anything unread takes no bytes, so there is nothing to cut off. -/
theorem needsAll_return (result : α) (error : Nat → ε) :
    NeedsAll fault (do
      let remaining := (← get).rest.length
      if remaining ≠ 0 then throw (error remaining)
      return result : Reader ε α) := by
  intro offset front back value place cut done
  obtain ⟨⟨_, none⟩, _⟩ := (exhausts_return result error _ value _).mp done
  exact absurd (List.append_eq_nil_iff.mp none).2 cut

theorem refusesMore_return (result : α) (error : Nat → ε) :
    RefusesMore error (do
      let remaining := (← get).rest.length
      if remaining ≠ 0 then throw (error remaining)
      return result : Reader ε α) := by
  intro offset bytes more value place beyond done
  obtain ⟨⟨_, none⟩, _⟩ := (exhausts_return result error _ value _).mp done
  simp only at none
  subst none
  cases more with
  | nil => exact absurd rfl beyond
  | cons first rest => exact ⟨_, rfl⟩

end MoveBytecode.Reader
