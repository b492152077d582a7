import MoveBytecode.Proofs.Bytes
import MoveBytecode.Proofs.Reader

/-! The forms of the readers for bytes, numbers and rows of entries. A number is read from the one form in which it is
written, so what was read is written again as it was. -/

set_option autoImplicit false

namespace MoveBytecode

namespace Uleb128

theorem encode_of_lt {n : Nat} (small : n < 128) : encode n = [UInt8.ofNat n] := by
  rw [encode_eq, if_pos small]

theorem encode_of_le {n : Nat} (large : 128 ≤ n) : encode n = UInt8.ofNat (n % 128 + 128) :: encode (n / 128) := by
  rw [encode_eq, if_neg (by omega)]

theorem encode_last {group : UInt8} (small : group.toNat < 128) : encode group.toNat = [group] := by
  rw [encode_of_lt small, UInt8.ofNat_toNat]

theorem encode_group {group : UInt8} {rest : Nat} (large : 128 ≤ group.toNat) (positive : rest ≠ 0) :
    encode (group.toNat - 128 + 128 * rest) = group :: encode rest := by
  have size := group.toNat_lt
  have beyond : 128 ≤ group.toNat - 128 + 128 * rest := by omega
  have low : (group.toNat - 128 + 128 * rest) % 128 + 128 = group.toNat := by omega
  have high : (group.toNat - 128 + 128 * rest) / 128 = rest := by omega
  rw [encode_of_le beyond, low, high, UInt8.ofNat_toNat]

theorem group_cases (value : Nat) :
    (∃ group : UInt8, group.toNat < 128 ∧ value = group.toNat) ∨ ∃ (group : UInt8) (rest : Nat),
      128 ≤ group.toNat ∧ rest ≠ 0 ∧ rest < value ∧ value = group.toNat - 128 + 128 * rest := by
  by_cases small : value < 128
  · have same : (UInt8.ofNat value).toNat = value := by
      rw [UInt8.toNat_ofNat']
      omega
    exact .inl ⟨UInt8.ofNat value, by omega, same.symm⟩
  · have same : (UInt8.ofNat (value % 128 + 128)).toNat = value % 128 + 128 := by
      rw [UInt8.toNat_ofNat']
      omega
    exact .inr ⟨UInt8.ofNat (value % 128 + 128), value / 128, by omega, by omega, by omega, by omega⟩

@[simp] theorem encode_ne_nil (n : Nat) : encode n ≠ [] := by
  rw [encode_eq]
  split <;> exact List.cons_ne_nil _ _

@[simp] theorem lengthPrefixed_ne_nil (bytes : Bytes) : lengthPrefixed bytes ≠ [] := by
  simp [lengthPrefixed]

theorem length_le_lengthPrefixed (bytes : Bytes) : bytes.length ≤ (lengthPrefixed bytes).length := by
  simp [lengthPrefixed]

end Uleb128

namespace Reader

variable {ε α : Type}

theorem reads_byte : Reads byte (Form.written (fun _ => True) fun value => [value]) := by
  rintro ⟨offset, rest⟩ value ⟨offset', rest'⟩
  cases rest with
  | nil => simp [byte, Form.written]
  | cons first rest =>
    simp only [byte, Form.written, EStateM.Result.ok.injEq, Cursor.mk.injEq, true_and, exists_eq_left,
      List.singleton_append, List.cons.injEq, List.length_singleton]
    grind

theorem reads_block (count : Nat) : Reads (block count) (Form.written (fun _ => True) fun value => value.val) := by
  rintro ⟨offset, rest⟩ ⟨value, enough⟩ ⟨offset', rest'⟩
  simp only [block, Form.written, true_and, exists_eq_left]
  constructor
  · intro read
    split at read
    · cases read
      exact ⟨(List.take_append_drop count rest).symm, by rw [enough]⟩
    · cases read
  · intro stands
    obtain ⟨rfl, rfl⟩ := stands
    have taken : (value ++ rest').take count = value := by rw [← enough, List.take_left]
    have left : (value ++ rest').drop count = rest' := by rw [← enough, List.drop_left]
    simp [taken, left, enough]

theorem reads_bytes (count : Nat) : Reads (bytes count) (Form.written (fun value => value.length = count) id) := by
  apply ((reads_block count).map Subtype.val).congr
  intro value taken
  constructor
  · intro parts
    obtain ⟨⟨block, enough⟩, ⟨-, rfl⟩, rfl⟩ := parts
    exact ⟨enough, rfl⟩
  · intro stands
    obtain ⟨enough, rfl⟩ := stands
    exact ⟨⟨taken, enough⟩, ⟨trivial, rfl⟩, rfl⟩

theorem reads_littleEndian (width : Nat) :
    Reads (littleEndian width) (Form.written (fun value => value < 256 ^ width) (LittleEndian.encode width)) := by
  apply ((reads_bytes width).map LittleEndian.decode).congr
  intro value taken
  constructor
  · intro stands
    obtain ⟨_, ⟨rfl, rfl⟩, rfl⟩ := stands
    exact ⟨LittleEndian.decode_lt taken, (LittleEndian.encode_decode taken).symm⟩
  · intro stands
    obtain ⟨fits, rfl⟩ := stands
    exact ⟨_, ⟨LittleEndian.length_encode width value, rfl⟩, (LittleEndian.decode_encode fits).symm⟩

/-- The groups from here on. One that is not the first cannot be zero, and neither can a tenth. -/
theorem reads_groups (first more : Nat) (leading : Bool) :
    Reads (groups first more leading) (Form.written
      (fun value => value < 2 * 128 ^ more ∧ (leading = false ∨ more = 0 → value ≠ 0)) Uleb128.encode) := by
  induction more generalizing leading with
  | zero =>
    apply (reads_byte.bind fun group => Reads.ite (fun _ => reads_pure 1) fun _ => reads_throw _).congr
    intro value taken
    -- The tenth group has one bit left, and a zero there would have no place in the number.
    constructor
    · intro parts
      obtain ⟨group, _, _, rfl, ⟨-, rfl⟩, ⟨rfl, rfl, rfl⟩ | ⟨-, ⟨⟩⟩⟩ := parts
      exact ⟨⟨by omega, fun _ => Nat.one_ne_zero⟩, rfl⟩
    · intro stands
      obtain ⟨⟨small, positive⟩, rfl⟩ := stands
      have one : value = 1 := by
        have := positive (.inr rfl)
        omega
      subst one
      exact ⟨1, [1], [], rfl, ⟨trivial, rfl⟩, .inl ⟨rfl, rfl, rfl⟩⟩
  | succ more ih =>
    apply (reads_byte.bind fun group => Reads.ite
      (fun _ => Reads.ite (fun _ => reads_throw _) fun _ => reads_pure group.toNat)
      fun _ => (ih false).map fun rest => group.toNat - 128 + 128 * rest).congr
    intro value taken
    have power : 128 ^ (more + 1) = 128 * 128 ^ more := Nat.pow_succ'
    have positive : 0 < 128 ^ more := Nat.pow_pos (by decide)
    constructor
    · intro parts
      obtain ⟨group, _, _, rfl, ⟨-, rfl⟩, outcome⟩ := parts
      -- A zero group ends a number only where no group comes before it.
      rcases outcome with ⟨small, ⟨-, ⟨⟩⟩ | ⟨shown, rfl, rfl⟩⟩ | ⟨large, rest, ⟨⟨bound, follows⟩, rfl⟩, rfl⟩
      · refine ⟨⟨by omega, ?_⟩, (Uleb128.encode_last small).symm⟩
        rintro (later | ⟨⟨⟩⟩) zero
        exact shown ⟨UInt8.toNat_inj.mp zero, later⟩
      · have size := group.toNat_lt
        have nonzero := follows (.inl rfl)
        exact ⟨⟨by omega, fun _ => by omega⟩, (Uleb128.encode_group (by omega) nonzero).symm⟩
    · intro stands
      obtain ⟨⟨bound, nonzero⟩, rfl⟩ := stands
      rcases Uleb128.group_cases value with ⟨group, small, rfl⟩ | ⟨group, rest, large, positive, -, rfl⟩
      · refine ⟨group, _, [], (Uleb128.encode_last small).trans (List.append_nil _).symm, ⟨trivial, rfl⟩,
          .inl ⟨small, .inr ⟨?_, rfl, rfl⟩⟩⟩
        rintro ⟨zero, later⟩
        exact nonzero (.inl later) (UInt8.toNat_inj.mpr zero)
      · exact ⟨group, [group], _, Uleb128.encode_group large positive, ⟨trivial, rfl⟩,
          .inr ⟨by omega, rest, ⟨⟨by omega, fun _ => positive⟩, rfl⟩, rfl⟩⟩

theorem reads_uleb64 : Reads uleb64 (Form.written (fun value => value < 2 ^ 64) Uleb128.encode) := by
  apply reads_get_bind
  intro place
  apply (reads_groups place.offset 9 true).congr
  intro value taken
  simp only [Form.written]
  constructor
  · intro stands
    obtain ⟨⟨bound, -⟩, rfl⟩ := stands
    exact ⟨by omega, rfl⟩
  · intro stands
    obtain ⟨bound, rfl⟩ := stands
    exact ⟨⟨by omega, by rintro (⟨⟨⟩⟩ | ⟨⟨⟩⟩)⟩, rfl⟩

theorem reads_uleb32 : Reads uleb32 (Form.written (fun value => value < 2 ^ 32) Uleb128.encode) := by
  apply reads_get_bind
  intro place
  apply (reads_uleb64.bind fun number => Reads.ite (fun _ => reads_pure number) fun _ => reads_throw _).congr
  intro value taken
  constructor
  · intro parts
    obtain ⟨number, _, _, rfl, ⟨-, rfl⟩, ⟨small, rfl, rfl⟩ | ⟨-, ⟨⟩⟩⟩ := parts
    exact ⟨small, List.append_nil _⟩
  · intro stands
    obtain ⟨small, rfl⟩ := stands
    exact ⟨value, _, [], (List.append_nil _).symm, ⟨by omega, rfl⟩, .inl ⟨small, rfl, rfl⟩⟩

theorem reads_lengthPrefixed :
    Reads lengthPrefixed (Form.written (fun value => value.length < 2 ^ 32) Uleb128.lengthPrefixed) := by
  apply (reads_uleb32.bind fun count => reads_bytes count).congr
  intro value taken
  constructor
  · intro parts
    obtain ⟨count, _, _, rfl, ⟨small, rfl⟩, rfl, rfl⟩ := parts
    exact ⟨small, rfl⟩
  · intro stands
    obtain ⟨small, rfl⟩ := stands
    exact ⟨value.length, _, _, rfl, ⟨small, rfl⟩, rfl, rfl⟩

theorem reads_many {item : Reader ε α} {form : Form α} (reads : Reads item form) (count : Nat) :
    Reads (many item count) fun values taken => values.length = count ∧ form.sequence values taken := by
  induction count with
  | zero =>
    apply (reads_pure []).congr
    intro values taken
    constructor
    · intro stands
      obtain ⟨rfl, rfl⟩ := stands
      exact ⟨rfl, rfl⟩
    · intro stands
      obtain ⟨none, stand⟩ := stands
      cases List.eq_nil_of_length_eq_zero none
      exact ⟨rfl, stand⟩
  | succ count ih =>
    -- The values of one more are the first and those of the rest, and their forms are joined the same way.
    apply (reads.bind fun first => ih.map fun rest => first :: rest).congr
    intro values taken
    constructor
    · intro parts
      obtain ⟨first, front, back, rfl, head, rest, ⟨rfl, tail⟩, rfl⟩ := parts
      exact ⟨rfl, front, back, rfl, head, tail⟩
    · intro stands
      obtain ⟨enough, stand⟩ := stands
      cases values with
      | nil => cases enough
      | cons first rest =>
        obtain ⟨front, back, rfl, head, tail⟩ := stand
        exact ⟨first, front, back, rfl, head, rest, ⟨Nat.succ.inj enough, tail⟩, rfl⟩

section
variable {entry : Nat → Reader ε α} {form : Form α} {limit index offset : Nat} {cursor next : Cursor} {values : List α}
  {rest : Bytes}

/-- An entry takes at least one byte, so a limit that covers a text covers one less of what it leaves. -/
theorem length_behind_le (nonempty : ∀ value, ¬form value []) {first : α} {front back : Bytes} (head : form first front)
    (enough : (front ++ back).length ≤ limit + 1) : back.length ≤ limit := by
  have nonzero : front ≠ [] := fun none => nonempty first (none ▸ head)
  have positive := List.length_pos_iff.mpr nonzero
  rw [List.length_append] at enough
  omega

theorem entries_nil_eq_ok (nonempty : ∀ value, ¬form value []) :
    entries entry limit index ⟨offset, []⟩ = .ok values next ↔ form.sequence values [] ∧ next = ⟨offset, []⟩ := by
  have done : entries entry limit index ⟨offset, []⟩ = .ok [] ⟨offset, []⟩ := by cases limit <;> rfl
  rw [Form.sequence_nil nonempty, done]
  simp [eq_comm]

theorem entries_cons {byte : UInt8} : entries entry (limit + 1) index ⟨offset, byte :: rest⟩ =
    (entry index >>= fun first => entries entry limit (index + 1) >>= fun more => pure (first :: more))
      ⟨offset, byte :: rest⟩ := rfl

/-- Reading on to the end, where no entry is without bytes and the limit is not below the number of bytes. -/
theorem entries_eq_ok (reads : ∀ index, Reads (entry index) form) (nonempty : ∀ value, ¬form value [])
    (enough : cursor.rest.length ≤ limit) :
    entries entry limit index cursor = .ok values next ↔
      form.sequence values cursor.rest ∧ next = ⟨cursor.offset + cursor.rest.length, []⟩ := by
  induction limit generalizing index cursor values next with
  | zero =>
    obtain ⟨offset, rest⟩ := cursor
    cases List.eq_nil_of_length_eq_zero (Nat.le_zero.mp enough)
    exact entries_nil_eq_ok nonempty
  | succ limit ih =>
    obtain ⟨offset, rest⟩ := cursor
    cases rest with
    | nil => exact entries_nil_eq_ok nonempty
    | cons byte rest =>
      simp only [entries_cons, bind_eq_ok, reads index _ _ _]
      constructor
      · intro parts
        obtain ⟨first, ⟨_, back⟩, ⟨front, head, whole, rfl⟩, more, _, read, ⟨⟩⟩ := parts
        obtain ⟨tail, rfl⟩ := (ih (length_behind_le nonempty head (whole ▸ enough))).mp read
        refine ⟨⟨front, back, whole, head, tail⟩, ?_⟩
        rw [whole, List.length_append, Nat.add_assoc]
      · intro stands
        obtain ⟨stand, rfl⟩ := stands
        cases values with
        | nil => cases stand
        | cons first more =>
          obtain ⟨front, back, whole, head, tail⟩ := stand
          refine ⟨first, ⟨offset + front.length, back⟩, ⟨front, head, whole, rfl⟩, more, _,
            (ih (length_behind_le nonempty head (whole ▸ enough))).mpr ⟨tail, rfl⟩, ?_⟩
          rw [whole, List.length_append, ← Nat.add_assoc]
          rfl

end

theorem exhausts_toEnd {entry : Nat → Reader ε α} {form : Form α} (reads : ∀ index, Reads (entry index) form)
    (nonempty : ∀ value, ¬form value []) : Exhausts (toEnd entry) form.sequence := by
  intro cursor values next
  exact entries_eq_ok reads nonempty (Nat.le_refl cursor.rest.length)

end Reader

end MoveBytecode
