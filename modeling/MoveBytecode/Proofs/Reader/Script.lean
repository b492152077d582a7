import MoveBytecode.Proofs.Reader.Primitive

/-! Values of any kinds written one behind the other. Reading as many values of the same kinds finds those that were
written and stops where the writing did; no other bytes are read so. -/

set_option autoImplicit false

namespace MoveBytecode

open Reader

/-- A kind of value. How many plain bytes there are is not written with them. -/
inductive Shape where
  | byte
  | littleEndian (width : Nat)
  | uleb128
  | bytes (count : Nat)
  | lengthPrefixed
  deriving DecidableEq, Repr

namespace Shape

abbrev Value : Shape → Type
  | .byte => UInt8
  | .littleEndian _ | .uleb128 => Nat
  | .bytes _ | .lengthPrefixed => Bytes

def Fits : (shape : Shape) → shape.Value → Prop
  | .byte, _ => True
  | .littleEndian width, value => value < 256 ^ width
  | .uleb128, value => value < 2 ^ 64
  | .bytes count, value => value.length = count
  | .lengthPrefixed, value => value.length < 2 ^ 32

def write : (shape : Shape) → shape.Value → Bytes
  | .byte, value => [value]
  | .littleEndian width, value => LittleEndian.encode width value
  | .uleb128, value => Uleb128.encode value
  | .bytes _, value => value
  | .lengthPrefixed, value => Uleb128.lengthPrefixed value

def read : (shape : Shape) → Reader ReadError shape.Value
  | .byte => Reader.byte
  | .littleEndian width => Reader.littleEndian width
  | .uleb128 => uleb64
  | .bytes count => Reader.bytes count
  | .lengthPrefixed => Reader.lengthPrefixed

theorem reads_read (shape : Shape) : Reads shape.read (Form.written shape.Fits shape.write) := by
  cases shape with
  | byte => exact reads_byte
  | littleEndian width => exact reads_littleEndian width
  | uleb128 => exact reads_uleb64
  | bytes count => exact reads_bytes count
  | lengthPrefixed => exact reads_lengthPrefixed

end Shape

abbrev Datum := Σ shape : Shape, shape.Value

/-- One write, of a value that its kind can hold. -/
structure Write where
  datum : Datum
  fits : datum.1.Fits datum.2

namespace Write

def shape (write : Write) : Shape := write.datum.1

def bytes (write : Write) : Bytes := write.shape.write write.datum.2

/-- What is in the buffer after the writes, each of which adds its bytes. -/
def output (writes : List Write) : Bytes := writes.foldl (fun buffer write => buffer ++ write.bytes) []

theorem output_eq (writes : List Write) : output writes = writes.flatMap bytes := by
  have grown (buffer : Bytes) :
      writes.foldl (fun buffer write => buffer ++ write.bytes) buffer = buffer ++ writes.flatMap bytes := by
    induction writes generalizing buffer with
    | nil => exact (List.append_nil buffer).symm
    | cons write rest ih => rw [List.foldl_cons, ih, List.flatMap_cons, List.append_assoc]
  exact grown []

end Write

namespace Reader

def replay : List Shape → Reader ReadError (List Datum)
  | [] => return []
  | shape :: rest => do
    let value ← shape.read
    return ⟨shape, value⟩ :: (← replay rest)

theorem reads_replay (shapes : List Shape) : Reads (replay shapes) fun values taken => ∃ writes : List Write,
    writes.map Write.shape = shapes ∧ values = writes.map Write.datum ∧ taken = writes.flatMap Write.bytes := by
  induction shapes with
  | nil =>
    apply (reads_pure []).congr
    simp
  | cons shape rest ih =>
    apply (shape.reads_read.bind fun value => ih.map (List.cons ⟨shape, value⟩)).congr
    intro values taken
    -- What is read first is a write of its own, in front of those that the rest was read from.
    constructor
    · rintro ⟨value, _, _, rfl, ⟨fits, rfl⟩, _, ⟨writes, same, rfl, rfl⟩, rfl⟩
      exact ⟨⟨⟨shape, value⟩, fits⟩ :: writes, by rw [List.map_cons, same]; rfl, rfl, rfl⟩
    · rintro ⟨_ | ⟨⟨⟨_, value⟩, fits⟩, writes⟩, same, rfl, rfl⟩
      · cases same
      · obtain ⟨rfl, others⟩ := List.cons.inj same
        exact ⟨value, _, _, rfl, ⟨fits, rfl⟩, _, ⟨writes, others, rfl, rfl⟩, rfl⟩

/-- What any writes have put into the buffer is read again value by value, to the end, or up to whatever follows. -/
theorem replay_output (writes : List Write) :
    replay (writes.map Write.shape) (start (Write.output writes)) =
      .ok (writes.map Write.datum) ⟨(Write.output writes).length, []⟩ ∧
    ∀ more, replay (writes.map Write.shape) (start (Write.output writes ++ more)) =
      .ok (writes.map Write.datum) ⟨(Write.output writes).length, more⟩ := by
  have followed (more : Bytes) : replay (writes.map Write.shape) (start (Write.output writes ++ more)) =
      .ok (writes.map Write.datum) ⟨(Write.output writes).length, more⟩ := by
    rw [Write.output_eq, reads_replay]
    exact ⟨_, ⟨writes, rfl, rfl, rfl⟩, rfl, (Nat.zero_add _).symm⟩
  have alone := followed []
  rw [List.append_nil] at alone
  exact ⟨alone, followed⟩

end Reader

end MoveBytecode
