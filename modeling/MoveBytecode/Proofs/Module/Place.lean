import MoveBytecode.Proofs.Module.Delimited
import MoveBytecode.Proofs.Reader.Place

/-! Where the module reader says that a malformed number stands. The places of the frame are those of the module, but the
places in a table count from the start of the table, wherever it is in the module. -/

set_option autoImplicit false

namespace MoveBytecode

open Reader

def DecodeError.number? : DecodeError → Option Nat
  | .read cause => cause.number?
  | _ => none

namespace Container

theorem points_mapError {α : Type} {reader : Reader ReadError α} (points : Points ReadError.number? reader) :
    Points DecodeError.number? (reader.mapError DecodeError.read) := points.mapError fun _ _ kept => kept

theorem points_readHeader : Points DecodeError.number? readHeader :=
  (points_mapError (points_bytes 4)).bind ((reads_bytes 4).mapError _) fun _ =>
    .unless rfl <| (points_mapError (points_littleEndian 4)).bind ((reads_littleEndian 4).mapError _) fun _ =>
      points_ofOption rfl _

theorem points_readEntry (seen : List TableKind) : Points DecodeError.number? (readEntry seen) :=
  (points_mapError points_byte).bind (reads_byte.mapError _) fun _ =>
    (points_ofOption rfl _).bind (reads_ofOption _ _) fun kind =>
    .unless rfl <| (points_mapError points_uleb32).bind (reads_uleb32.mapError _) fun offset =>
      (points_mapError points_uleb32).map (Entry.mk kind offset)

theorem points_readEntries (count : Nat) (seen : List TableKind) :
    Points DecodeError.number? (readEntries count seen) := by
  induction count generalizing seen with
  | zero => exact points_pure []
  | succ count ih =>
    exact (points_readEntry seen).bind (reads_readEntry seen) fun entry =>
      (ih (entry.kind :: seen)).map (List.cons entry)

theorem number?_of_tiledEnd {reached : Nat} {entries : List Entry} {error : DecodeError}
    (failed : tiledEnd reached entries = .error error) : error.number? = none := by
  induction entries generalizing reached with
  | nil => cases failed
  | cons entry rest ih =>
    rw [tiledEnd] at failed
    split at failed
    · exact ih failed
    · cases failed
      rfl

theorem points_present : Points DecodeError.number? (some <$> uleb32.mapError DecodeError.read) := by
  rw [map_eq_pure_bind]
  exact (points_mapError points_uleb32).map some

theorem points_read : Points DecodeError.number? read :=
  points_readHeader.bind reads_readHeader fun header =>
  (points_mapError points_uleb32).bind (reads_uleb32.mapError _) fun count =>
  (points_readEntries count []).bind (reads_readEntries count []) fun entries =>
  (points_ofExcept fun _ => number?_of_tiledEnd).bind (reads_ofExcept id _) fun length =>
  (points_mapError (points_bytes length)).bind ((reads_bytes length).mapError _) fun area =>
    have last (handle : Option Nat) := points_return (Container.mk header entries area handle) trailing fun _ => rfl
    .ite (points_present.bind reads_present last) ((points_pure none).bind (reads_pure none) last)

def tableStart (container : Container) (entry : Entry) : Nat :=
  8 + Uleb128.size container.entries.length + (container.entries.flatMap Entry.encode).length + entry.offset

theorem encode_around_slice {container : Container} (sound : container.WellFormed) {entry : Entry}
    (member : entry ∈ container.entries) : ∃ before behind,
      container.encode = before ++ container.slice entry ++ behind ∧ before.length = container.tableStart entry := by
  have inside := finish_le_of_areaLength sound.tiled member
  have short : entry.offset ≤ container.area.length := Nat.le_of_add_right_le inside
  refine ⟨magic ++ LittleEndian.encode 4 container.header.word ++ Uleb128.encode container.entries.length ++
      container.entries.flatMap Entry.encode ++ container.area.take entry.offset,
    (container.area.drop entry.offset).drop entry.length ++ (container.selfHandle.map Uleb128.encode).getD [], ?_, ?_⟩
  · have area : container.area = container.area.take entry.offset ++ (container.slice entry ++
        (container.area.drop entry.offset).drop entry.length) := by
      rw [slice, List.take_append_drop, List.take_append_drop]
    rw [encode]
    nth_rewrite 1 [area]
    simp only [List.append_assoc]
  · simp only [List.length_append, List.length_take, Nat.min_eq_left short, LittleEndian.length_encode,
      Uleb128.length_encode]
    rfl

end Container

namespace Module

theorem points_overrun {α : Type} {reader : Reader ReadError α} (points : Points ReadError.number? reader) (gap : Gap) :
    Points DecodeError.number? (reader.mapError (overrun gap)) := points.mapError fun error _ complains => by
  cases error with
  | outOfBounds => cases complains
  | malformedUleb128 => exact complains

theorem points_readIdentifier (index : Nat) : Points DecodeError.number? (readIdentifier index) :=
  (points_overrun points_lengthPrefixed _).bind (reads_lengthPrefixed.mapError _) fun _ => points_ofOption rfl _

theorem points_readConstant (index : Nat) : Points DecodeError.number? (readConstant index) := by
  refine Points.bind (points_of_fails ((fails_any Ty.read).mapError _) ?_) (Ty.reads_read.mapError _) fun ty => ?_
  · rintro _ _ ⟨cause, _, rfl⟩
    cases cause <;> rfl
  · exact (points_overrun points_lengthPrefixed _).bind (reads_lengthPrefixed.mapError _) fun payload =>
      (points_ofExcept fun _ _ => rfl).map (Constant.mk ty)

/-- Only the tables of names and of constants hold numbers that are read, and a place in them counts from their start. -/
theorem malformedAt_of_addTable {kind : TableKind} {module : Module} {table : Bytes} {place : Nat}
    (failed : module.addTable kind table = .error (.read (.malformedUleb128 place))) :
    (kind = .identifiers ∨ kind = .constantPool) ∧ MalformedAt table place := by
  rcases addTable_eq_error.mp failed with ⟨isNames, failed⟩ | ⟨_, failed⟩ | ⟨isConstants, failed⟩
  · exact ⟨.inl isNames, (points_toEnd points_readIdentifier reads_readIdentifier).value failed rfl⟩
  · unfold decodeAddresses at failed
    split at failed <;> cases failed
  · exact ⟨.inr isConstants, (points_toEnd points_readConstant reads_readConstant).value failed rfl⟩

/-- A malformed number outside of the tables stands where the error says. One in a table is as far behind the start of
that table, so that the error gives its place in the module only if the start of the table is added. -/
theorem decode_malformed {bytes : Bytes} {place : Nat}
    (failed : decode bytes = .error (.read (.malformedUleb128 place))) :
    (∀ error, Container.ofBytes bytes = .error error → MalformedAt bytes place) ∧
    ∀ container, Container.ofBytes bytes = .ok container → ∃ entry ∈ container.entries,
      (entry.kind = .identifiers ∨ entry.kind = .constantPool) ∧ MalformedAt (container.slice entry) place ∧
      MalformedAt bytes (container.tableStart entry + place) := by
  rcases Steps.bind_eq_error.mp failed with unframed | ⟨container, framed, failed⟩
  · rw [unframed]
    exact ⟨fun _ _ => Container.points_read.value unframed rfl, nofun⟩
  · rw [framed]
    refine ⟨nofun, ?_⟩
    rintro _ ⟨⟩
    obtain ⟨entry, member, state, failed⟩ := Steps.exists_of_foldlM_eq_error failed
    obtain ⟨kind, malformed⟩ := malformedAt_of_addTable failed
    obtain ⟨sound, rfl⟩ := Container.ofBytes_eq_ok.mp framed
    -- What is malformed in the table is so in the module, wherever the table was cut out.
    obtain ⟨before, behind, whole, start⟩ := Container.encode_around_slice sound member
    refine ⟨entry, member, kind, malformed, ?_⟩
    rw [whole, ← start]
    exact malformed.within before behind

def paddedBytes : Bytes :=
  [0xA1, 0x1C, 0xEB, 0x0B, 6, 0, 0, 0, 2, 0x01, 0, 2, 0x07, 2, 4, 0, 0, 1, 0x61, 0x80, 0, 0]

theorem decode_malformed_padded : decode paddedBytes = .error (.read (.malformedUleb128 2)) ∧
    MalformedAt [1, 0x61, 0x80, 0] 2 ∧ MalformedAt paddedBytes 19 := by
  have failed : decode paddedBytes = .error (.read (.malformedUleb128 2)) := by decide +kernel
  have framed : Container.ofBytes paddedBytes = .ok ⟨⟨6, 0, by decide⟩,
    [⟨.moduleHandles, 0, 2⟩, ⟨.identifiers, 2, 4⟩], [0, 0, 1, 0x61, 0x80, 0], some 0⟩ := by decide +kernel
  obtain ⟨entry, member, kind, inTable, inModule⟩ := (decode_malformed failed).2 _ framed
  rcases List.mem_pair.mp member with rfl | rfl
  · rcases kind with ⟨⟨⟩⟩ | ⟨⟨⟩⟩
  · exact ⟨failed, inTable, inModule⟩

theorem decode_malformed_elsewhere : decode paddedBytes = .error (.read (.malformedUleb128 2)) ∧
    uleb64 (startAt paddedBytes 2) = .ok 1515 (startAt paddedBytes 4) ∧
    uleb32 (startAt paddedBytes 2) = .ok 1515 (startAt paddedBytes 4) := by
  have read : uleb64 (startAt paddedBytes 2) = .ok 1515 (startAt paddedBytes 4) :=
    uleb64_eq_ok.mpr ⟨by decide, by decide +kernel, by decide +kernel⟩
  exact ⟨by decide +kernel, read, uleb32_eq_ok.mpr ⟨by decide, read⟩⟩

end Module

end MoveBytecode
