import MoveBytecode.Proofs.Reader.Primitive
import MoveBytecode.Proofs.Tiling

/-! The frame of a module is read from the one form it is written in: a container has the bytes it was read from, and
every container whose parts agree with one another is read back from its own. -/

set_option autoImplicit false

namespace MoveBytecode

open Reader

namespace TableKind

theorem ofByte?_eq_some {byte : UInt8} {kind : TableKind} : ofByte? byte = some kind ↔ kind.byte = byte := by
  constructor
  · intro found
    unfold ofByte? at found
    simpa using List.find?_some found
  · intro same
    rw [← same, ofByte?_byte]

theorem length_lt_of_nodup {kinds : List TableKind} (distinct : kinds.Nodup) : kinds.length < 2 ^ 32 := by
  have bound := (List.subperm_of_subset distinct fun kind _ => mem_all kind).length_le
  exact Nat.lt_of_le_of_lt bound (by decide)

end TableKind

namespace Header

theorem versionOf_eq (word : Nat) : versionOf word = word % 2 ^ 24 := rfl

theorem word_eq (header : Header) : header.word = header.version + 2 ^ 24 * header.flavor.toNat := rfl

theorem word_lt (header : Header) : header.word < 2 ^ 32 := by
  have supported := header.supported
  have small := header.flavor.toNat_lt
  rw [word_eq]
  omega

@[simp] theorem versionOf_word (header : Header) : versionOf header.word = header.version := by
  have supported := header.supported
  rw [versionOf_eq, word_eq]
  omega

theorem flavor_word (header : Header) : header.word / 2 ^ 24 = header.flavor.toNat := by
  have supported := header.supported
  rw [word_eq]
  omega

theorem ofWord?_eq_some {word : Nat} {header : Header} (fits : word < 2 ^ 32) :
    ofWord? word = some header ↔ header.word = word := by
  constructor
  · intro found
    have flavor : (UInt8.ofNat (word / 2 ^ 24)).toNat = word / 2 ^ 24 := by
      rw [UInt8.toNat_ofNat']
      omega
    unfold ofWord? at found
    split at found
    · cases found
      simp only [word_eq, versionOf_eq, Nat.pow_eq, flavor]
      omega
    · cases found
  · intro same
    have version := same ▸ header.versionOf_word
    have flavor := same ▸ header.flavor_word
    have supported : 1 ≤ versionOf word ∧ versionOf word ≤ 7 := version ▸ header.supported
    rw [ofWord?, dif_pos supported]
    cases header
    simp_all

theorem exists_word {word : Nat} (fits : word < 2 ^ 32) (supported : 1 ≤ versionOf word ∧ versionOf word ≤ 7) :
    ∃ header : Header, header.word = word := by
  refine ⟨⟨versionOf word, UInt8.ofNat (word / 2 ^ 24), supported⟩, (ofWord?_eq_some fits).mp ?_⟩
  rw [ofWord?, dif_pos supported]
  rfl

end Header

namespace Entry

def encode (entry : Entry) : Bytes := entry.kind.byte :: Uleb128.encode entry.offset ++ Uleb128.encode entry.length

def Fits (entry : Entry) : Prop := entry.offset < 2 ^ 32 ∧ entry.length < 2 ^ 32

end Entry

namespace Container

def encode (container : Container) : Bytes :=
  magic ++ LittleEndian.encode 4 container.header.word ++ Uleb128.encode container.entries.length ++
    container.entries.flatMap Entry.encode ++ container.area ++ (container.selfHandle.map Uleb128.encode).getD []

structure WellFormed (container : Container) : Prop where
  distinct : (container.entries.map Entry.kind).Nodup
  fits : ∀ entry ∈ container.entries, entry.Fits
  tiled : areaLength container.entries = .ok container.area.length
  handle_present : container.selfHandle.isSome = container.header.hasSelfHandle
  handle_fits : ∀ handle ∈ container.selfHandle, handle < 2 ^ 32

theorem reads_readHeader :
    Reads readHeader (Form.written (fun _ => True) fun header => magic ++ LittleEndian.encode 4 header.word) := by
  apply (((reads_bytes 4).mapError DecodeError.read).bind fun found =>
    (((reads_littleEndian 4).mapError DecodeError.read).bind fun word => reads_ofOption _ _).unless).congr
  intro header taken
  constructor
  · intro parts
    obtain ⟨found, _, _, whole, ⟨_, front⟩, right, word, _, _, split, ⟨small, middle⟩, known, back⟩ := parts
    refine ⟨trivial, ?_⟩
    rw [whole, front, split, middle, back, List.append_nil, not_not.mp right, ← (Header.ofWord?_eq_some small).mp known]
    rfl
  · intro stands
    exact ⟨magic, magic, _, stands.2, ⟨rfl, rfl⟩, not_not.mpr rfl, header.word, _, [], (List.append_nil _).symm,
      ⟨header.word_lt, rfl⟩, (Header.ofWord?_eq_some header.word_lt).mpr rfl, rfl⟩

theorem reads_readEntry (seen : List TableKind) :
    Reads (readEntry seen) (Form.written (fun entry => entry.kind ∉ seen ∧ entry.Fits) Entry.encode) := by
  apply ((reads_byte.mapError DecodeError.read).bind fun byte => (reads_ofOption _ _).bind fun kind =>
    ((reads_uleb32.mapError _).bind fun offset =>
      (reads_uleb32.mapError _).map (Entry.mk kind offset)).unless).congr
  intro entry taken
  constructor
  · intro parts
    obtain ⟨byte, _, _, whole, ⟨_, front⟩, kind, _, _, split, ⟨known, empty⟩, fresh, offset, _, _, split',
      ⟨small, middle⟩, length, ⟨small', back⟩, made⟩ := parts
    subst made
    refine ⟨⟨fresh, small, small'⟩, ?_⟩
    rw [whole, front, split, empty, split', middle, back, ← TableKind.ofByte?_eq_some.mp known]
    rfl
  · intro stands
    obtain ⟨⟨fresh, small, small'⟩, whole⟩ := stands
    exact ⟨entry.kind.byte, [entry.kind.byte], _, whole, ⟨trivial, rfl⟩, entry.kind, [], _, rfl,
      ⟨TableKind.ofByte?_byte entry.kind, rfl⟩, fresh, entry.offset, _, _, rfl, ⟨small, rfl⟩, entry.length,
      ⟨small', rfl⟩, rfl⟩

theorem reads_readEntries (count : Nat) (seen : List TableKind) :
    Reads (readEntries count seen) (Form.written (fun entries => entries.length = count ∧
      (entries.map Entry.kind).Nodup ∧ ∀ entry ∈ entries, entry.kind ∉ seen ∧ entry.Fits) fun entries =>
        entries.flatMap Entry.encode) := by
  induction count generalizing seen with
  | zero =>
    apply (reads_pure []).congr
    intro entries taken
    constructor
    · intro stands
      obtain ⟨empty, whole⟩ := stands
      subst empty
      exact ⟨⟨rfl, List.nodup_nil, by simp⟩, whole⟩
    · intro stands
      obtain ⟨⟨empty, _⟩, whole⟩ := stands
      cases List.eq_nil_of_length_eq_zero empty
      exact ⟨rfl, whole⟩
  | succ count ih =>
    apply ((reads_readEntry seen).bind fun entry => (ih (entry.kind :: seen)).map (List.cons entry)).congr
    intro entries taken
    constructor
    · intro parts
      -- The others were read with the kind of the first one among those seen.
      obtain ⟨entry, _, _, whole, ⟨head, front⟩, rest, ⟨⟨enough, distinct, others⟩, back⟩, made⟩ := parts
      subst made
      refine ⟨⟨by rw [List.length_cons, enough], ?_, ?_⟩, by rw [whole, front, back]; rfl⟩
      · refine List.nodup_cons.mpr ⟨fun member => ?_, distinct⟩
        obtain ⟨other, inside, same⟩ := List.mem_map.mp member
        exact (others other inside).1 (same ▸ List.mem_cons_self)
      · refine List.forall_mem_cons.mpr ⟨head, fun other inside => ?_⟩
        exact ⟨fun known => (others other inside).1 (.tail _ known), (others other inside).2⟩
    · intro stands
      obtain ⟨⟨enough, distinct, all⟩, whole⟩ := stands
      cases entries with
      | nil => cases enough
      | cons entry rest =>
        obtain ⟨head, others⟩ := List.forall_mem_cons.mp all
        obtain ⟨fresh, distinct⟩ := List.nodup_cons.mp distinct
        refine ⟨entry, _, _, whole, ⟨head, rfl⟩, rest, ⟨⟨Nat.succ.inj enough, distinct, ?_⟩, rfl⟩, rfl⟩
        intro other inside
        refine ⟨fun known => ?_, (others other inside).2⟩
        rcases List.mem_cons.mp known with same | known
        · exact fresh (List.mem_map.mpr ⟨other, inside, same⟩)
        · exact (others other inside).1 known

theorem reads_present : Reads (some <$> uleb32.mapError DecodeError.read) fun handle taken =>
    ∃ index, (index < 2 ^ 32 ∧ taken = Uleb128.encode index) ∧ handle = some index := by
  rw [map_eq_pure_bind]
  exact (reads_uleb32.mapError _).map some

theorem reads_handle (header : Header) :
    Reads (if header.hasSelfHandle then some <$> uleb32.mapError DecodeError.read else pure none)
      fun handle taken => handle.isSome = header.hasSelfHandle ∧ (∀ index ∈ handle, index < 2 ^ 32) ∧
        taken = (handle.map Uleb128.encode).getD [] := by
  apply (Reads.ite (fun _ => reads_present) fun _ => reads_pure none).congr
  intro handle taken
  cases header.hasSelfHandle <;> cases handle <;> simp [eq_comm]

theorem exhausts_tables (header : Header) (entries : List Entry) :
    Exhausts (do
      let length ← ofExcept id (areaLength entries)
      let area ← (Reader.bytes length).mapError DecodeError.read
      let selfHandle ← if header.hasSelfHandle then some <$> uleb32.mapError .read else pure none
      let remaining := (← get).rest.length
      if remaining ≠ 0 then throw (.gap (.afterModule remaining))
      return ⟨header, entries, area, selfHandle⟩ : Reader DecodeError Container) fun container taken =>
        container.header = header ∧ container.entries = entries ∧ areaLength entries = .ok container.area.length ∧
        container.selfHandle.isSome = header.hasSelfHandle ∧ (∀ index ∈ container.selfHandle, index < 2 ^ 32) ∧
        taken = container.area ++ (container.selfHandle.map Uleb128.encode).getD [] := by
  -- The form of each step, up to the last one, which lets nothing be left.
  apply ((reads_ofExcept id (areaLength entries)).bind_exhausts fun length =>
    ((reads_bytes length).mapError DecodeError.read).bind_exhausts fun area =>
    ((reads_handle header).bind_exhausts fun handle =>
      exhausts_return (⟨header, entries, area, handle⟩ : Container) fun count =>
        .gap (.afterModule count)).ite_bind).congr
  intro container taken
  constructor
  · intro parts
    obtain ⟨length, _, _, whole, ⟨tiled, empty⟩, area, _, _, split, ⟨enough, front⟩, handle, _, _, split',
      ⟨present, fits, middle⟩, made, back⟩ := parts
    subst made enough
    refine ⟨rfl, rfl, tiled, present, fits, ?_⟩
    rw [whole, empty, split, front, split', middle, back, List.append_nil]
    rfl
  · intro stands
    obtain ⟨sameHeader, sameEntries, tiled, present, fits, whole⟩ := stands
    subst sameHeader sameEntries
    exact ⟨container.area.length, [], _, rfl, ⟨tiled, rfl⟩, container.area, _, _, whole, ⟨rfl, rfl⟩,
      container.selfHandle, _, [], (List.append_nil _).symm, ⟨present, fits, rfl⟩, rfl, rfl⟩

/-- The bytes of a container are the one form in which it can be read. -/
theorem exhausts_read : Exhausts read (Form.written WellFormed encode) := by
  apply (reads_readHeader.bind_exhausts fun header => (reads_uleb32.mapError DecodeError.read).bind_exhausts
    fun count => (reads_readEntries count []).bind_exhausts (exhausts_tables header)).congr
  intro container taken
  constructor
  · intro parts
    obtain ⟨header, _, _, whole, ⟨_, first⟩, count, _, _, whole', ⟨_, second⟩, entries, _, _, whole'',
      ⟨⟨enough, distinct, fits⟩, third⟩, sameHeader, sameEntries, tiled, present, small, fourth⟩ := parts
    subst sameHeader sameEntries
    refine ⟨⟨distinct, fun entry member => (fits entry member).2, tiled, present, small⟩, ?_⟩
    rw [whole, first, whole', second, whole'', third, fourth, encode, ← enough]
    simp only [List.append_assoc]
  · intro stands
    obtain ⟨sound, whole⟩ := stands
    -- Kinds that differ are few, so their number can always be written.
    have count := TableKind.length_lt_of_nodup sound.distinct
    rw [List.length_map] at count
    have entries : container.entries.length = container.entries.length ∧ (container.entries.map Entry.kind).Nodup ∧
        ∀ entry ∈ container.entries, entry.kind ∉ ([] : List TableKind) ∧ entry.Fits :=
      ⟨rfl, sound.distinct, fun entry member => ⟨List.not_mem_nil, sound.fits entry member⟩⟩
    refine ⟨container.header, _, _, ?_, ⟨trivial, rfl⟩, container.entries.length, _, _, rfl, ⟨count, rfl⟩,
      container.entries, _, _, rfl, ⟨entries, rfl⟩, rfl, rfl, sound.tiled, sound.handle_present, sound.handle_fits, rfl⟩
    rw [whole, encode]
    simp only [List.append_assoc]

theorem ofBytes_eq_ok {bytes : Bytes} {container : Container} :
    ofBytes bytes = .ok container ↔ container.WellFormed ∧ bytes = container.encode :=
  value_eq_ok_of_exhausts exhausts_read

end Container

end MoveBytecode
