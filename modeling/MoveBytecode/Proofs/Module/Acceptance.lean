import MoveBytecode.Proofs.Grammar

/-! The module reader accepts the grammar of modules. A container is read where its sections are as the grammar has
them, and a module is read from it where the grammar describes every one of its tables. -/

set_option autoImplicit false

namespace MoveBytecode

open Grammar

namespace Module

theorem exists_decodeIdentifiers {table : Bytes} :
    (∃ names, decodeIdentifiers table = .ok names) ↔ Row Identifier table := by
  simp only [decodeIdentifiers_eq_ok, Form.exists_written, Row, identifier_iff]

theorem exists_decodeConstants {table : Bytes} :
    (∃ constants, decodeConstants table = .ok constants) ↔ Row Grammar.Constant table := by
  simp only [decodeConstants_eq_ok, Form.exists_written, Row, constant_iff]

theorem exists_decodeAddresses {table : Bytes} :
    (∃ addresses, decodeAddresses table = .ok addresses) ↔ table.length % 32 = 0 := by
  simp only [decodeAddresses_eq_ok, addresses_iff]

/-- A part can be read where the grammar describes its table, if that is listed, and the reader keeps to the grammar. -/
theorem exists_partRead {α : Type} {kind : TableKind} {decode : Bytes → Except DecodeError α} {entries : List Entry}
    {slice : Entry → Bytes} {old : α} (distinct : (entries.map Entry.kind).Nodup)
    (tables : ∀ entry ∈ entries, Table entry.kind (slice entry))
    (readable : ∀ table, Table kind table → ∃ part, decode table = .ok part) :
    ∃ new, PartRead kind decode entries slice old new := by
  by_cases listed : kind ∈ entries.map Entry.kind
  · obtain ⟨entry, inside, same⟩ := List.mem_map.mp listed
    obtain ⟨part, read⟩ := readable (slice entry) (same ▸ tables entry inside)
    refine ⟨part, fun other member same' => ?_, fun absent => absurd listed absent⟩
    rw [List.inj_on_of_nodup_map distinct member inside (same'.trans same.symm), read]
  · exact ⟨old, (partRead_unlisted listed).mpr rfl⟩

theorem table_of_raw {kind : TableKind} (raw : kind.isParsed = false) (table : Bytes) : Table kind table := by
  cases kind <;> trivial

theorem exists_ofContainer {container : Container} (distinct : (container.entries.map Entry.kind).Nodup) :
    (∃ module, ofContainer container = .ok module) ↔
      ∀ entry ∈ container.entries, Table entry.kind (container.slice entry) := by
  constructor
  · -- Each parsed table was read by its own reader; the others may hold anything.
    intro decoded entry member
    obtain ⟨module, filled⟩ := decoded
    have read := (ofContainer_eq_ok distinct).mp filled
    by_cases parsed : entry.kind.isParsed = true
    · rcases isParsed_iff.mp parsed with isNames | isAddresses | isConstants
      · rw [isNames]
        exact exists_decodeIdentifiers.mp ⟨_, read.identifiers.listed entry member isNames⟩
      · rw [isAddresses]
        exact exists_decodeAddresses.mp ⟨_, read.addresses.listed entry member isAddresses⟩
      · rw [isConstants]
        exact exists_decodeConstants.mp ⟨_, read.constants.listed entry member isConstants⟩
    · exact table_of_raw (Bool.eq_false_iff.mpr parsed) _
  · intro tables
    obtain ⟨names, hasNames⟩ : ∃ names, PartRead .identifiers decodeIdentifiers container.entries container.slice []
        names := exists_partRead distinct tables (fun table => exists_decodeIdentifiers.mpr)
    obtain ⟨addresses, hasAddresses⟩ : ∃ addresses, PartRead .addressIdentifiers decodeAddresses container.entries
        container.slice [] addresses := exists_partRead distinct tables (fun table => exists_decodeAddresses.mpr)
    obtain ⟨constants, hasConstants⟩ : ∃ constants, PartRead .constantPool decodeConstants container.entries
        container.slice [] constants := exists_partRead distinct tables (fun table => exists_decodeConstants.mpr)
    refine ⟨{ unread container with
      identifiers := names
      addresses := addresses
      constants := constants
      rawTables := (container.entries.filter fun entry => !entry.kind.isParsed).map fun entry =>
        (entry.kind, container.slice entry) }, (ofContainer_eq_ok distinct).mpr ?_⟩
    exact ⟨rfl, hasNames, hasAddresses, hasConstants, rfl⟩

end Module

namespace Container

def sections (container : Container) : Sections where
  word := LittleEndian.encode 4 container.header.word
  count := Uleb128.encode container.entries.length
  directory := container.entries.flatMap Entry.encode
  area := container.area
  trailer := (container.selfHandle.map Uleb128.encode).getD []

theorem version_sections (container : Container) : container.sections.version = container.header.version := by
  have fits : container.header.word < 256 ^ 4 := container.header.word_lt
  rw [Sections.version, sections, LittleEndian.decode_encode fits]
  exact container.header.versionOf_word

theorem sequence_listing (entries : List Entry) (bytes : Bytes) :
    Form.sequence Listing entries bytes ↔ (∀ entry ∈ entries, entry.Fits) ∧ bytes = entries.flatMap Entry.encode := by
  have same : Listing = Form.written Entry.Fits Entry.encode := by
    funext entry bytes
    exact propext listing_iff
  rw [same, Form.sequence_written]

theorem frame_sections {container : Container} (sound : container.WellFormed) :
    container.sections.Frame container.entries where
  word := LittleEndian.length_encode _ _
  version := by
    rw [version_sections]
    exact container.header.supported
  count := by
    have count := TableKind.length_lt_of_nodup sound.distinct
    rw [List.length_map] at count
    exact number32_iff.mpr ⟨count, rfl⟩
  directory := (sequence_listing _ _).mpr ⟨sound.fits, rfl⟩
  distinct := sound.distinct
  area := by
    have total := tiledEnd_eq_sum sound.tiled
    rw [Nat.zero_add, ((byOffset_perm container.entries).map Entry.length).sum_nat] at total
    exact total
  tiles := (areaLength_eq_ok sound.distinct).mp sound.tiled
  trailer := by
    -- There is a handle where the version is one that has it.
    have present := sound.handle_present
    have fits := sound.handle_fits
    rw [version_sections]
    unfold Header.hasSelfHandle at present
    cases handle : container.selfHandle with
    | none =>
      rw [handle] at present
      have older : ¬5 ≤ container.header.version := by simpa using present
      rw [if_neg older, sections, handle]
      rfl
    | some index =>
      rw [handle] at present fits
      have newer : 5 ≤ container.header.version := by simpa using present
      rw [if_pos newer, sections, handle]
      exact ⟨index, number32_iff.mpr ⟨fits index rfl, rfl⟩⟩

theorem describe_sections {container : Container} (sound : container.WellFormed)
    (tables : ∀ entry ∈ container.entries, Table entry.kind (container.slice entry)) :
    container.sections.Describe container.entries :=
  Sections.describe_iff.mpr ⟨frame_sections sound, tables⟩

theorem exists_of_frame {sections : Sections} {entries : List Entry} (framed : sections.Frame entries) :
    ∃ container : Container, container.WellFormed ∧ container.entries = entries ∧ container.sections = sections := by
  have fits : LittleEndian.decode sections.word < 2 ^ 32 := by
    have small := LittleEndian.decode_lt sections.word
    rwa [framed.word] at small
  -- The word holds a supported version, so it is the word of a header.
  obtain ⟨header, same⟩ := Header.exists_word fits framed.version
  have word : LittleEndian.encode 4 header.word = sections.word := by
    rw [same, ← framed.word, LittleEndian.encode_decode]
  have version : header.version = sections.version := by
    rw [← header.versionOf_word, same]
    rfl
  have trailer : ∃ handle : Option Nat, handle.isSome = header.hasSelfHandle ∧ (∀ index ∈ handle, index < 2 ^ 32) ∧
      (handle.map Uleb128.encode).getD [] = sections.trailer := by
    have trailer := framed.trailer
    rw [← version] at trailer
    unfold Header.hasSelfHandle
    by_cases newer : 5 ≤ header.version
    · rw [if_pos newer] at trailer
      obtain ⟨index, stands⟩ := trailer
      obtain ⟨small, whole⟩ := number32_iff.mp stands
      exact ⟨some index, by simp [newer], by simpa using small, whole.symm⟩
    · rw [if_neg newer] at trailer
      exact ⟨none, by simp [newer], by simp, trailer.symm⟩
  obtain ⟨handle, present, small, trailer⟩ := trailer
  obtain ⟨listed, directory⟩ := (sequence_listing _ _).mp framed.directory
  have count := (number32_iff.mp framed.count).2
  have tiled := (areaLength_eq_ok framed.distinct).mpr framed.tiles
  refine ⟨⟨header, entries, sections.area, handle⟩, ⟨framed.distinct, listed, tiled, present, small⟩, rfl, ?_⟩
  rw [Container.sections, word, trailer, ← directory, ← count]

theorem exists_sections {sections : Sections} {entries : List Entry} (described : sections.Describe entries) :
    ∃ container : Container, container.WellFormed ∧ container.entries = entries ∧ container.sections = sections :=
  exists_of_frame (Sections.describe_iff.mp described).1

end Container

namespace Module

/-- Bytes can be read as a module exactly when they are one by the grammar. -/
theorem exists_decode_iff_isModule (bytes : Bytes) : (∃ module, decode bytes = .ok module) ↔ IsModule bytes := by
  constructor
  · intro decoded
    obtain ⟨module, read⟩ := decoded
    obtain ⟨container, framed, filled⟩ := Steps.bind_eq_ok.mp read
    obtain ⟨sound, whole⟩ := Container.ofBytes_eq_ok.mp framed
    have tables := (exists_ofContainer sound.distinct).mp ⟨module, filled⟩
    exact ⟨container.sections, container.entries, Container.describe_sections sound tables, whole⟩
  · intro stands
    obtain ⟨sections, entries, described, whole⟩ := stands
    obtain ⟨container, sound, sameEntries, sameSections⟩ := Container.exists_sections described
    subst sameEntries sameSections
    obtain ⟨module, filled⟩ := (exists_ofContainer sound.distinct).mpr described.tables
    exact ⟨module, Steps.bind_eq_ok.mpr ⟨container, Container.ofBytes_eq_ok.mpr ⟨sound, whole⟩, filled⟩⟩

end Module

end MoveBytecode
