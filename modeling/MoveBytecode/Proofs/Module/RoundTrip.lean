import MoveBytecode.Proofs.Lookup
import MoveBytecode.Proofs.Module.Layout

/-! A module is read from the bytes that it is written as. What every module has that was read is gathered in one
invariant; a module that has it and is not too large comes back from its own encoding, and no other bytes give it. -/

set_option autoImplicit false

namespace MoveBytecode.Module

structure Valid (module : Module) : Prop where
  distinct : module.directory.Nodup
  laidOut : module.layout.Perm module.directory
  ties : module.layout.IsChain fun first second =>
    module.table first = [] → module.directory.idxOf first < module.directory.idxOf second
  sound : ∀ constant ∈ module.constants, constant.Sound
  rawKinds : module.rawTables.map Prod.fst = module.directory.filter fun kind => !kind.isParsed
  unlisted : ∀ kind, kind ∉ module.directory → module.table kind = []
  handle_present : module.selfHandle.isSome = module.header.hasSelfHandle
  handle_fits : ∀ handle ∈ module.selfHandle, handle < 2 ^ 32

theorem table_raw {kind : TableKind} (raw : kind.isParsed = false) (module : Module) :
    module.table kind = (module.rawTable? kind).getD [] := by
  cases kind <;> first | rfl | cases raw

/-! Of a module that was read from a container -/

section
variable {container : Container} {module : Module} (sound : container.WellFormed)
  (read : TablesRead container.entries container.slice (unread container) module)

include read

theorem directory_eq : module.directory = container.entries.map Entry.kind := by
  rw [read.frame]
  rfl

theorem layout_eq : module.layout = (Container.byOffset container.entries).map Entry.kind := by
  rw [read.frame]
  rfl

theorem rawKinds_of_read : module.rawTables.map Prod.fst = module.directory.filter fun kind => !kind.isParsed := by
  rw [directory_eq read, read.rawTables, List.filter_map]
  simp [unread, Function.comp_def]

include sound

theorem table_listed {entry : Entry} (member : entry ∈ container.entries) :
    module.table entry.kind = container.slice entry := by
  by_cases parsed : entry.kind.isParsed = true
  · rcases isParsed_iff.mp parsed with isNames | isAddresses | isConstants
    · rw [isNames]
      exact (decodeIdentifiers_eq_ok.mp (read.identifiers.listed entry member isNames)).2.symm
    · rw [isAddresses]
      exact (decodeAddresses_eq_ok.mp (read.addresses.listed entry member isAddresses)).symm
    · rw [isConstants]
      exact (decodeConstants_eq_ok.mp (read.constants.listed entry member isConstants)).2.symm
  · -- Any other table is found by its kind among those that are kept as they are.
    have raw := Bool.eq_false_iff.mpr parsed
    have distinct : (module.rawTables.map Prod.fst).Nodup := by
      rw [rawKinds_of_read read, directory_eq read]
      exact sound.distinct.filter _
    have listed : (entry.kind, container.slice entry) ∈ module.rawTables := by
      rw [read.rawTables]
      exact List.mem_append_right _ (List.mem_map.mpr ⟨entry, List.mem_filter.mpr ⟨member, by rw [raw]; rfl⟩, rfl⟩)
    rw [table_raw raw, rawTable?, lookup_eq_some_of_mem distinct listed]
    rfl

omit sound in
theorem table_unlisted {kind : TableKind} (absent : kind ∉ module.directory) : module.table kind = [] := by
  have missing : kind ∉ container.entries.map Entry.kind := directory_eq read ▸ absent
  by_cases parsed : kind.isParsed = true
  · rcases isParsed_iff.mp parsed with same | same | same <;> subst same
    · rw [table, read.identifiers.unlisted missing]
      rfl
    · rw [table, read.addresses.unlisted missing]
      rfl
    · rw [table, read.constants.unlisted missing]
      rfl
  · have raw := Bool.eq_false_iff.mpr parsed
    have nowhere : module.rawTable? kind = none := by
      refine List.lookup_eq_none_iff.mpr fun pair member => bne_iff_ne.mpr fun same => absent ?_
      have listed : pair.1 ∈ module.rawTables.map Prod.fst := List.mem_map_of_mem member
      rw [rawKinds_of_read read, ← same] at listed
      exact (List.mem_filter.mp listed).1
    rw [table_raw raw, nowhere]
    rfl

theorem length_table {entry : Entry} (member : entry ∈ container.entries) :
    (module.table entry.kind).length = entry.length := by
  rw [table_listed sound read member, Container.length_slice sound.tiled member]

theorem flatMap_table {entries : List Entry} (listed : ∀ entry ∈ entries, entry ∈ container.entries) :
    (entries.map Entry.kind).flatMap module.table = entries.flatMap container.slice := by
  rw [List.flatMap_map]
  exact List.flatMap_congr fun entry member => table_listed sound read (listed entry member)

theorem entryOf_kind {entry : Entry} (member : entry ∈ container.entries) : module.entryOf entry.kind = entry := by
  have perm := Container.byOffset_perm container.entries
  obtain ⟨before, rest, split⟩ := List.append_of_mem (perm.mem_iff.mpr member)
  have distinct : module.layout.Nodup := by
    rw [layout_eq read]
    exact (perm.map _).nodup_iff.mpr sound.distinct
  have place : module.layout = before.map Entry.kind ++ entry.kind :: rest.map Entry.kind := by
    rw [layout_eq read, split, List.map_append, List.map_cons]
  have listed : ∀ other ∈ before, other ∈ container.entries := fun other earlier =>
    perm.mem_iff.mp (split ▸ List.mem_append_left _ earlier)
  -- The entries before it in the area reach its offset, and their lengths are those of their tables.
  have tiled := sound.tiled
  rw [Container.areaLength, split, Container.tiledEnd_append] at tiled
  obtain ⟨reached, front, back⟩ := tiled
  have start : module.start entry.kind = entry.offset := by
    rw [start_eq distinct place, (Container.tiledEnd_cons.mp back).1, Container.tiledEnd_eq_sum front,
      List.length_flatMap, List.map_map, Nat.zero_add]
    exact congrArg List.sum (List.map_congr_left fun other earlier => length_table sound read (listed other earlier))
  rw [entryOf, start, length_table sound read member]

theorem frame_of_read : module.frame = container := by
  have perm := Container.byOffset_perm container.entries
  have entries : module.directory.map module.entryOf = container.entries := by
    rw [directory_eq read, List.map_map]
    exact (List.map_congr_left fun entry member => entryOf_kind sound read member).trans (List.map_id' _)
  have area : module.layout.flatMap module.table = container.area := by
    rw [layout_eq read, flatMap_table sound read fun entry member => perm.mem_iff.mp member,
      Container.flatMap_slice_of_tiledEnd sound.tiled, List.drop_zero]
  have header : module.header = container.header := by
    rw [read.frame]
    rfl
  have handle : module.selfHandle = container.selfHandle := by
    rw [read.frame]
    rfl
  rw [frame, entries, area, header, handle]

theorem ties_of_read : module.layout.IsChain fun first second =>
    module.table first = [] → module.directory.idxOf first < module.directory.idxOf second := by
  have perm := Container.byOffset_perm container.entries
  have ordered := (Container.byOffset_pairwise (Container.pairwise_rankIn sound.distinct)).isChain
  have behind := Container.chain_of_tiledEnd sound.tiled
  rw [layout_eq read, List.isChain_map]
  apply List.isChain_iff_getElem.mpr
  intro place inside empty
  -- An empty table ends where it starts, so the next one comes later in the directory and not in the area.
  have listed := perm.mem_iff.mp (List.getElem_mem (Nat.lt_of_succ_lt inside))
  have length := length_table sound read listed
  rw [empty, List.length_nil] at length
  have before := ordered.getElem place inside
  have next := behind.getElem place inside
  rw [Entry.finish, ← length] at next
  rcases before with earlier | ⟨_, lower⟩
  · omega
  · rw [directory_eq read]
    exact lower

theorem valid_of_read : module.Valid where
  distinct := by
    rw [directory_eq read]
    exact sound.distinct
  laidOut := by
    rw [directory_eq read, layout_eq read]
    exact (Container.byOffset_perm container.entries).map _
  ties := ties_of_read sound read
  sound := by
    intro constant member
    by_cases listed : TableKind.constantPool ∈ container.entries.map Entry.kind
    · obtain ⟨entry, inside, isConstants⟩ := List.mem_map.mp listed
      exact ((decodeConstants_eq_ok.mp (read.constants.listed entry inside isConstants)).1 constant member).1
    · rw [read.constants.unlisted listed] at member
      cases member
  rawKinds := rawKinds_of_read read
  unlisted kind absent := table_unlisted read absent
  handle_present := by
    rw [read.frame]
    exact sound.handle_present
  handle_fits := by
    rw [read.frame]
    exact sound.handle_fits

theorem fits_of_read : module.Fits := by
  intro kind laidOut
  rw [layout_eq read] at laidOut
  obtain ⟨entry, inside, same⟩ := List.mem_map.mp laidOut
  have listed := (Container.byOffset_perm container.entries).mem_iff.mp inside
  rw [← same, entryOf_kind sound read listed]
  exact sound.fits entry listed

end

/-! Of a module that keeps the invariant -/

namespace Valid

variable {module : Module} (valid : module.Valid)

include valid

theorem layout_nodup : module.layout.Nodup := valid.laidOut.nodup_iff.mpr valid.distinct

theorem mem_layout {kind : TableKind} (listed : kind ∈ module.directory) : kind ∈ module.layout :=
  valid.laidOut.mem_iff.mpr listed

theorem tiledEnd_layout :
    Container.tiledEnd 0 (module.layout.map module.entryOf) = .ok module.frame.area.length := by
  have split : module.layout = [] ++ module.layout := rfl
  exact Module.tiledEnd_layout valid.layout_nodup split

omit valid in
theorem rankIn_entryOf (module : Module) (kind : TableKind) :
    Container.rankIn module.frame.entries (module.entryOf kind) = module.directory.idxOf kind := by
  rw [Container.rankIn, frame, map_kind_entryOf]
  rfl

theorem layout_ordered :
    (module.layout.map module.entryOf).Pairwise (Container.Precedes (Container.rankIn module.frame.entries)) := by
  have behind := Container.chain_of_tiledEnd valid.tiledEnd_layout
  rw [List.isChain_map] at behind
  refine ((List.isChain_map _).mpr (List.isChain_iff_getElem.mpr fun place inside => ?_)).pairwise
  have next := behind.getElem place inside
  have tie := valid.ties.getElem place inside
  simp only [Entry.finish, entryOf] at next
  -- Only behind an empty table does the next one start at the same place, and then `ties` orders them.
  rcases Nat.eq_zero_or_pos (module.table module.layout[place]).length with empty | positive
  · refine .inr ⟨?_, ?_⟩
    · change module.start _ = module.start _
      omega
    · rw [rankIn_entryOf, rankIn_entryOf]
      exact tie (List.eq_nil_of_length_eq_zero empty)
  · refine .inl ?_
    change module.start _ < module.start _
    omega

theorem kinds_nodup : (module.frame.entries.map Entry.kind).Nodup := by
  rw [frame, map_kind_entryOf]
  exact valid.distinct

theorem byOffset_frame : Container.byOffset module.frame.entries = module.layout.map module.entryOf :=
  Container.byOffset_eq (Container.pairwise_rankIn valid.kinds_nodup) (valid.laidOut.map _) valid.layout_ordered

theorem unread_frame : unread module.frame =
    { module with identifiers := [], addresses := [], constants := [], rawTables := [] } := by
  rw [unread, valid.byOffset_frame, map_kind_entryOf, frame, map_kind_entryOf]

theorem wellFormed (fits : module.Fits) : module.frame.WellFormed where
  distinct := valid.kinds_nodup
  fits := List.forall_mem_map.mpr fun kind listed => fits kind (valid.mem_layout listed)
  tiled := by
    rw [Container.areaLength, valid.byOffset_frame]
    exact valid.tiledEnd_layout
  handle_present := valid.handle_present
  handle_fits := valid.handle_fits

theorem table_small (fits : module.Fits) (kind : TableKind) : (module.table kind).length < 2 ^ 32 := by
  by_cases listed : kind ∈ module.directory
  · exact (fits kind (valid.mem_layout listed)).2
  · rw [valid.unlisted kind listed]
    decide

theorem table_of_mem_rawTables {kind : TableKind} {bytes : Bytes} (member : (kind, bytes) ∈ module.rawTables) :
    module.table kind = bytes := by
  have listed : kind ∈ module.rawTables.map Prod.fst := List.mem_map_of_mem member
  have distinct : (module.rawTables.map Prod.fst).Nodup := by
    rw [valid.rawKinds]
    exact valid.distinct.filter _
  rw [valid.rawKinds] at listed
  have raw : kind.isParsed = false := by simpa using (List.mem_filter.mp listed).2
  rw [table_raw raw, rawTable?, lookup_eq_some_of_mem distinct member]
  rfl

/-- A part is read back when its table is read as it is written, and the part is nothing where the table is empty. -/
theorem partRead {α : Type} {kind : TableKind} {decode : Bytes → Except DecodeError (List α)} {part : List α}
    (read : decode (module.table kind) = .ok part) (empty : module.table kind = [] → part = []) :
    PartRead kind decode module.frame.entries module.frame.slice [] part where
  listed := by
    refine List.forall_mem_map.mpr fun other listed same => ?_
    cases same
    rw [slice_entryOf valid.layout_nodup (valid.mem_layout listed)]
    exact read
  unlisted absent := by
    rw [frame, map_kind_entryOf] at absent
    exact empty (valid.unlisted kind absent)

theorem decodeIdentifiers_table (fits : module.Fits) :
    decodeIdentifiers (module.table .identifiers) = .ok module.identifiers := by
  refine decodeIdentifiers_eq_ok.mpr ⟨fun name member => ?_, rfl⟩
  have small := valid.table_small fits .identifiers
  have inside : (encodeName name).length ≤ (module.table .identifiers).length := Bytes.length_le_flatMap member
  have shorter := Uleb128.length_le_lengthPrefixed (Bytes.ofText name)
  unfold encodeName at inside
  omega

theorem decodeConstants_table (fits : module.Fits) :
    decodeConstants (module.table .constantPool) = .ok module.constants := by
  refine decodeConstants_eq_ok.mpr ⟨fun constant member => ?_, rfl⟩
  have small := valid.table_small fits .constantPool
  have inside : constant.encode.length ≤ (module.table .constantPool).length := Bytes.length_le_flatMap member
  have shorter := Uleb128.length_le_lengthPrefixed constant.value.payload
  rw [Constant.encode, List.length_append] at inside
  have payload : constant.value.payload.length < 2 ^ 32 := by omega
  exact ⟨valid.sound constant member, Value.countsFit_of_length payload, payload⟩

theorem tablesRead (fits : module.Fits) :
    TablesRead module.frame.entries module.frame.slice (unread module.frame) module where
  frame := by rw [valid.unread_frame]
  identifiers := by
    apply valid.partRead (valid.decodeIdentifiers_table fits)
    intro empty
    exact (Bytes.flatMap_eq_nil fun name => Uleb128.lengthPrefixed_ne_nil _).mp empty
  addresses := by
    apply valid.partRead (decodeAddresses_eq_ok.mpr rfl)
    intro empty
    exact (Bytes.flatMap_eq_nil Address.bytes_ne_nil).mp empty
  constants := by
    apply valid.partRead (valid.decodeConstants_table fits)
    intro empty
    exact (Bytes.flatMap_eq_nil encode_constant_ne_nil).mp empty
  rawTables := by
    -- The directory lists the raw kinds in the order in which their tables are kept.
    have kept : ∀ pair ∈ module.rawTables, (pair.1, module.frame.slice (module.entryOf pair.1)) = pair := by
      intro pair member
      have listed : pair.1 ∈ module.rawTables.map Prod.fst := List.mem_map_of_mem member
      rw [valid.rawKinds] at listed
      rw [slice_entryOf valid.layout_nodup (valid.mem_layout (List.mem_filter.mp listed).1),
        valid.table_of_mem_rawTables member]
    have kinds : module.frame.entries.filter (fun entry => !entry.kind.isParsed) =
        module.rawTables.map fun pair => module.entryOf pair.1 := by
      have raw : module.directory.filter ((fun entry => !entry.kind.isParsed) ∘ module.entryOf) = _ :=
        valid.rawKinds.symm
      rw [frame, List.filter_map, raw, List.map_map]
      rfl
    rw [kinds, unread, List.nil_append, List.map_map]
    exact ((List.map_congr_left kept).trans (List.map_id' _)).symm

end Valid

/-- Bytes hold a module exactly when it keeps the invariant and is written as these bytes. -/
theorem decode_eq_ok {bytes : Bytes} {module : Module} :
    decode bytes = .ok module ↔ module.Valid ∧ module.Fits ∧ bytes = module.frame.encode := by
  rw [decode, Steps.bind_eq_ok]
  constructor
  · intro decoded
    obtain ⟨container, framed, filled⟩ := decoded
    obtain ⟨sound, whole⟩ := Container.ofBytes_eq_ok.mp framed
    have read := (ofContainer_eq_ok sound.distinct).mp filled
    exact ⟨valid_of_read sound read, fits_of_read sound read, by rw [whole, frame_of_read sound read]⟩
  · intro stands
    obtain ⟨valid, fits, whole⟩ := stands
    exact ⟨module.frame, Container.ofBytes_eq_ok.mpr ⟨valid.wellFormed fits, whole⟩,
      (ofContainer_eq_ok valid.kinds_nodup).mpr (valid.tablesRead fits)⟩

theorem encodeChecked_of_decode {bytes : Bytes} {module : Module} (written : module.encode = .ok bytes)
    (read : decode bytes = .ok module) : module.encodeChecked = .ok bytes := by
  refine Steps.bind_eq_ok.mpr ⟨bytes, written, ?_⟩
  simp only [read, if_pos]
  rfl

theorem encode_of_decode {bytes : Bytes} {module : Module} (read : decode bytes = .ok module) :
    module.encode = .ok bytes := by
  obtain ⟨valid, fits, whole⟩ := decode_eq_ok.mp read
  rcases encode_outcome valid.layout_nodup (fun kind => valid.mem_layout) with
    ⟨_, _, written⟩ | ⟨kind, size, oversized, _⟩
  · rw [written, whole]
  · -- What was read had its offsets and lengths in 32 bits.
    exact absurd oversized fits.not_oversized

/-- A module with an empty table between two others that come in the opposite order in the directory. -/
def coin : Module where
  header := ⟨6, 0, by decide⟩
  directory := [.metadata, .constantPool, .moduleHandles, .identifiers, .addressIdentifiers]
  layout := [.moduleHandles, .identifiers, .metadata, .constantPool, .addressIdentifiers]
  identifiers := ["coin", "COIN"]
  addresses := [.zero]
  constants := [⟨.bytes, Value.ofBytes [0x48, 0x69]⟩,
    ⟨.vector (.vector (.uint .w16)), .vector [.vector [.uint .w16 258], .vector []]⟩]
  rawTables := [(.metadata, []), (.moduleHandles, [0, 0])]
  selfHandle := some 0

def coinBytes : Bytes :=
  [0xA1, 0x1C, 0xEB, 0x0B, 6, 0, 0, 0, 5, 0x10, 12, 0, 0x06, 12, 15, 0x01, 0, 2, 0x07, 2, 10, 0x08, 27, 32, 0, 0,
    4, 0x63, 0x6F, 0x69, 0x6E, 4, 0x43, 0x4F, 0x49, 0x4E, 0x0A, 0x02, 3, 2, 0x48, 0x69, 0x0A, 0x0A, 0x0D, 5, 2, 1, 2, 1,
    0] ++ Address.zero.bytes ++ [0]

example : decode coinBytes = .ok coin := by decide +kernel

end MoveBytecode.Module
