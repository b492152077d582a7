import MoveBytecode.Module.Encode
import MoveBytecode.Proofs.Container
import MoveBytecode.Proofs.Payload
import MoveBytecode.Proofs.Steps

/-! The tables of a module. Each parsed table is read from the one form it is written in, and reading the tables of a
container one by one fills the parts of a module they belong to. -/

set_option autoImplicit false

namespace MoveBytecode

open Reader

theorem Address.bytes_ne_nil (address : Address) : address.bytes ≠ [] := by
  intro empty
  have length := address.length_eq
  rw [empty] at length
  cases length

namespace Constant

/-- What an edit leaves as it was: a type that is not too deep, and a value of it. -/
def Sound (constant : Constant) : Prop :=
  constant.ty.nesting ≤ Ty.maxNesting ∧ Value.HasType constant.ty constant.value

def Readable (constant : Constant) : Prop :=
  constant.Sound ∧ Value.CountsFit constant.ty constant.value ∧ constant.value.payload.length < 2 ^ 32

end Constant

namespace Module

def encodeName (name : String) : Bytes := Uleb128.lengthPrefixed (Bytes.ofText name)

theorem reads_readIdentifier (index : Nat) :
    Reads (readIdentifier index) (Form.written (fun name => (Bytes.ofText name).length < 2 ^ 32) encodeName) := by
  apply ((reads_lengthPrefixed.mapError (overrun (.identifierOverrun index))).bind fun bytes =>
    reads_ofOption _ _).congr
  intro name taken
  constructor
  · intro parts
    obtain ⟨bytes, _, _, whole, ⟨small, front⟩, shown, back⟩ := parts
    rw [Bytes.toText?_eq_some] at shown
    subst shown
    exact ⟨small, by rw [whole, front, back, List.append_nil]; rfl⟩
  · intro stands
    exact ⟨Bytes.ofText name, _, [], (List.append_nil _).symm, stands, Bytes.toText?_ofText name, rfl⟩

theorem reads_readConstant (index : Nat) :
    Reads (readConstant index) (Form.written Constant.Readable Constant.encode) := by
  apply ((Ty.reads_read.mapError _).bind fun ty => (reads_lengthPrefixed.mapError _).bind fun payload =>
    (reads_ofExcept _ (Value.ofPayload ty payload)).map (Constant.mk ty)).congr
  intro constant taken
  constructor
  · intro parts
    obtain ⟨ty, _, _, whole, ⟨flat, front⟩, payload, _, _, split, ⟨small, middle⟩, value, ⟨read, back⟩, made⟩ := parts
    obtain ⟨⟨typed, counts⟩, same⟩ := Value.ofPayload_eq_ok.mp read
    subst made same
    exact ⟨⟨⟨flat, typed⟩, counts, small⟩, by rw [whole, front, split, middle, back, List.append_nil]; rfl⟩
  · intro stands
    obtain ⟨⟨⟨flat, typed⟩, counts, small⟩, whole⟩ := stands
    exact ⟨constant.ty, _, _, whole, ⟨flat, rfl⟩, constant.value.payload, _, [], (List.append_nil _).symm,
      ⟨small, rfl⟩, constant.value, ⟨Value.ofPayload_eq_ok.mpr ⟨⟨typed, counts⟩, rfl⟩, rfl⟩, rfl⟩

theorem reads_readAddress : Reads readAddress (Form.written (fun _ => True) Address.bytes) := by
  apply ((reads_block 32).map fun bytes => Address.mk bytes.val bytes.property).congr
  intro address taken
  constructor
  · intro stands
    obtain ⟨bytes, ⟨_, whole⟩, made⟩ := stands
    subst made
    exact ⟨trivial, whole⟩
  · intro stands
    obtain ⟨_, whole⟩ := stands
    exact ⟨⟨address.bytes, address.length_eq⟩, ⟨trivial, whole⟩, rfl⟩

theorem encode_constant_ne_nil (constant : Constant) : constant.encode ≠ [] := by
  simp [Constant.encode]

theorem decodeIdentifiers_eq_ok {table : Bytes} {names : List String} :
    decodeIdentifiers table = .ok names ↔
      (∀ name ∈ names, (Bytes.ofText name).length < 2 ^ 32) ∧ table = names.flatMap encodeName := by
  have nonempty : ∀ name, ¬Form.written (fun name => (Bytes.ofText name).length < 2 ^ 32) encodeName name [] :=
    fun name stands => Uleb128.lengthPrefixed_ne_nil _ stands.2.symm
  rw [decodeIdentifiers, value_eq_ok_of_exhausts (exhausts_toEnd reads_readIdentifier nonempty), Form.sequence_written]

theorem decodeConstants_eq_ok {table : Bytes} {constants : List Constant} :
    decodeConstants table = .ok constants ↔
      (∀ constant ∈ constants, constant.Readable) ∧ table = constants.flatMap Constant.encode := by
  have nonempty : ∀ constant, ¬Form.written Constant.Readable Constant.encode constant [] :=
    fun constant stands => encode_constant_ne_nil constant stands.2.symm
  rw [decodeConstants, value_eq_ok_of_exhausts (exhausts_toEnd reads_readConstant nonempty), Form.sequence_written]

theorem decodeAddresses_eq_ok {table : Bytes} {addresses : List Address} :
    decodeAddresses table = .ok addresses ↔ table = addresses.flatMap Address.bytes := by
  have nonempty : ∀ address : Address, ¬Form.written (fun _ => True) Address.bytes address [] :=
    fun address stands => address.bytes_ne_nil stands.2.symm
  have whole : ∀ addresses, (toEnd fun _ => readAddress).value table = .ok addresses ↔
      table = addresses.flatMap Address.bytes := by
    intro addresses
    rw [value_eq_ok_of_exhausts (exhausts_toEnd (fun _ => reads_readAddress) nonempty), Form.sequence_written]
    simp
  rw [← whole, decodeAddresses]
  split <;> simp_all

/-- What reading entries makes of one part of a module: the contents of the table of its kind, if that is listed. -/
structure PartRead {α : Type} (kind : TableKind) (decode : Bytes → Except DecodeError α) (entries : List Entry)
    (slice : Entry → Bytes) (old new : α) : Prop where
  listed : ∀ entry ∈ entries, entry.kind = kind → decode (slice entry) = .ok new
  unlisted : kind ∉ entries.map Entry.kind → new = old

section
variable {α : Type} {kind : TableKind} {decode : Bytes → Except DecodeError α} {entry : Entry} {entries : List Entry}
  {slice : Entry → Bytes} {old new : α}

theorem partRead_self (here : entry.kind = kind) (fresh : entry.kind ∉ entries.map Entry.kind) :
    PartRead kind decode (entry :: entries) slice old new ↔ decode (slice entry) = .ok new := by
  constructor
  · intro read
    exact read.listed entry List.mem_cons_self here
  · intro read
    refine ⟨List.forall_mem_cons.mpr ⟨fun _ => read, fun other member there => ?_⟩, fun absent => ?_⟩
    · exact absurd (List.mem_map.mpr ⟨other, member, there.trans here.symm⟩) fresh
    · exact absurd (here ▸ List.mem_cons_self) absent

theorem partRead_of_ne (elsewhere : entry.kind ≠ kind) :
    PartRead kind decode (entry :: entries) slice old new ↔ PartRead kind decode entries slice old new := by
  constructor
  · intro read
    obtain ⟨listed, unlisted⟩ := read
    refine ⟨(List.forall_mem_cons.mp listed).2, fun absent => unlisted fun member => ?_⟩
    rcases List.mem_cons.mp member with same | member
    · exact elsewhere same.symm
    · exact absent member
  · intro read
    obtain ⟨listed, unlisted⟩ := read
    exact ⟨List.forall_mem_cons.mpr ⟨fun here => absurd here elsewhere, listed⟩,
      fun absent => unlisted fun member => absent (.tail _ member)⟩

theorem partRead_unlisted (absent : kind ∉ entries.map Entry.kind) :
    PartRead kind decode entries slice old new ↔ new = old := by
  constructor
  · intro read
    exact read.unlisted absent
  · intro same
    exact ⟨fun entry member here => absurd (List.mem_map.mpr ⟨entry, member, here⟩) absent, fun _ => same⟩

theorem partRead_nil : PartRead kind decode [] slice old new ↔ new = old := partRead_unlisted List.not_mem_nil

theorem partRead_other (elsewhere : entry.kind ≠ kind) : PartRead kind decode [entry] slice old new ↔ new = old :=
  (partRead_of_ne elsewhere).trans partRead_nil

/-- Entries are read one by one, and none touches the part that an earlier one has set. -/
theorem partRead_cons (fresh : entry.kind ∉ entries.map Entry.kind) :
    PartRead kind decode (entry :: entries) slice old new ↔
      ∃ middle, PartRead kind decode [entry] slice old middle ∧ PartRead kind decode entries slice middle new := by
  -- The kind occurs once: in the first entry, and then in no later one, or behind it.
  by_cases here : entry.kind = kind
  · have alone : entry.kind ∉ ([] : List Entry).map Entry.kind := List.not_mem_nil
    simp only [partRead_self here fresh, partRead_self here alone, partRead_unlisted (here ▸ fresh)]
    constructor
    · intro read
      exact ⟨new, read, rfl⟩
    · intro reads
      obtain ⟨middle, read, same⟩ := reads
      rw [same, read]
  · simp only [partRead_of_ne here, partRead_nil]
    constructor
    · intro read
      exact ⟨old, rfl, read⟩
    · intro reads
      obtain ⟨middle, same, read⟩ := reads
      rwa [← same]

end

structure TablesRead (entries : List Entry) (slice : Entry → Bytes) (start module : Module) : Prop where
  frame : module = { start with
    identifiers := module.identifiers
    addresses := module.addresses
    constants := module.constants
    rawTables := module.rawTables }
  identifiers : PartRead .identifiers decodeIdentifiers entries slice start.identifiers module.identifiers
  addresses : PartRead .addressIdentifiers decodeAddresses entries slice start.addresses module.addresses
  constants : PartRead .constantPool decodeConstants entries slice start.constants module.constants
  rawTables : module.rawTables = start.rawTables ++
    (entries.filter fun entry => !entry.kind.isParsed).map fun entry => (entry.kind, slice entry)

theorem addTable_raw {kind : TableKind} (raw : kind.isParsed = false) (module : Module) (table : Bytes) :
    module.addTable kind table = .ok { module with rawTables := module.rawTables ++ [(kind, table)] } := by
  cases kind <;> first | rfl | cases raw

theorem isParsed_iff {kind : TableKind} :
    kind.isParsed = true ↔ kind = .identifiers ∨ kind = .addressIdentifiers ∨ kind = .constantPool := by
  cases kind <;> simp [TableKind.isParsed]

theorem tablesRead_of_addTable {entry : Entry} {slice : Entry → Bytes} {start module : Module}
    (added : start.addTable entry.kind (slice entry) = .ok module) : TablesRead [entry] slice start module := by
  have alone : entry.kind ∉ ([] : List Entry).map Entry.kind := List.not_mem_nil
  -- Each kind sets its own part, and the other parts are not touched.
  by_cases isNames : entry.kind = .identifiers
  · rw [isNames] at added
    obtain ⟨names, read, made⟩ := Steps.bind_eq_ok.mp added
    cases made
    exact ⟨rfl, (partRead_self isNames alone).mpr read, (partRead_other (by simp [isNames])).mpr rfl,
      (partRead_other (by simp [isNames])).mpr rfl, by simp [isNames, TableKind.isParsed]⟩
  by_cases isAddresses : entry.kind = .addressIdentifiers
  · rw [isAddresses] at added
    obtain ⟨addresses, read, made⟩ := Steps.bind_eq_ok.mp added
    cases made
    exact ⟨rfl, (partRead_other isNames).mpr rfl, (partRead_self isAddresses alone).mpr read,
      (partRead_other (by simp [isAddresses])).mpr rfl, by simp [isAddresses, TableKind.isParsed]⟩
  by_cases isConstants : entry.kind = .constantPool
  · rw [isConstants] at added
    obtain ⟨constants, read, made⟩ := Steps.bind_eq_ok.mp added
    cases made
    exact ⟨rfl, (partRead_other isNames).mpr rfl, (partRead_other isAddresses).mpr rfl,
      (partRead_self isConstants alone).mpr read, by simp [isConstants, TableKind.isParsed]⟩
  have raw : entry.kind.isParsed = false := by
    simp [← Bool.not_eq_true, isParsed_iff, isNames, isAddresses, isConstants]
  rw [addTable_raw raw] at added
  cases added
  exact ⟨rfl, (partRead_other isNames).mpr rfl, (partRead_other isAddresses).mpr rfl,
    (partRead_other isConstants).mpr rfl, by simp [raw]⟩

theorem addTable_of_tablesRead {entry : Entry} {slice : Entry → Bytes} {start module : Module}
    (read : TablesRead [entry] slice start module) : start.addTable entry.kind (slice entry) = .ok module := by
  obtain ⟨frame, names, addresses, constants, tables⟩ := read
  by_cases isNames : entry.kind = .identifiers
  · have shown := names.listed entry List.mem_cons_self isNames
    rw [partRead_other (by simp [isNames])] at addresses constants
    rw [List.filter_singleton, isNames] at tables
    rw [isNames, frame, addresses, constants, tables]
    exact Steps.bind_eq_ok.mpr ⟨_, shown, by simp [TableKind.isParsed]⟩
  by_cases isAddresses : entry.kind = .addressIdentifiers
  · have shown := addresses.listed entry List.mem_cons_self isAddresses
    rw [partRead_other (by simp [isAddresses])] at names constants
    rw [List.filter_singleton, isAddresses] at tables
    rw [isAddresses, frame, names, constants, tables]
    exact Steps.bind_eq_ok.mpr ⟨_, shown, by simp [TableKind.isParsed]⟩
  by_cases isConstants : entry.kind = .constantPool
  · have shown := constants.listed entry List.mem_cons_self isConstants
    rw [partRead_other (by simp [isConstants])] at names addresses
    rw [List.filter_singleton, isConstants] at tables
    rw [isConstants, frame, names, addresses, tables]
    exact Steps.bind_eq_ok.mpr ⟨_, shown, by simp [TableKind.isParsed]⟩
  have raw : entry.kind.isParsed = false := by
    simp [← Bool.not_eq_true, isParsed_iff, isNames, isAddresses, isConstants]
  rw [partRead_other isNames] at names
  rw [partRead_other isAddresses] at addresses
  rw [partRead_other isConstants] at constants
  rw [List.filter_singleton, raw] at tables
  rw [addTable_raw raw, frame, names, addresses, constants, tables]
  rfl

theorem addTable_eq_ok {entry : Entry} {slice : Entry → Bytes} {start module : Module} :
    start.addTable entry.kind (slice entry) = .ok module ↔ TablesRead [entry] slice start module :=
  ⟨tablesRead_of_addTable, addTable_of_tablesRead⟩

theorem addTable_eq_error {kind : TableKind} {module : Module} {table : Bytes} {error : DecodeError} :
    module.addTable kind table = .error error ↔
      (kind = .identifiers ∧ decodeIdentifiers table = .error error) ∨
      (kind = .addressIdentifiers ∧ decodeAddresses table = .error error) ∨
      (kind = .constantPool ∧ decodeConstants table = .error error) := by
  unfold addTable
  split
  · simp
  · simp
  · simp
  · simp_all

theorem foldlM_addTable_eq_ok {entries : List Entry} {slice : Entry → Bytes} {start module : Module}
    (distinct : (entries.map Entry.kind).Nodup) :
    entries.foldlM (fun module entry => module.addTable entry.kind (slice entry)) start = .ok module ↔
      TablesRead entries slice start module := by
  induction entries generalizing start with
  | nil =>
    constructor
    · intro done
      cases done
      exact ⟨rfl, partRead_nil.mpr rfl, partRead_nil.mpr rfl, partRead_nil.mpr rfl, (List.append_nil _).symm⟩
    · intro read
      obtain ⟨frame, names, addresses, constants, tables⟩ := read
      rw [partRead_nil] at names addresses constants
      rw [List.filter_nil, List.map_nil, List.append_nil] at tables
      rw [frame, names, addresses, constants, tables]
      rfl
  | cons entry rest ih =>
    obtain ⟨fresh, distinct⟩ := List.nodup_cons.mp distinct
    rw [List.foldlM_cons, Steps.bind_eq_ok]
    simp only [addTable_eq_ok, ih distinct]
    constructor
    · intro read
      obtain ⟨middle, ⟨frame, names, addresses, constants, tables⟩,
        ⟨frame', names', addresses', constants', tables'⟩⟩ := read
      refine ⟨?_, (partRead_cons fresh).mpr ⟨_, names, names'⟩, (partRead_cons fresh).mpr ⟨_, addresses, addresses'⟩,
        (partRead_cons fresh).mpr ⟨_, constants, constants'⟩, ?_⟩
      · rw [frame', frame]
      · rw [tables', tables, List.append_assoc, ← List.map_append, ← List.filter_append]
        rfl
    · intro read
      obtain ⟨frame, names, addresses, constants, tables⟩ := read
      -- The module between has each part as the first entry leaves it.
      obtain ⟨names₁, first, second⟩ := (partRead_cons fresh).mp names
      obtain ⟨addresses₁, first', second'⟩ := (partRead_cons fresh).mp addresses
      obtain ⟨constants₁, first'', second''⟩ := (partRead_cons fresh).mp constants
      refine ⟨{ start with
        identifiers := names₁
        addresses := addresses₁
        constants := constants₁
        rawTables := start.rawTables ++
          ([entry].filter fun entry => !entry.kind.isParsed).map fun entry => (entry.kind, slice entry) },
        ⟨rfl, first, first', first'', rfl⟩, ⟨frame, second, second', second'', ?_⟩⟩
      rw [tables, List.append_assoc, ← List.map_append, ← List.filter_append]
      rfl

theorem ofContainer_eq_ok {container : Container} {module : Module}
    (distinct : (container.entries.map Entry.kind).Nodup) :
    ofContainer container = .ok module ↔
      TablesRead container.entries container.slice (unread container) module :=
  foldlM_addTable_eq_ok distinct

end Module

end MoveBytecode
