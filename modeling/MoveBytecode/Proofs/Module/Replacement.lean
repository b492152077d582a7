import MoveBytecode.Proofs.Module.Cascade

/-! What replacing one constant does to the bytes of a module. In the table of constants its entry gets another length and
payload, and no other entry changes; a payload of the old length leaves every byte outside of its place as it was. -/

set_option autoImplicit false

namespace MoveBytecode

/-- Byte strings of one length that differ in a range of bytes at most. -/
structure AgreeOutside (start length : Nat) (bytes bytes' : Bytes) : Prop where
  length_eq : bytes'.length = bytes.length
  outside : ∀ place, place < start ∨ start + length ≤ place → bytes'[place]? = bytes[place]?

theorem agreeOutside_append {front part part' back : Bytes} (same : part'.length = part.length) :
    AgreeOutside front.length part.length (front ++ part ++ back) (front ++ part' ++ back) where
  length_eq := by simp [same]
  outside place apart := by
    rcases apart with before | behind
    · simp [List.getElem?_append, before]
    · have late : ¬place - front.length < part.length := by omega
      have late' : ¬place < front.length := by omega
      simp [List.getElem?_append, same, late, late']

/-- Where the tables start: behind eight bytes of header and the directory. -/
def Container.areaStart (container : Container) : Nat := 8 + container.directoryBytes.length

def Constant.lead (constant : Constant) : Bytes :=
  constant.ty.encode ++ Uleb128.encode constant.value.payload.length

theorem Constant.encode_eq (constant : Constant) : constant.encode = constant.lead ++ constant.value.payload := by
  simp [encode, lead, Uleb128.lengthPrefixed]

namespace Module

def poolEntries (module : Module) : List Bytes := module.constants.map Constant.encode

def payloadStart (module : Module) (container : Container) (pool : Entry) (index : Nat) (constant : Constant) : Nat :=
  container.areaStart + pool.offset + (module.poolEntries.take index).flatten.length + constant.lead.length

def beforePayload (module : Module) (kinds : List TableKind) (index : Nat) (constant : Constant) : Bytes :=
  Container.magic ++ LittleEndian.encode 4 module.header.word ++ module.frame.directoryBytes ++
    kinds.flatMap module.table ++ (module.poolEntries.take index).flatten ++ constant.lead

def behindPayload (module : Module) (kinds : List TableKind) (index : Nat) : Bytes :=
  (module.poolEntries.drop (index + 1)).flatten ++ kinds.flatMap module.table ++
    (module.selfHandle.map Uleb128.encode).getD []

section
variable {module : Module} {index : Nat} {constant : Constant} {before behind : List TableKind}

theorem table_constantPool (module : Module) : module.table .constantPool = module.poolEntries.flatten :=
  List.flatMap_def

theorem flatten_poolEntries (found : module.constants[index]? = some constant) : module.poolEntries.flatten =
    (module.poolEntries.take index).flatten ++ constant.encode ++ (module.poolEntries.drop (index + 1)).flatten := by
  have entry : module.poolEntries[index]? = some constant.encode := by simp [poolEntries, found]
  obtain ⟨inside, same⟩ := List.getElem?_eq_some_iff.mp entry
  have split : module.poolEntries =
      module.poolEntries.take index ++ constant.encode :: module.poolEntries.drop (index + 1) := by
    rw [← same, List.getElem_cons_drop, List.take_append_drop]
  have flat := congrArg List.flatten split
  rwa [List.flatten_append, List.flatten_cons, ← List.append_assoc] at flat

theorem Valid.listed_of_constant (valid : module.Valid) (found : module.constants[index]? = some constant) :
    .constantPool ∈ module.directory := by
  by_contra absent
  have empty := valid.unlisted _ absent
  rw [table, Bytes.flatMap_eq_nil encode_constant_ne_nil] at empty
  simp [empty] at found

theorem encode_frame_split (split : module.layout = before ++ .constantPool :: behind)
    (found : module.constants[index]? = some constant) : module.frame.encode =
      module.beforePayload before index constant ++ constant.value.payload ++ module.behindPayload behind index := by
  have area : module.frame.area =
      before.flatMap module.table ++ (module.poolEntries.flatten ++ behind.flatMap module.table) := by
    rw [frame, split, List.flatMap_append, List.flatMap_cons, table_constantPool]
  rw [Container.encode, area, flatten_poolEntries found, Constant.encode_eq, beforePayload, behindPayload,
    Container.directoryBytes]
  simp only [List.append_assoc]
  rfl

theorem length_beforePayload (distinct : module.layout.Nodup)
    (split : module.layout = before ++ .constantPool :: behind) :
    (module.beforePayload before index constant).length =
      module.payloadStart module.frame (module.entryOf .constantPool) index constant := by
  have header : (Container.magic ++ LittleEndian.encode 4 module.header.word).length = 8 := by
    simp [Container.magic]
  rw [payloadStart, Container.areaStart, entryOf, start_eq distinct split, beforePayload]
  simp only [List.length_append] at header ⊢
  omega

end

section
variable {module : Module} {index : Nat} {old : Constant} {value : Value} {kinds : List TableKind}

theorem entryOf_eq_of_sizes {edited : Module} (layout : edited.layout = module.layout)
    (sizes : ∀ kind, (edited.table kind).length = (module.table kind).length) : edited.entryOf = module.entryOf := by
  funext kind
  simp only [entryOf, start, layout, List.length_flatMap, sizes]

def withValue (module : Module) (index : Nat) (old : Constant) (value : Value) : Module :=
  { module with constants := module.constants.set index { old with value } }

theorem poolEntries_withValue : (module.withValue index old value).poolEntries =
    module.poolEntries.set index (old.ty.encode ++ Uleb128.lengthPrefixed value.payload) :=
  List.map_set ..

theorem take_poolEntries_withValue :
    (module.withValue index old value).poolEntries.take index = module.poolEntries.take index := by
  rw [poolEntries_withValue, List.take_set_of_le (Nat.le_refl index)]

theorem drop_poolEntries_withValue :
    (module.withValue index old value).poolEntries.drop (index + 1) = module.poolEntries.drop (index + 1) := by
  rw [poolEntries_withValue, List.drop_set_of_lt (Nat.lt_succ_self index)]

theorem getElem?_withValue (found : module.constants[index]? = some old) :
    (module.withValue index old value).constants[index]? = some { old with value } := by
  obtain ⟨inside, _⟩ := List.getElem?_eq_some_iff.mp found
  simp [withValue, inside]

theorem table_withValue {kind : TableKind} (other : kind ≠ .constantPool) :
    (module.withValue index old value).table kind = module.table kind := by
  cases kind <;> first | rfl | contradiction

theorem flatMap_table_withValue (others : .constantPool ∉ kinds) :
    kinds.flatMap (module.withValue index old value).table = kinds.flatMap module.table :=
  List.flatMap_congr fun _ member => table_withValue fun same => others (same ▸ member)

theorem behindPayload_withValue (others : .constantPool ∉ kinds) :
    (module.withValue index old value).behindPayload kinds index = module.behindPayload kinds index := by
  rw [behindPayload, drop_poolEntries_withValue, flatMap_table_withValue others]
  rfl

variable (same : value.payload.length = old.value.payload.length)

include same

theorem lead_withValue : ({ old with value } : Constant).lead = old.lead := by
  simp [Constant.lead, same]

theorem entries_withValue (found : module.constants[index]? = some old) :
    (module.withValue index old value).frame.entries = module.frame.entries := by
  have sizes : ∀ kind, ((module.withValue index old value).table kind).length = (module.table kind).length := by
    intro kind
    by_cases isPool : kind = .constantPool
    · subst isPool
      rw [table_constantPool, table_constantPool, flatten_poolEntries found,
        flatten_poolEntries (getElem?_withValue found), take_poolEntries_withValue, drop_poolEntries_withValue,
        Constant.encode_eq, Constant.encode_eq, lead_withValue same]
      simp [same]
    · rw [table_withValue isPool]
  have unmoved : (module.withValue index old value).entryOf = module.entryOf := entryOf_eq_of_sizes rfl sizes
  simp only [frame, unmoved]
  rfl

theorem beforePayload_withValue (found : module.constants[index]? = some old) (others : .constantPool ∉ kinds) :
    (module.withValue index old value).beforePayload kinds index { old with value } =
      module.beforePayload kinds index old := by
  rw [beforePayload, Container.directoryBytes, entries_withValue same found, flatMap_table_withValue others,
    take_poolEntries_withValue, lead_withValue same]
  rfl

end

theorem Valid.eq_of_encode {module : Module} {bytes : Bytes} (valid : module.Valid)
    (written : module.encode = .ok bytes) : bytes = module.frame.encode :=
  (decode_eq_ok.mp (valid.decode_of_encode written)).2.2

theorem Valid.payload_prefix {module : Module} {index : Nat} {constant : Constant} {bytes : Bytes}
    (valid : module.Valid) (written : module.encode = .ok bytes) (found : module.constants[index]? = some constant) :
    constant.value.payload <+:
      bytes.drop (module.payloadStart module.frame (module.entryOf .constantPool) index constant) := by
  obtain ⟨before, behind, split⟩ := List.append_of_mem (valid.mem_layout (valid.listed_of_constant found))
  rw [valid.eq_of_encode written, encode_frame_split split found, List.append_assoc,
    ← length_beforePayload valid.layout_nodup split, List.drop_left]
  exact List.prefix_append ..

theorem Valid.agreeOutside_payload {module : Module} {index : Nat} {old : Constant} {value : Value} (valid : module.Valid)
    (found : module.constants[index]? = some old) (same : value.payload.length = old.value.payload.length) :
    AgreeOutside (module.payloadStart module.frame (module.entryOf .constantPool) index old) old.value.payload.length
      module.frame.encode (module.withValue index old value).frame.encode := by
  obtain ⟨before, behind, split⟩ := List.append_of_mem (valid.mem_layout (valid.listed_of_constant found))
  have distinct := valid.layout_nodup
  rw [split, List.nodup_append, List.nodup_cons] at distinct
  have others : .constantPool ∉ before := fun member => distinct.2.2 _ member _ List.mem_cons_self rfl
  have split' : (module.withValue index old value).layout = before ++ .constantPool :: behind := split
  rw [encode_frame_split split found, encode_frame_split split' (getElem?_withValue found),
    beforePayload_withValue same found others, behindPayload_withValue distinct.2.1.1,
    ← length_beforePayload valid.layout_nodup split]
  exact agreeOutside_append same

/-- A constant that takes another value changes its own entry in the table of constants, where its type and all other
entries stay; if the payload has the length of the old one, no byte but those of the payload changes. -/
theorem encode_replaceConstant {module replaced : Module} {index : Nat} {text : String} {bytes bytes' : Bytes}
    (reachable : Reachable module) (done : module.replaceConstant index text = .ok replaced)
    (written : module.encode = .ok bytes) (written' : replaced.encode = .ok bytes') :
    ∃ before after, module.WrittenIn bytes before ∧ replaced.WrittenIn bytes' after ∧
    ∃ pool ∈ before.entries, ∃ pool' ∈ after.entries, pool.kind = .constantPool ∧ pool'.kind = .constantPool ∧
    ∃ old new, module.constants[index]? = some old ∧ replaced.constants[index]? = some new ∧
      Value.parse old.ty text = .ok new.value ∧
      module.poolEntries[index]? = some (old.ty.encode ++ Uleb128.lengthPrefixed old.value.payload) ∧
      before.slice pool = module.poolEntries.flatten ∧
      after.slice pool' = (module.poolEntries.set index
        (old.ty.encode ++ Uleb128.lengthPrefixed new.value.payload)).flatten ∧
      old.value.payload <+: bytes.drop (module.payloadStart before pool index old) ∧
      (new.value.payload.length = old.value.payload.length →
        AgreeOutside (module.payloadStart before pool index old) old.value.payload.length bytes bytes') := by
  have valid := reachable.valid
  -- Both modules keep the invariant, so that the bytes of both are those of a frame.
  have valid' := valid.of_sameShape (sameShape_of_replaceConstant done)
  have shown := valid.writtenIn written
  have shown' := valid'.writtenIn written'
  obtain ⟨old, value, found, parsed, made⟩ := replaceConstant_eq_ok.mp done
  have listed := valid.listed_of_constant found
  have made : replaced = module.withValue index old value := made
  subst made
  have entry : module.entryOf .constantPool ∈ module.frame.entries := List.mem_map_of_mem listed
  have entry' : (module.withValue index old value).entryOf .constantPool ∈
      (module.withValue index old value).frame.entries := List.mem_map_of_mem listed
  refine ⟨_, _, shown, shown', _, entry, _, entry', rfl, rfl, old, { old with value }, found,
    getElem?_withValue found, parsed, ?_, ?_, ?_, valid.payload_prefix written found, fun same => ?_⟩
  · simp [poolEntries, found, Constant.encode]
  · exact (shown.slices _ entry).trans (table_constantPool module)
  · rw [← poolEntries_withValue]
    exact (shown'.slices _ entry').trans (table_constantPool _)
  · rw [valid.eq_of_encode written, valid'.eq_of_encode written']
    exact valid.agreeOutside_payload found same

def hailed : Module := (Edit.replaceConstant 0 "Ho").after coin

theorem encode_replaceConstant_hailed : coin.replaceConstant 0 "Ho" = .ok hailed ∧
    hailed.encode = .ok hailed.frame.encode ∧ [2, 0x48, 0x69] <+: coinBytes.drop 39 ∧
    AgreeOutside 39 3 coinBytes hailed.frame.encode := by
  have read : decode coinBytes = .ok coin := by decide +kernel
  have done : coin.replaceConstant 0 "Ho" = .ok hailed := by decide +kernel
  have written' : hailed.encode = .ok hailed.frame.encode := by decide +kernel
  obtain ⟨before, _, shown, _, pool, inside, _, _, isPool, _, old, new, found, found', _, _, _, _, stands, agree⟩ :=
    encode_replaceConstant (.decoded read) done (encode_of_decode read) written'
  have greeting : coin.constants[0]? = some ⟨.bytes, Value.ofBytes [0x48, 0x69]⟩ := by decide +kernel
  have greeting' : hailed.constants[0]? = some ⟨.bytes, Value.ofBytes [0x48, 0x6F]⟩ := by decide +kernel
  cases greeting.symm.trans found
  cases greeting'.symm.trans found'
  have listed : coin.entries = .ok coin.frame.entries := by decide +kernel
  have entries := Except.ok.inj (shown.entries.symm.trans listed)
  have offsets : ∀ entry ∈ coin.frame.entries, entry.kind = .constantPool → entry.offset = 12 := by decide +kernel
  have start : coin.payloadStart before pool 0 ⟨.bytes, Value.ofBytes [0x48, 0x69]⟩ = 39 := by
    rw [payloadStart, offsets pool (entries ▸ inside) isPool, Container.areaStart, Container.directoryBytes, entries]
    decide +kernel
  rw [start] at stands agree
  exact ⟨done, written', stands, agree (by decide +kernel)⟩

end Module

end MoveBytecode
