import MoveBytecode.Proofs.Module.Reachable

/-! What an edit does to the bytes of a module. A table that grows or shrinks moves the ones behind it in the area, and
the directory tells where they went; the bytes of all tables but the edited ones, of the header and of the handle stay as
they were. -/

set_option autoImplicit false

namespace MoveBytecode

def Entry.growth (old new : Entry) : Int := new.length - old.length

namespace Container

def directoryBytes (container : Container) : Bytes :=
  Uleb128.encode container.entries.length ++ container.entries.flatMap Entry.encode

/-- Two frames of the same kinds in the same orders, where `byOffset` is the order of the bytes. -/
structure Cascade (before after : Container) : Prop where
  order : (byOffset after.entries).map Entry.kind = (byOffset before.entries).map Entry.kind
  kept : List.Forall₂ (fun old new => new.kind = old.kind ∧
    (old.kind ≠ .identifiers → old.kind ≠ .constantPool → new.length = old.length ∧ after.slice new = before.slice old))
    before.entries after.entries
  moved : ∀ place old new, (byOffset before.entries)[place]? = some old → (byOffset after.entries)[place]? = some new →
    (new.offset : Int) - old.offset =
      ((List.zipWith Entry.growth (byOffset before.entries) (byOffset after.entries)).take place).sum

/-- Of two rows of tables, those at the same place are as far apart as the ones before them differ in length. -/
theorem offset_sub_of_tiledEnd {reached reached' total total' : Nat} {olds news : List Entry}
    (tiled : tiledEnd reached olds = .ok total) (tiled' : tiledEnd reached' news = .ok total') {place : Nat}
    {old new : Entry} (here : olds[place]? = some old) (here' : news[place]? = some new) :
    (new.offset : Int) - old.offset = reached' - reached + ((List.zipWith Entry.growth olds news).take place).sum := by
  induction olds generalizing reached reached' news place with
  | nil => cases here
  | cons first rest ih =>
    cases news with
    | nil => cases here'
    | cons first' rest' =>
      obtain ⟨start, tail⟩ := tiledEnd_cons.mp tiled
      obtain ⟨start', tail'⟩ := tiledEnd_cons.mp tiled'
      cases place with
      | zero =>
        cases here
        cases here'
        simp [start, start']
      | succ place =>
        have behind := ih tail tail' here here'
        simp only [List.zipWith_cons_cons, List.take_succ_cons, List.sum_cons, behind, Entry.growth, Entry.finish]
        omega

end Container

namespace Module

/-- What can be told of the bytes of a module: they hold it, in a frame whose directory and tables are its own. -/
structure WrittenIn (module : Module) (bytes : Bytes) (container : Container) : Prop where
  decoded : decode bytes = .ok module
  framed : Container.ofBytes bytes = .ok container
  entries : module.entries = .ok container.entries
  layout : (Container.byOffset container.entries).map Entry.kind = module.layout
  slices : ∀ entry ∈ container.entries, container.slice entry = module.table entry.kind

variable {module edited : Module} {bytes bytes' : Bytes}

theorem Valid.writtenIn (valid : module.Valid) (written : module.encode = .ok bytes) :
    module.WrittenIn bytes module.frame := by
  have decoded := valid.decode_of_encode written
  obtain ⟨_, fits, whole⟩ := decode_eq_ok.mp decoded
  refine ⟨decoded, Container.ofBytes_eq_ok.mpr ⟨valid.wellFormed fits, whole⟩, ?_, ?_, ?_⟩
  · rcases valid.encode_cases with ⟨kind, size, _, _, failed⟩ | ⟨_, listed, _, _⟩
    · rw [written] at failed
      cases failed
    · exact listed
  · rw [valid.byOffset_frame, map_kind_entryOf]
  · intro entry member
    obtain ⟨kind, listed, rfl⟩ := List.mem_map.mp member
    exact slice_entryOf valid.layout_nodup (valid.mem_layout listed)

theorem SameShape.table_eq (same : module.SameShape edited) {kind : TableKind} (notNames : kind ≠ .identifiers)
    (notConstants : kind ≠ .constantPool) : edited.table kind = module.table kind := by
  rw [same.frame]
  cases kind <;> first | rfl | contradiction

theorem SameShape.cascade (same : module.SameShape edited) (valid : module.Valid) :
    module.frame.Cascade edited.frame where
  order := by
    rw [valid.byOffset_frame, (valid.of_sameShape same).byOffset_frame, map_kind_entryOf, map_kind_entryOf, same.frame]
  kept := by
    have valid' := valid.of_sameShape same
    have directory : edited.directory = module.directory := by rw [same.frame]
    simp only [Module.frame, directory, List.forall₂_map_left_iff, List.forall₂_map_right_iff, List.forall₂_same]
    intro kind listed
    refine ⟨rfl, fun notNames notConstants => ?_⟩
    have table := same.table_eq notNames notConstants
    refine ⟨congrArg List.length table, ?_⟩
    exact (slice_entryOf valid'.layout_nodup (valid'.mem_layout (directory ▸ listed))).trans
      (table.trans (slice_entryOf valid.layout_nodup (valid.mem_layout listed)).symm)
  moved place old new here here' := by
    have valid' := valid.of_sameShape same
    rw [valid.byOffset_frame] at here ⊢
    rw [valid'.byOffset_frame] at here' ⊢
    simpa using Container.offset_sub_of_tiledEnd valid.tiledEnd_layout valid'.tiledEnd_layout here here'

/-- An edit shows in the bytes only where it was made: in the tables of identifiers and constants, in the directory, and
in the places of the tables behind them. -/
theorem cascade_of_edit (reachable : Reachable module) {edit : Edit} (done : edit.perform module = .ok edited)
    (written : module.encode = .ok bytes) (written' : edited.encode = .ok bytes') :
    ∃ before after, module.WrittenIn bytes before ∧ edited.WrittenIn bytes' after ∧ before.Cascade after ∧
      ∃ header handle, header.length = 8 ∧ bytes = header ++ before.directoryBytes ++ before.area ++ handle ∧
        bytes' = header ++ after.directoryBytes ++ after.area ++ handle := by
  have same := Edit.sameShape_of_perform done
  have valid := reachable.valid
  have valid' := valid.of_sameShape same
  have shown := valid.writtenIn written
  have shown' := valid'.writtenIn written'
  have frames : edited.frame.header = module.frame.header ∧ edited.frame.selfHandle = module.frame.selfHandle := by
    unfold frame
    rw [same.frame]
    exact ⟨rfl, rfl⟩
  refine ⟨module.frame, edited.frame, shown, shown', same.cascade valid,
    Container.magic ++ LittleEndian.encode 4 module.header.word, (module.selfHandle.map Uleb128.encode).getD [], ?_, ?_, ?_⟩
  · rw [List.length_append, LittleEndian.length_encode]
    rfl
  · rw [(decode_eq_ok.mp shown.decoded).2.2, Container.encode, Container.directoryBytes]
    simp only [List.append_assoc]
    rfl
  · rw [(decode_eq_ok.mp shown'.decoded).2.2, Container.encode, Container.directoryBytes, frames.1, frames.2]
    simp only [List.append_assoc]
    rfl

def greeted : Module := (Edit.replaceConstant 0 "Hello").after coin

theorem cascade_greeted : ∃ before after, coin.WrittenIn coinBytes before ∧
    greeted.WrittenIn greeted.frame.encode after ∧ before.Cascade after ∧
    before.entries = [⟨.metadata, 12, 0⟩, ⟨.constantPool, 12, 15⟩, ⟨.moduleHandles, 0, 2⟩, ⟨.identifiers, 2, 10⟩,
      ⟨.addressIdentifiers, 27, 32⟩] ∧
    after.entries = [⟨.metadata, 12, 0⟩, ⟨.constantPool, 12, 18⟩, ⟨.moduleHandles, 0, 2⟩, ⟨.identifiers, 2, 10⟩,
      ⟨.addressIdentifiers, 30, 32⟩] := by
  have read : decode coinBytes = .ok coin := by decide +kernel
  have done : (Edit.replaceConstant 0 "Hello").perform coin = .ok greeted := by decide +kernel
  have written' : greeted.encode = .ok greeted.frame.encode := by decide +kernel
  obtain ⟨before, after, shown, shown', cascade, _⟩ :=
    cascade_of_edit (.decoded read) done (encode_of_decode read) written'
  have listed : coin.entries = .ok coin.frame.entries := by decide +kernel
  have listed' : greeted.entries = .ok greeted.frame.entries := by decide +kernel
  have entries := Except.ok.inj (shown.entries.symm.trans listed)
  have entries' := Except.ok.inj (shown'.entries.symm.trans listed')
  exact ⟨before, after, shown, shown', cascade, by rw [entries]; decide +kernel, by rw [entries']; decide +kernel⟩

end Module

end MoveBytecode
