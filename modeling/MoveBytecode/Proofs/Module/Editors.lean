import MoveBytecode.Module.Edit
import MoveBytecode.Proofs.Lookup

/-! What editors leave behind. Their checks end at the first finding and write nothing, so a refused edit leaves the
module as it was; the names that are written behind them one by one come to the batch as a whole. -/

set_option autoImplicit false

namespace MoveBytecode

namespace Renames

variable {renames : Renames} {index : Nat} {name : String}

def Ordered (renames : Renames) : Prop := renames.Pairwise fun first second => first.1 < second.1

theorem mem_of_mem_set {entry : Nat × String} (member : entry ∈ renames.set index name) :
    entry = (index, name) ∨ entry ∈ renames := by
  induction renames with
  | nil => exact .inl (List.mem_singleton.mp member)
  | cons first rest ih => grind [set]

theorem Ordered.set (ordered : renames.Ordered) (index : Nat) (name : String) : (renames.set index name).Ordered := by
  induction renames with
  | nil => exact List.pairwise_singleton _ _
  | cons first rest ih =>
    obtain ⟨below, others⟩ := List.pairwise_cons.mp ordered
    unfold Renames.set
    split
    · rename_i before
      have all : ∀ entry ∈ first :: rest, index < entry.1 :=
        List.forall_mem_cons.mpr ⟨before, fun entry member => before.trans (below entry member)⟩
      exact List.pairwise_cons.mpr ⟨all, ordered⟩
    · split
      · rename_i same
        subst same
        exact List.pairwise_cons.mpr ⟨below, others⟩
      · rename_i notBefore notSame
        have behind : first.1 < index := by omega
        refine List.pairwise_cons.mpr ⟨fun entry member => ?_, ih others⟩
        cases mem_of_mem_set member with
        | inl given => exact given ▸ behind
        | inr earlier => exact below entry earlier

theorem ordered_settled (renames : Renames) : renames.settled.Ordered := by
  induction renames using List.reverseRecOn with
  | nil => exact .nil
  | append_singleton before last ih =>
    have split : settled (before ++ [last]) = (settled before).set last.1 last.2 := List.foldl_append ..
    rw [split]
    exact ih.set last.1 last.2

theorem apply_nil (identifiers : List String) : apply [] identifiers = identifiers := by
  simp [apply, List.mapIdx_eq_iff]

/-- A name that is put in before those of a batch stays, as none of them is for its index. -/
theorem apply_cons (fresh : index ∉ renames.map Prod.fst) (identifiers : List String) :
    apply ((index, name) :: renames) identifiers = renames.apply (identifiers.set index name) := by
  refine List.ext_getElem? fun place => ?_
  simp only [apply, List.getElem?_mapIdx]
  by_cases same : place = index
  · subst same
    simp [List.getElem?_set_self', lookup_eq_none_of_fresh fresh, Function.const_def]
  · rw [lookup_cons_of_ne same, List.getElem?_set_ne (Ne.symm same)]

theorem Ordered.foldl_set (ordered : renames.Ordered) (identifiers : List String) :
    renames.foldl (fun names entry => names.set entry.1 entry.2) identifiers = renames.apply identifiers := by
  induction renames generalizing identifiers with
  | nil => exact (apply_nil identifiers).symm
  | cons entry rest ih =>
    obtain ⟨above, others⟩ := List.pairwise_cons.mp ordered
    have fresh : entry.1 ∉ rest.map Prod.fst := by
      intro member
      obtain ⟨other, inside, same⟩ := List.mem_map.mp member
      exact absurd same (Nat.ne_of_gt (above other inside))
    rw [List.foldl_cons, ih others, apply_cons fresh]

/-- Why a batch is refused, if it is: all of it is checked by itself before any of it is compared. -/
def refusal? (renames : Renames) (identifiers : List String) : Option EditError :=
  (renames.settled.findSome? (fault? identifiers.length)).or
    (renames.settled.findSome? (clash? (renames.settled.apply identifiers)))

theorem refusal?_eq_none {identifiers : List String} : renames.refusal? identifiers = none ↔
    (∀ entry ∈ renames.settled, fault? identifiers.length entry = none) ∧
      ∀ entry ∈ renames.settled, clash? (renames.settled.apply identifiers) entry = none := by
  simp only [refusal?, Option.or_eq_none_iff, List.findSome?_eq_none_iff]

end Renames

namespace Editor

theorem forM_check (finding? : Nat × String → Option EditError) (entries : Renames) (module : Module) :
    entries.forM (check finding?) module = match entries.findSome? finding? with
      | some error => .error error module
      | none => .ok () module := by
  induction entries with
  | nil => rfl
  | cons entry rest ih =>
    change (check finding? entry >>= fun _ => rest.forM (check finding?)) module = _
    rw [List.findSome?_cons, check]
    cases finding? entry with
    | some error => rfl
    | none => exact ih

theorem forM_write (entries : Renames) (module : Module) :
    entries.forM write module = .ok () { module with
      identifiers := entries.foldl (fun names entry => names.set entry.1 entry.2) module.identifiers } := by
  induction entries generalizing module with
  | nil => rfl
  | cons entry rest ih => exact ih { module with identifiers := module.identifiers.set entry.1 entry.2 }

/-- Nothing is written before the last check. -/
theorem rename_eq (renames : Renames) (module : Module) : rename renames module =
    match renames.refusal? module.identifiers with
    | some error => .error error module
    | none => .ok () { module with identifiers := renames.settled.apply module.identifiers } := by
  -- Names are written one by one in the order of their indices, which comes to the batch as a whole.
  have written := forM_write renames.settled module
  rw [(Renames.ordered_settled renames).foldl_set] at written
  unfold Renames.refusal?
  change EStateM.bind (renames.settled.forM (check (Renames.fault? module.identifiers.length))) _ module = _
  rw [EStateM.bind, forM_check]
  cases renames.settled.findSome? (Renames.fault? module.identifiers.length) with
  | some error => rfl
  | none =>
    change EStateM.bind (renames.settled.forM (check _)) _ module = _
    rw [EStateM.bind, forM_check]
    cases renames.settled.findSome? (Renames.clash? (renames.settled.apply module.identifiers)) with
    | some error => rfl
    | none => exact written

theorem renameSelf_eq (name : String) (module : Module) : renameSelf name module =
    match module.selfRenames name with
    | .error error => .error error module
    | .ok renames => rename renames module := by
  unfold renameSelf
  change (match module.selfRenames name with
    | .error error => throw error
    | .ok renames => rename renames : Editor) module = _
  cases module.selfRenames name <;> rfl

theorem replaceConstant_eq (index : Nat) (text : String) (module : Module) : replaceConstant index text module =
    match module.constants[index]? with
    | none => .error (.indexOutOfRange .constantPool index module.constants.length) module
    | some constant =>
      match Value.parse constant.ty text with
      | .error cause => .error (.typeMismatch index cause) module
      | .ok value => .ok () { module with constants := module.constants.set index { constant with value } } := by
  unfold replaceConstant
  simp only [bind, EStateM.bind, get, getThe, MonadStateOf.get, EStateM.get]
  cases module.constants[index]? with
  | none => rfl
  | some constant =>
    simp only
    cases Value.parse constant.ty text <;> rfl

def Untouched (editor : Editor) : Prop := ∀ module error left, editor module = .error error left → left = module

theorem untouched_rename (renames : Renames) : Untouched (rename renames) := by
  intro module error left refused
  rw [rename_eq] at refused
  split at refused <;> cases refused
  rfl

theorem untouched_renameSelf (name : String) : Untouched (renameSelf name) := by
  intro module error left refused
  rw [renameSelf_eq] at refused
  split at refused
  · cases refused
    rfl
  · exact untouched_rename _ module error left refused

theorem untouched_replaceConstant (index : Nat) (text : String) : Untouched (replaceConstant index text) := by
  intro module error left refused
  rw [replaceConstant_eq] at refused
  split at refused
  · cases refused
    rfl
  · split at refused <;> cases refused
    rfl

/-- A copy is edited, and takes the place of the module if that succeeds. -/
def ofCopy (edit : Module → Except EditError Module) : Editor := fun module =>
  match edit module with
  | .error error => .error error module
  | .ok edited => .ok () edited

theorem outcome_ofCopy (edit : Module → Except EditError Module) (module : Module) :
    (ofCopy edit).outcome module = edit module := by
  unfold outcome ofCopy
  cases edit module <;> rfl

theorem untouched_ofCopy (edit : Module → Except EditError Module) : Untouched (ofCopy edit) := by
  intro module error left refused
  unfold ofCopy at refused
  split at refused <;> cases refused
  rfl

theorem outcome_eq_ok {editor : Editor} {module edited : Module} :
    editor.outcome module = .ok edited ↔ editor module = .ok () edited := by
  unfold outcome
  cases editor module <;> simp

theorem left_of_ok {editor : Editor} {module edited : Module} (done : editor.outcome module = .ok edited) :
    editor.left module = edited := by
  rw [left, outcome_eq_ok.mp done]

theorem Untouched.left_of_error {editor : Editor} (untouched : editor.Untouched) {module : Module} {error : EditError}
    (refused : editor.outcome module = .error error) : editor.left module = module := by
  unfold outcome at refused
  unfold left
  cases outcome : editor module with
  | ok _ edited => simp [outcome] at refused
  | error error left => exact untouched module error left outcome

end Editor

namespace Module

theorem rename_eq (module : Module) (renames : Renames) : module.rename renames =
    match renames.refusal? module.identifiers with
    | some error => .error error
    | none => .ok { module with identifiers := renames.settled.apply module.identifiers } := by
  rw [rename, Editor.outcome, Editor.rename_eq]
  cases renames.refusal? module.identifiers <;> rfl

theorem renameSelf_eq_bind (module : Module) (name : String) :
    module.renameSelf name = (do module.rename (← module.selfRenames name)) := by
  rw [renameSelf, Editor.outcome, Editor.renameSelf_eq]
  cases module.selfRenames name <;> rfl

theorem replaceConstant_eq (module : Module) (index : Nat) (text : String) : module.replaceConstant index text =
    match module.constants[index]? with
    | none => .error (.indexOutOfRange .constantPool index module.constants.length)
    | some constant =>
      match Value.parse constant.ty text with
      | .error cause => .error (.typeMismatch index cause)
      | .ok value => .ok { module with constants := module.constants.set index { constant with value } } := by
  rw [replaceConstant, Editor.outcome, Editor.replaceConstant_eq]
  cases module.constants[index]? with
  | none => rfl
  | some constant =>
    simp only
    cases Value.parse constant.ty text <;> rfl

end Module

end MoveBytecode
