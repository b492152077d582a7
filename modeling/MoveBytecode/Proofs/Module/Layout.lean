import MoveBytecode.Proofs.Module.Tables

/-! Where the tables of a module go. Each starts behind those laid out before it, and the encoding has them there,
unless an offset or a length does not fit in its field. -/

set_option autoImplicit false

namespace MoveBytecode.Module

def start (module : Module) (kind : TableKind) : Nat :=
  ((module.layout.takeWhile (· ≠ kind)).flatMap module.table).length

def entryOf (module : Module) (kind : TableKind) : Entry := ⟨kind, module.start kind, (module.table kind).length⟩

def Fits (module : Module) : Prop := ∀ kind ∈ module.layout, (module.entryOf kind).Fits

structure Oversized (module : Module) (kind : TableKind) (size : Nat) : Prop where
  laidOut : kind ∈ module.layout
  measured : size = module.start kind ∨ size = (module.table kind).length
  large : 2 ^ 32 ≤ size

def frame (module : Module) : Container where
  header := module.header
  entries := module.directory.map module.entryOf
  area := module.layout.flatMap module.table
  selfHandle := module.selfHandle

@[simp] theorem map_kind_entryOf (module : Module) (kinds : List TableKind) :
    (kinds.map module.entryOf).map Entry.kind = kinds := by
  rw [List.map_map]
  exact List.map_id' kinds

theorem Fits.not_oversized {module : Module} (fits : module.Fits) {kind : TableKind} {size : Nat} :
    ¬module.Oversized kind size := by
  intro given
  obtain ⟨laidOut, measured, large⟩ := given
  obtain ⟨offset, length⟩ := fits kind laidOut
  rcases measured with same | same <;> subst same
  · exact absurd offset (Nat.not_lt.mpr large)
  · exact absurd length (Nat.not_lt.mpr large)

section
variable {module : Module} {kind : TableKind} {before kinds : List TableKind}

theorem start_eq (distinct : module.layout.Nodup) (split : module.layout = before ++ kind :: kinds) :
    module.start kind = (before.flatMap module.table).length := by
  have fresh : kind ∉ before := by
    rw [split] at distinct
    exact fun member => (List.nodup_append.mp distinct).2.2 kind member kind List.mem_cons_self rfl
  have front : module.layout.takeWhile (· ≠ kind) = before := by
    rw [split, List.takeWhile_append_of_pos]
    · simp
    · intro other member
      exact decide_eq_true fun same => fresh (same ▸ member)
  rw [start, front]

theorem start_add_length (distinct : module.layout.Nodup) (split : module.layout = before ++ kind :: kinds) :
    module.start kind + (module.table kind).length = ((before ++ [kind]).flatMap module.table).length := by
  rw [start_eq distinct split, List.flatMap_append, List.length_append, List.flatMap_singleton]

/-- Tables are placed behind one another up to the first that is too far out or too long. -/
theorem place_outcome (distinct : module.layout.Nodup) (split : module.layout = before ++ kinds) :
    ((∀ kind ∈ kinds, (module.entryOf kind).Fits) ∧ module.place (before.flatMap module.table).length kinds =
      .ok (kinds.map fun kind => (module.entryOf kind, module.table kind))) ∨
    ∃ kind size, module.Oversized kind size ∧
      module.place (before.flatMap module.table).length kinds = .error (.tableTooLarge kind size) := by
  -- What is placed so far is `before`; the running offset is the length of its tables.
  induction kinds generalizing before with
  | nil => exact .inl ⟨List.forall_mem_nil _, rfl⟩
  | cons kind rest ih =>
    have laidOut : kind ∈ module.layout := split ▸ List.mem_append_right _ List.mem_cons_self
    rw [place, ← start_eq distinct split]
    by_cases far : 2 ^ 32 ≤ module.start kind
    · refine .inr ⟨kind, _, ⟨laidOut, .inl rfl, far⟩, ?_⟩
      simp only [ge_iff_le, Nat.pow_eq, if_pos far]
      rfl
    by_cases long : 2 ^ 32 ≤ (module.table kind).length
    · refine .inr ⟨kind, _, ⟨laidOut, .inr rfl, long⟩, ?_⟩
      simp only [ge_iff_le, Nat.pow_eq, if_neg far, if_pos long]
      rfl
    simp only [ge_iff_le, Nat.pow_eq, if_neg far, if_neg long, start_add_length distinct split]
    have split' : module.layout = (before ++ [kind]) ++ rest := by rw [split, List.append_assoc]; rfl
    rcases ih split' with ⟨fits, placed⟩ | ⟨other, size, oversized, failed⟩
    · refine .inl ⟨List.forall_mem_cons.mpr ⟨⟨Nat.not_le.mp far, Nat.not_le.mp long⟩, fits⟩, ?_⟩
      rw [placed]
      rfl
    · exact .inr ⟨other, size, oversized, by rw [failed]; rfl⟩

theorem tiledEnd_layout (distinct : module.layout.Nodup) (split : module.layout = before ++ kinds) :
    Container.tiledEnd (before.flatMap module.table).length (kinds.map module.entryOf) =
      .ok (module.layout.flatMap module.table).length := by
  induction kinds generalizing before with
  | nil => rw [split, List.append_nil, List.map_nil, Container.tiledEnd]
  | cons kind rest ih =>
    rw [List.map_cons, Container.tiledEnd_cons]
    refine ⟨start_eq distinct split, ?_⟩
    rw [Entry.finish, entryOf, start_add_length distinct split]
    exact ih (by rw [split, List.append_assoc]; rfl)

theorem slice_entryOf (distinct : module.layout.Nodup) (laidOut : kind ∈ module.layout) :
    module.frame.slice (module.entryOf kind) = module.table kind := by
  obtain ⟨before, rest, split⟩ := List.append_of_mem laidOut
  have area : module.frame.area =
      before.flatMap module.table ++ (module.table kind ++ rest.flatMap module.table) := by
    rw [frame, split, List.flatMap_append, List.flatMap_cons]
  rw [Container.slice, area, entryOf, start_eq distinct split, List.drop_left, List.take_left]

end

theorem find?_kind {kind : TableKind} {kinds : List TableKind} (member : kind ∈ kinds) :
    kinds.find? (fun other => other = kind) = some kind := by
  cases found : kinds.find? (fun other => other = kind) with
  | none => exact absurd (decide_eq_true rfl) (List.find?_eq_none.mp found kind member)
  | some other =>
    have same := List.find?_some found
    rw [of_decide_eq_true same]

theorem listed_eq {module : Module} (laidOut : ∀ kind ∈ module.directory, kind ∈ module.layout) :
    module.listed (module.layout.map fun kind => (module.entryOf kind, module.table kind)) =
      .ok module.frame.entries := by
  rw [listed, Steps.mapM_eq_ok, frame, List.forall₂_map_right_iff, List.forall₂_same]
  intro kind member
  have found : (module.layout.map fun kind => (module.entryOf kind, module.table kind)).find?
      (fun placed => placed.1.kind = kind) = some (module.entryOf kind, module.table kind) := by
    rw [List.find?_map, Option.map_eq_some_iff]
    exact ⟨kind, find?_kind (laidOut kind member), rfl⟩
  rw [found]

/-- A module whose listed tables are laid out is written as its frame, or refused for a table that is too large. -/
theorem encode_outcome {module : Module} (distinct : module.layout.Nodup)
    (laidOut : ∀ kind ∈ module.directory, kind ∈ module.layout) :
    (module.Fits ∧ module.entries = .ok module.frame.entries ∧ module.encode = .ok module.frame.encode) ∨
    ∃ kind size, module.Oversized kind size ∧ module.entries = .error (.tableTooLarge kind size) ∧
      module.encode = .error (.tableTooLarge kind size) := by
  have split : module.layout = [] ++ module.layout := rfl
  -- Once the tables are placed nothing else can fail.
  rcases place_outcome distinct split with ⟨fits, done⟩ | ⟨kind, size, oversized, failed⟩
  · have placed : module.placed = _ := done
    have area : (module.layout.map fun kind => (module.entryOf kind, module.table kind)).flatMap Prod.snd =
        module.frame.area := List.flatMap_map ..
    refine .inl ⟨fits, ?_, ?_⟩
    · rw [entries, placed]
      exact listed_eq laidOut
    · refine Steps.bind_eq_ok.mpr ⟨_, placed, Steps.bind_eq_ok.mpr ⟨_, listed_eq laidOut, ?_⟩⟩
      rw [area]
      rfl
  · have placed : module.placed = _ := failed
    refine .inr ⟨kind, size, oversized, ?_, ?_⟩
    · rw [entries, placed]
      rfl
    · rw [encode, placed]
      rfl

end MoveBytecode.Module
