import Mathlib

/-! Steps that may fail, one behind the other: the row succeeds when every step does. -/

set_option autoImplicit false

namespace MoveBytecode.Steps

variable {ε ε' α β : Type}

theorem bind_eq_ok {step : Except ε α} {follow : α → Except ε β} {result : β} :
    step >>= follow = .ok result ↔ ∃ value, step = .ok value ∧ follow value = .ok result := by
  change Except.bind step follow = _ ↔ _
  unfold Except.bind
  cases step <;> simp

theorem bind_eq_error {step : Except ε α} {follow : α → Except ε β} {error : ε} :
    step >>= follow = .error error ↔ step = .error error ∨ ∃ value, step = .ok value ∧ follow value = .error error := by
  change Except.bind step follow = _ ↔ _
  unfold Except.bind
  cases step <;> simp

theorem bind_congr {step : Except ε α} {follow other : α → Except ε β}
    (same : ∀ value, step = .ok value → follow value = other value) : step >>= follow = step >>= other := by
  cases step with
  | error failure => rfl
  | ok value => exact same value rfl

@[simp] theorem map_eq_error {step : Except ε α} {convert : α → β} {error : ε} :
    convert <$> step = .error error ↔ step = .error error := by
  change Except.map convert step = _ ↔ _
  unfold Except.map
  cases step <;> simp

@[simp] theorem pure_eq_ok {value result : α} : (pure value : Except ε α) = .ok result ↔ result = value := by
  change Except.ok value = .ok result ↔ _
  rw [Except.ok.injEq, eq_comm]

@[simp] theorem mapError_eq_ok {step : Except ε α} {convert : ε → ε'} {result : α} :
    step.mapError convert = .ok result ↔ step = .ok result := by
  unfold Except.mapError
  cases step <;> simp

/-- A view of the result that can be computed shows that there is one. -/
theorem exists_of_map_toOption {step : Except ε α} {view : α → β} {seen : β}
    (shown : step.toOption.map view = some seen) : ∃ value, step = .ok value ∧ view value = seen := by
  cases step with
  | error failure => cases shown
  | ok value => exact ⟨value, rfl, Option.some.inj shown⟩

theorem mapM_eq_ok {step : α → Except ε β} {inputs : List α} {results : List β} :
    inputs.mapM step = .ok results ↔ List.Forall₂ (fun input result => step input = .ok result) inputs results := by
  induction inputs generalizing results with
  | nil =>
    rw [List.mapM_nil, List.forall₂_nil_left_iff]
    constructor
    · intro done
      cases done
      rfl
    · intro none
      rw [none]
      rfl
  | cons first rest ih =>
    simp only [List.mapM_cons, bind_eq_ok, ih, List.forall₂_cons_left_iff]
    constructor
    · intro given
      obtain ⟨value, head, values, tail, done⟩ := given
      cases done
      exact ⟨value, values, head, tail, rfl⟩
    · intro given
      obtain ⟨value, values, head, tail, same⟩ := given
      subst same
      exact ⟨value, head, values, tail, rfl⟩

theorem exists_of_mapM_eq_error {step : α → Except ε β} {inputs : List α} {error : ε}
    (failed : inputs.mapM step = .error error) : ∃ input ∈ inputs, step input = .error error := by
  induction inputs with
  | nil => cases failed
  | cons first rest ih =>
    rw [List.mapM_cons] at failed
    rcases bind_eq_error.mp failed with head | ⟨value, _, failed⟩
    · exact ⟨first, List.mem_cons_self, head⟩
    · rcases bind_eq_error.mp failed with tail | ⟨values, _, failed⟩
      · obtain ⟨input, inside, found⟩ := ih tail
        exact ⟨input, List.mem_cons_of_mem _ inside, found⟩
      · cases failed

theorem mapM_eq_some {step : α → Option β} {inputs : List α} {results : List β} :
    inputs.mapM step = some results ↔ List.Forall₂ (fun input result => step input = some result) inputs results := by
  induction inputs generalizing results with
  | nil => simp [eq_comm]
  | cons first rest ih =>
    simp only [List.mapM_cons, Option.bind_eq_bind, Option.bind_eq_some_iff, Option.pure_def, Option.some.injEq, ih,
      List.forall₂_cons_left_iff]
    constructor
    · rintro ⟨value, head, values, tail, rfl⟩
      exact ⟨value, values, head, tail, rfl⟩
    · rintro ⟨value, values, head, tail, rfl⟩
      exact ⟨value, head, values, tail, rfl⟩

theorem exists_of_mem_right {relation : α → β → Prop} {inputs : List α} {results : List β} {result : β}
    (related : List.Forall₂ relation inputs results) (member : result ∈ results) :
    ∃ input ∈ inputs, relation input result := by
  induction related with
  | nil => cases member
  | cons head tail ih =>
    rcases List.mem_cons.mp member with rfl | member
    · exact ⟨_, List.mem_cons_self, head⟩
    · obtain ⟨input, inside, found⟩ := ih member
      exact ⟨input, List.mem_cons_of_mem _ inside, found⟩

theorem exists_of_mem_mapM {step : α → Except ε β} {inputs : List α} {results : List β} {result : β}
    (read : inputs.mapM step = .ok results) (member : result ∈ results) :
    ∃ input ∈ inputs, step input = .ok result := by
  obtain ⟨input, inside, found⟩ := exists_of_mem_right (mapM_eq_ok.mp read) member
  exact ⟨input, inside, found⟩

theorem mapM_map_eq_ok {step : α → Except ε β} {make : β → α} {values : List β}
    (back : ∀ value ∈ values, step (make value) = .ok value) : (values.map make).mapM step = .ok values := by
  rw [mapM_eq_ok, List.forall₂_map_left_iff]
  exact List.forall₂_same.mpr back

theorem kept_of_foldlM {relation : α → α → Prop} (refl : ∀ value, relation value value)
    (trans : ∀ {first second third}, relation first second → relation second third → relation first third)
    {step : α → β → Except ε α} (kept : ∀ {value input result}, step value input = .ok result → relation value result)
    {inputs : List β} {value result : α} (done : inputs.foldlM step value = .ok result) : relation value result := by
  induction inputs generalizing value with
  | nil =>
    cases done
    exact refl result
  | cons input rest ih =>
    rw [List.foldlM_cons] at done
    obtain ⟨middle, first, others⟩ := bind_eq_ok.mp done
    exact trans (kept first) (ih others)

theorem exists_of_foldlM_eq_error {step : α → β → Except ε α} {inputs : List β} {value : α} {error : ε}
    (failed : inputs.foldlM step value = .error error) :
    ∃ input ∈ inputs, ∃ state, step state input = .error error := by
  induction inputs generalizing value with
  | nil => cases failed
  | cons input rest ih =>
    rw [List.foldlM_cons] at failed
    cases bind_eq_error.mp failed with
    | inl early => exact ⟨input, List.mem_cons_self, value, early⟩
    | inr late =>
      obtain ⟨middle, _, others⟩ := late
      obtain ⟨other, member, state, failed'⟩ := ih others
      exact ⟨other, List.mem_cons_of_mem input member, state, failed'⟩

end MoveBytecode.Steps
