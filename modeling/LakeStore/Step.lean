/-!
Steps on a state: they may fail, and what they did before they failed stays done. Main statements:
the outcome of each way to make steps, from the outcomes of the steps it is made of.
-/

namespace LakeStore

/-- A step on a state of type `σ` that gives a value, or an error of type `ε`. -/
abbrev Step (σ ε : Type) := ExceptT ε (StateM σ)

namespace Step

variable {σ τ ε δ α : Type}

def outcome (step : Step σ ε α) (state : σ) : Except ε α × σ :=
  step.run.run state

def onPart (part : σ → τ) (replace : σ → τ → σ) (step : Step τ ε α) : Step σ ε α :=
  ExceptT.mk do
    let whole ← get
    let (result, changed) := step.outcome (part whole)
    set (replace whole changed)
    return result

def mapError (describe : ε → δ) (step : Step σ ε α) : Step σ δ α :=
  ExceptT.mk do
    return (← step.run).mapError describe

def succeeds (step : Step σ ε α) : StateM σ Bool := do
  return (← step.run).isOk

def ofExcept (outcome : Except ε α) : Step σ ε α :=
  ExceptT.mk (return outcome)

variable {β : Type}

@[simp]
theorem outcome_pure (value : α) (state : σ) :
    (pure value : Step σ ε α).outcome state = (.ok value, state) := rfl

@[simp]
theorem outcome_throw (error : ε) (state : σ) :
    (throw error : Step σ ε α).outcome state = (.error error, state) := rfl

@[simp]
theorem outcome_get (state : σ) : (get : Step σ ε σ).outcome state = (.ok state, state) := rfl

@[simp]
theorem outcome_set (new state : σ) :
    (set new : Step σ ε PUnit).outcome state = (.ok ⟨⟩, new) := rfl

@[simp]
theorem outcome_modify (change : σ → σ) (state : σ) :
    (modify change : Step σ ε PUnit).outcome state = (.ok ⟨⟩, change state) := rfl

@[simp]
theorem outcome_liftM (step : StateM σ α) (state : σ) :
    (liftM step : Step σ ε α).outcome state = (.ok (step.run state).1, (step.run state).2) := rfl

@[simp]
theorem outcome_ofExcept (result : Except ε α) (state : σ) :
    (ofExcept result : Step σ ε α).outcome state = (result, state) := rfl

@[simp]
theorem outcome_mapError (describe : ε → δ) (step : Step σ ε α) (state : σ) :
    (step.mapError describe).outcome state =
      ((step.outcome state).1.mapError describe, (step.outcome state).2) := rfl

theorem outcome_mapError_ok {describe : ε → δ} {step : Step σ ε α} {state changed : σ} {value : α}
    (h : step.outcome state = (.ok value, changed)) :
    (step.mapError describe).outcome state = (.ok value, changed) := by
  rw [outcome_mapError, h]
  rfl

theorem outcome_mapError_error {describe : ε → δ} {step : Step σ ε α} {state changed : σ}
    {error : ε} (h : step.outcome state = (.error error, changed)) :
    (step.mapError describe).outcome state = (.error (describe error), changed) := by
  rw [outcome_mapError, h]
  rfl

@[simp]
theorem outcome_onPart (part : σ → τ) (replace : σ → τ → σ) (step : Step τ ε α) (state : σ) :
    (step.onPart part replace).outcome state =
      ((step.outcome (part state)).1, replace state (step.outcome (part state)).2) := rfl

@[simp]
theorem run_succeeds (step : Step σ ε α) (state : σ) :
    step.succeeds.run state = ((step.outcome state).1.isOk, (step.outcome state).2) := rfl

theorem outcome_bind (step : Step σ ε α) (next : α → Step σ ε β) (state : σ) :
    (step >>= next).outcome state =
      match step.outcome state with
      | (.ok value, changed) => (next value).outcome changed
      | (.error error, changed) => (.error error, changed) := by
  change (ExceptT.bindCont next (step.outcome state).1).run (step.outcome state).2 = _
  obtain ⟨_ | _, _⟩ := step.outcome state
  all_goals rfl

theorem outcome_bind_ok {step : Step σ ε α} {state changed : σ} {value : α}
    (h : step.outcome state = (.ok value, changed)) (next : α → Step σ ε β) :
    (step >>= next).outcome state = (next value).outcome changed := by
  rw [outcome_bind, h]

theorem outcome_bind_error {step : Step σ ε α} {state changed : σ} {error : ε}
    (h : step.outcome state = (.error error, changed)) (next : α → Step σ ε β) :
    (step >>= next).outcome state = (.error error, changed) := by
  rw [outcome_bind, h]

theorem outcome_bind_pure (step : Step σ ε α) (describe : α → β) (state : σ) :
    (step >>= fun value => pure (describe value)).outcome state =
      ((step.outcome state).1.map describe, (step.outcome state).2) := by
  rw [outcome_bind]
  obtain ⟨_ | _, _⟩ := step.outcome state
  all_goals rfl

theorem state_bind_pure (step : Step σ ε α) (describe : α → β) (state : σ) :
    ((step >>= fun value => pure (describe value)).outcome state).2 = (step.outcome state).2 := by
  rw [outcome_bind_pure]

theorem outcome_tryCatch (step : Step σ ε α) (handle : ε → Step σ ε α) (state : σ) :
    (tryCatch step handle).outcome state =
      match step.outcome state with
      | (.ok value, changed) => (.ok value, changed)
      | (.error error, changed) => (handle error).outcome changed := by
  change StateT.run (match (step.outcome state).1 with
    | .ok value => pure (.ok value)
    | .error error => (handle error).run) (step.outcome state).2 = _
  obtain ⟨_ | _, _⟩ := step.outcome state
  all_goals rfl

/-- What both parts of a step keep true of the state is true after it, even if it fails. -/
theorem state_bind {P : σ → Prop} {step : Step σ ε α} {next : α → Step σ ε β} {state : σ}
    (hstep : P (step.outcome state).2)
    (hnext : ∀ value changed, step.outcome state = (.ok value, changed) → P changed →
      P ((next value).outcome changed).2) :
    P ((step >>= next).outcome state).2 := by
  rw [outcome_bind]
  split
  . next value changed houtcome =>
    rw [houtcome] at hstep
    exact hnext value changed houtcome hstep
  . next error changed houtcome =>
    rw [houtcome] at hstep
    exact hstep

theorem state_tryCatch {P : σ → Prop} {step : Step σ ε α} {handle : ε → Step σ ε α} {state : σ}
    (hstep : P (step.outcome state).2)
    (hhandle : ∀ error changed, step.outcome state = (.error error, changed) → P changed →
      P ((handle error).outcome changed).2) :
    P ((tryCatch step handle).outcome state).2 := by
  rw [outcome_tryCatch]
  split
  . next value changed houtcome =>
    rw [houtcome] at hstep
    exact hstep
  . next error changed houtcome =>
    rw [houtcome] at hstep
    exact hhandle error changed houtcome hstep

theorem outcome_mapM {step : α → Step σ ε β} {value : α → β} {items : List α} {state : σ}
    (h : ∀ item ∈ items, (step item).outcome state = (.ok (value item), state)) :
    (items.mapM step).outcome state = (.ok (items.map value), state) := by
  induction items with
  | nil => rfl
  | cons item rest ih =>
    rw [List.forall_mem_cons] at h
    rw [List.mapM_cons, outcome_bind_ok h.1, outcome_bind_ok (ih h.2)]
    rfl

theorem run_bind (step : StateM σ α) (next : α → StateM σ β) (state : σ) :
    (step >>= next).run state = (next (step.run state).1).run (step.run state).2 := rfl

theorem run_bind_pure (step : StateM σ α) (describe : α → β) (state : σ) :
    (step >>= fun value => pure (describe value)).run state =
      (describe (step.run state).1, (step.run state).2) := rfl

theorem run_run (step : Step σ ε α) (state : σ) : step.run.run state = step.outcome state := rfl

theorem run_get_bind (next : σ → StateM σ α) (state : σ) :
    (get >>= next).run state = (next state).run state := rfl

theorem run_foldlM_concat (step : α → β → StateM σ α) (items : List β) (item : β) (value : α)
    (state : σ) :
    ((items ++ [item]).foldlM step value).run state =
      (step ((items.foldlM step value).run state).1 item).run
        ((items.foldlM step value).run state).2 := by
  rw [List.foldlM_append, run_bind]
  simp only [List.foldlM_cons, List.foldlM_nil, bind_pure]

theorem run_foldlM_of_step {P : α → σ → Prop} {step : α → β → StateM σ α} {items : List β}
    (hstep : ∀ value state, P value state → ∀ item ∈ items,
      P ((step value item).run state).1 ((step value item).run state).2)
    {value : α} {state : σ} (h : P value state) :
    P ((items.foldlM step value).run state).1 ((items.foldlM step value).run state).2 := by
  induction items generalizing value state with
  | nil => exact h
  | cons item rest ih =>
    rw [List.foldlM_cons]
    apply ih
    . intro value state h other hother
      exact hstep value state h other (.tail _ hother)
    . exact hstep value state h item (.head _)

end Step

end LakeStore
