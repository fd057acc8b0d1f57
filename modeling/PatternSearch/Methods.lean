import PatternSearch.Loops

/-!
Methods of an object that outlives its calls. A method reads and writes members and may
throw; what it wrote before it threw stays written, and the next call finds it there.
-/

namespace PatternSearch.Methods

open Machine Loops

variable {σ τ α β ρ : Type}

abbrev MethodM (σ α : Type) := ExceptT Fault (StateM σ) α

/-- What a call returns or throws, and the object it leaves. -/
def call (m : MethodM σ α) (s : σ) : Except Fault α × σ := m.run.run s

def outcome (m : MethodM σ α) (s : σ) : Except Fault α := (call m s).1

/-- The object after the call, also when the call threw. -/
def after (m : MethodM σ α) (s : σ) : σ := (call m s).2

/-- A computation on values, which touches no member. -/
def compute (x : Except Fault α) : MethodM σ α := ExceptT.mk (pure x)

def update (f : σ → σ) : MethodM σ Unit := modify f

/-- Replace the object by a computed one. -/
def updateM (f : σ → Except Fault σ) : MethodM σ Unit := do
  let next ← compute (f (← get))
  set next

/-- A while loop over the members. -/
def loopM (step : σ → Except Fault (σ ⊕ ρ)) : ℕ → MethodM σ ρ
  | 0 => throw .outOfFuel
  | fuel + 1 => do
    match ← compute (step (← get)) with
    | .inl next =>
      set next
      loopM step fuel
    | .inr result => return result

/-- A method on a view of the object, whose outcome is written back. -/
def within (view : σ → τ) (store : τ → σ → σ) (m : MethodM τ α) : MethodM σ α := do
  let s ← get
  let made := call m (view s)
  set (store made.2 s)
  compute made.1

/-- A call that returns, with the object it leaves; a call that throws. -/
def returned (m : MethodM σ α) (s : σ) : Except Fault (α × σ) := do
  let a ← outcome m s
  return (a, after m s)

section Calls

variable (s : σ)

theorem call_bind (m : MethodM σ α) (f : α → MethodM σ β) :
    call (m >>= f) s =
      match call m s with
      | (.ok a, s') => call (f a) s'
      | (.error e, s') => (.error e, s') := by
  simp only [call, ExceptT.run_bind, StateT.run_bind]
  rcases m.run.run s with ⟨x, s'⟩
  cases x with
  | error e => rfl
  | ok a => rfl

theorem returned_bind (m : MethodM σ α) (f : α → MethodM σ β) :
    returned (m >>= f) s = returned m s >>= fun x => returned (f x.1) x.2 := by
  simp only [returned, outcome, after, call_bind]
  rcases call m s with ⟨x, s'⟩
  cases x with
  | error e => rfl
  | ok a => rfl

theorem outcome_bind (m : MethodM σ α) (f : α → MethodM σ β) :
    outcome (m >>= f) s = returned m s >>= fun x => outcome (f x.1) x.2 := by
  simp only [returned, outcome, after, call_bind]
  rcases call m s with ⟨x, s'⟩
  cases x with
  | error e => rfl
  | ok a => rfl

theorem returned_compute_bind (x : Except Fault α) (f : α → MethodM σ β) :
    returned (compute x >>= f) s = x >>= fun a => returned (f a) s := by
  rw [returned_bind, returned, bind_assoc]
  rfl

theorem returned_get_bind (f : σ → MethodM σ β) : returned (get >>= f) s = returned (f s) s := rfl

theorem returned_update_bind (f : σ → σ) (g : Unit → MethodM σ β) :
    returned (update f >>= g) s = returned (g ()) (f s) := rfl

theorem returned_updateM_bind (f : σ → Except Fault σ) (g : Unit → MethodM σ β) :
    returned (updateM f >>= g) s = f s >>= fun next => returned (g ()) next := by
  have hset : ∀ next : σ, returned (set next >>= g) s = returned (g ()) next := fun _ => rfl
  rw [updateM, bind_assoc, returned_get_bind, bind_assoc, returned_compute_bind]
  exact congrArg _ (funext hset)

theorem returned_pure (a : α) : returned (pure a : MethodM σ α) s = .ok (a, s) := rfl

theorem returned_update (f : σ → σ) : returned (update f) s = .ok ((), f s) := rfl

theorem outcome_compute_bind (x : Except Fault α) (f : α → MethodM σ β) :
    outcome (compute x >>= f) s = x >>= fun a => outcome (f a) s := by
  rw [outcome_bind, returned, bind_assoc]
  rfl

theorem outcome_get_bind (f : σ → MethodM σ β) : outcome (get >>= f) s = outcome (f s) s := rfl

theorem outcome_update_bind (f : σ → σ) (g : Unit → MethodM σ β) :
    outcome (update f >>= g) s = outcome (g ()) (f s) := rfl

theorem outcome_updateM_bind (f : σ → Except Fault σ) (g : Unit → MethodM σ β) :
    outcome (updateM f >>= g) s = f s >>= fun next => outcome (g ()) next := by
  have hset : ∀ next : σ, outcome (set next >>= g) s = outcome (g ()) next := fun _ => rfl
  rw [updateM, bind_assoc, outcome_get_bind, bind_assoc, outcome_compute_bind]
  exact congrArg _ (funext hset)

/-- A computation that throws leaves the object as it was. -/
theorem after_compute_bind (x : Except Fault α) (f : α → MethodM σ β) :
    after (compute x >>= f) s =
      match x with
      | .ok a => after (f a) s
      | .error _ => s := by
  rw [after, call_bind]
  cases x with
  | error e => rfl
  | ok a => rfl

/-- The loop over the members returns what the loop over values returns. -/
theorem outcome_loopM (step : σ → Except Fault (σ ⊕ ρ)) (fuel : ℕ) :
    outcome (loopM step fuel) s = loop step fuel s := by
  induction fuel generalizing s with
  | zero => rfl
  | succ fuel ih =>
    rw [loopM, outcome_get_bind, outcome_compute_bind, loop]
    cases step s with
    | error e => rfl
    | ok next =>
      cases next with
      | inl next => exact ih next
      | inr result => rfl

theorem outcome_within (view : σ → τ) (store : τ → σ → σ) (m : MethodM τ α) :
    outcome (within view store m) s = outcome m (view s) := rfl

end Calls

end PatternSearch.Methods
