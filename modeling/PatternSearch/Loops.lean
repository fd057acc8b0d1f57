import PatternSearch.Machine

/-!
While loops with explicit fuel. A step either goes on with a new state or leaves with a
result. The total correctness rule asks for a ghost state tied to the real one, a measure
on it that every step decreases, and a postcondition that steps hand back; it yields one
result, reached with every sufficient amount of fuel. Steps that are run in batches of a
fixed size, some of them idle, have rules of their own.
-/

namespace PatternSearch.Loops

open Machine

variable {σ ρ τ : Type}

def loop (step : σ → Except Fault (σ ⊕ ρ)) : ℕ → σ → Except Fault ρ
  | 0, _ => .error .outOfFuel
  | fuel + 1, s => do
    match ← step s with
    | .inl next => loop step fuel next
    | .inr result => return result

theorem loop_of_continue {step : σ → Except Fault (σ ⊕ ρ)} {s next : σ} (fuel : ℕ)
    (h : step s = .ok (.inl next)) : loop step (fuel + 1) s = loop step fuel next := by
  rw [loop, h, ok_bind]

theorem loop_of_leave {step : σ → Except Fault (σ ⊕ ρ)} {s : σ} {result : ρ} (fuel : ℕ)
    (h : step s = .ok (.inr result)) : loop step (fuel + 1) s = .ok result := by
  rw [loop, h, ok_bind]
  rfl

theorem loop_of_error {step : σ → Except Fault (σ ⊕ ρ)} {s : σ} {e : Fault} (fuel : ℕ)
    (h : step s = .error e) : loop step (fuel + 1) s = .error e := by
  rw [loop, h, error_bind]

/-- More fuel does not change a result. -/
theorem loop_add {step : σ → Except Fault (σ ⊕ ρ)} {fuel : ℕ} {s : σ} {result : ρ}
    (h : loop step fuel s = .ok result) (extra : ℕ) :
    loop step (fuel + extra) s = .ok result := by
  induction fuel generalizing s with
  | zero => cases h
  | succ fuel ih =>
    rw [Nat.succ_add]
    cases hstep : step s with
    | error e =>
      rw [loop_of_error fuel hstep] at h
      cases h
    | ok outcome =>
      cases outcome with
      | inl next =>
        rw [loop_of_continue fuel hstep] at h
        rw [loop_of_continue _ hstep]
        exact ih h
      | inr last =>
        rw [loop_of_leave fuel hstep] at h
        rw [loop_of_leave _ hstep]
        exact h

/-- What one step has to show: it leaves with a result that meets the postcondition, or goes
on in a related state with a smaller measure whose postcondition implies the present one. -/
def StepCorrect (step : σ → Except Fault (σ ⊕ ρ)) (I : τ → σ → Prop) (μ : τ → ℕ)
    (Q : τ → ρ → Prop) : Prop :=
  ∀ t s, I t s →
    (∃ result, step s = .ok (.inr result) ∧ Q t result) ∨
    ∃ t' next, step s = .ok (.inl next) ∧ I t' next ∧ μ t' < μ t ∧
      ∀ result, Q t' result → Q t result

theorem loop_correct {step : σ → Except Fault (σ ⊕ ρ)} {I : τ → σ → Prop} {μ : τ → ℕ}
    {Q : τ → ρ → Prop} (hstep : StepCorrect step I μ Q) {t : τ} {s : σ} (hI : I t s) :
    ∃ result, Q t result ∧ ∀ fuel, μ t < fuel → loop step fuel s = .ok result := by
  -- The measure of the ghost state bounds the number of steps still to come.
  have aux : ∀ n : ℕ, ∀ t s, μ t = n → I t s →
      ∃ result, Q t result ∧ ∀ fuel, n < fuel → loop step fuel s = .ok result := by
    intro n
    induction n using Nat.strong_induction_on with
    | h n ih =>
      intro t s hn hI
      rcases hstep t s hI with ⟨result, hleave, hQ⟩ | ⟨t', next, hgo, hI', hlt, hback⟩
      · refine ⟨result, hQ, fun fuel hfuel => ?_⟩
        obtain ⟨fuel, rfl⟩ := Nat.exists_eq_succ_of_ne_zero (Nat.ne_of_gt (Nat.zero_lt_of_lt hfuel))
        exact loop_of_leave fuel hleave
      · obtain ⟨result, hQ, hrun⟩ := ih (μ t') (hn ▸ hlt) t' next rfl hI'
        refine ⟨result, hback result hQ, fun fuel hfuel => ?_⟩
        obtain ⟨fuel, rfl⟩ := Nat.exists_eq_succ_of_ne_zero (Nat.ne_of_gt (Nat.zero_lt_of_lt hfuel))
        rw [loop_of_continue fuel hgo]
        exact hrun fuel (by omega)
  exact aux (μ t) t s rfl hI

/-- A fixed number of steps, each of which lowers the measure or finds it at zero. -/
theorem foldlM_measure {α : Type} {f : σ → Except Fault σ} {I : τ → σ → Prop} {μ : τ → ℕ}
    {R : τ → τ → Prop} (hrefl : ∀ t, R t t) (htrans : ∀ a b c, R a b → R b c → R a c)
    (hstep : ∀ t s, I t s → ∃ t' next, f s = .ok next ∧ I t' next ∧ R t t' ∧ μ t' ≤ μ t - 1)
    (l : List α) {t : τ} {s : σ} (hI : I t s) :
    ∃ t' last, l.foldlM (fun s _ => f s) s = .ok last ∧ I t' last ∧ R t t' ∧
      μ t' ≤ μ t - l.length := by
  induction l generalizing t s with
  | nil => exact ⟨t, s, rfl, hI, hrefl t, Nat.le_refl _⟩
  | cons a l ih =>
    obtain ⟨t', next, hrun, hI', hR, hlow⟩ := hstep t s hI
    obtain ⟨t'', last, hrest, hlast, hR', hlow'⟩ := ih hI'
    refine ⟨t'', last, ?_, hlast, htrans t t' t'' hR hR', ?_⟩
    · rw [List.foldlM_cons, hrun, ok_bind]
      exact hrest
    · rw [List.length_cons]
      omega

section Batches

variable {f : σ → Except Fault σ}

/-- So many steps, whatever state they find. -/
def repeated (f : σ → Except Fault σ) (n : ℕ) (s : σ) : Except Fault σ :=
  (List.range n).foldlM (fun s _ => f s) s

/-- A number of steps without a look at the state, then the question whether to go on. -/
def batch (f : σ → Except Fault σ) (done : σ → Except Fault Bool) (size : ℕ) (s : σ) :
    Except Fault (σ ⊕ σ) := do
  let last ← repeated f size s
  let finished ← done last
  return if finished then .inr last else .inl last

theorem repeated_of_run {run : ℕ → σ} (hrun : ∀ k, f (run k) = .ok (run (k + 1))) (k n : ℕ) :
    repeated f n (run k) = .ok (run (k + n)) := by
  induction n with
  | zero => rfl
  | succ n ih =>
    rw [repeated, List.range_succ, List.foldlM_append]
    show (repeated f n (run k) >>= fun s => f s >>= pure) = _
    rw [ih, ok_bind, hrun, ok_bind]
    rfl

/-- A run that is found finished from its n-th step on leaves after as many batches as it
takes to reach that step, and after no fewer. -/
theorem loop_batch (run : ℕ → σ) (hrun : ∀ k, f (run k) = .ok (run (k + 1)))
    (done : σ → Except Fault Bool) {n : ℕ} (hdone : ∀ k, done (run k) = .ok (decide (n ≤ k)))
    (hn : 0 < n) {size : ℕ} (hsize : 0 < size) (fuel : ℕ) :
    loop (batch f done size) fuel (run 0) =
      if (n + size - 1) / size ≤ fuel then .ok (run ((n + size - 1) / size * size))
      else .error .outOfFuel := by
  have hceil : ∀ j, n ≤ j * size ↔ (n + size - 1) / size ≤ j := by
    intro j
    have hlt : (n + size - 1) / size < j + 1 ↔ n + size - 1 < (j + 1) * size :=
      Nat.div_lt_iff_lt_mul hsize
    rw [Nat.succ_mul] at hlt
    omega
  -- The induction is on the batches still allowed; j of them have found the run unfinished.
  have aux : ∀ fuel j, j < (n + size - 1) / size →
      loop (batch f done size) fuel (run (j * size)) =
        if (n + size - 1) / size ≤ j + fuel then .ok (run ((n + size - 1) / size * size))
        else .error .outOfFuel := by
    intro fuel
    induction fuel with
    | zero =>
      intro j hj
      rw [if_neg (by omega)]
      rfl
    | succ fuel ih =>
      intro j hj
      have hstep : batch f done size (run (j * size)) =
          .ok (if (n + size - 1) / size ≤ j + 1 then .inr (run ((j + 1) * size))
            else .inl (run ((j + 1) * size))) := by
        rw [batch, repeated_of_run hrun, ok_bind, ← Nat.succ_mul, hdone, ok_bind]
        simp only [hceil, decide_eq_true_eq]
        rfl
      by_cases hlast : (n + size - 1) / size ≤ j + 1
      · have heq : (n + size - 1) / size = j + 1 := by omega
        rw [if_pos hlast] at hstep
        rw [loop_of_leave fuel hstep, if_pos (by omega), heq]
      · rw [if_neg hlast] at hstep
        rw [loop_of_continue fuel hstep, ih (j + 1) (not_le.mp hlast)]
        congr 1
        exact propext (by omega)
  have hstart := aux fuel 0 ((Nat.div_pos_iff).mpr ⟨hsize, by omega⟩)
  rw [Nat.zero_mul, Nat.zero_add] at hstart
  exact hstart

end Batches

end PatternSearch.Loops
