import PatternSearch.Spmd

/-!
What the calls of one program add up to. A postcondition speaks of a program's result and of
the calls that it has issued on its way there, whatever their replies; it is passed through a
program construct by construct, and through a loop by an invariant of its passes. In a run of
several ranks in step it holds of every rank's own calls.
-/

namespace PatternSearch.CallTraces

open Spmd Prog

variable {Op : Type} {Reply : Op → Type} {ε α β σ ρ ι : Type} {P : ℕ}

/-- Every way through the program to a result has calls and a result of this kind. -/
inductive Leads : Prog Op Reply ε α → (List Op → α → Prop) → Prop
  | done {Q : List Op → α → Prop} {a : α} : Q [] a → Leads (.done a) Q
  | stop (Q : List Op → α → Prop) (e : ε) : Leads (.stop e) Q
  | call {Q : List Op → α → Prop} {op : Op} {next : Reply op → Prog Op Reply ε α} :
      (∀ reply, Leads (next reply) fun ops a => Q (op :: ops) a) → Leads (.call op next) Q

namespace Leads

variable {Q R : List Op → α → Prop} {Q' : List Op → β → Prop}

theorem mono {p : Prog Op Reply ε α} (h : Leads p R) (hQ : ∀ ops a, R ops a → Q ops a) :
    Leads p Q := by
  induction h generalizing Q with
  | done ha => exact .done (hQ _ _ ha)
  | stop _ e => exact .stop _ e
  | call _ ih => exact .call fun reply => ih reply fun ops a => hQ _ a

/-- The calls of the parts, one after the other. -/
theorem bind {p : Prog Op Reply ε α} {f : α → Prog Op Reply ε β}
    (h : Leads p fun ops a => Leads (f a) fun rest b => Q' (ops ++ rest) b) :
    Leads (p >>= f) Q' := by
  induction p generalizing Q' with
  | done a =>
    cases h with
    | done ha => exact ha
  | stop e => exact .stop _ e
  | call op next ih =>
    cases h with
    | call hnext => exact .call fun reply => ih reply (hnext reply)

theorem issue {op : Op} {f : Reply op → Prog Op Reply ε β}
    (h : ∀ reply, Leads (f reply) fun rest b => Q' (op :: rest) b) :
    Leads (Prog.issue op >>= f) Q' := .call h

theorem lifted {x : Except ε α} (h : ∀ a, x = .ok a → Q [] a) :
    Leads (Prog.lift x : Prog Op Reply ε α) Q := by
  cases x with
  | ok a => exact .done (h a rfl)
  | error e => exact .stop _ e

theorem lift {x : Except ε α} {f : α → Prog Op Reply ε β}
    (h : ∀ a, x = .ok a → Leads (f a) Q') : Leads (Prog.lift x >>= f) Q' :=
  bind (lifted h)

/-- The invariant speaks of the passes so far, of their calls and of the state after them. -/
theorem loop {exhausted : ε} {step : σ → Prog Op Reply ε (σ ⊕ ρ)} {I : ℕ → List Op → σ → Prop}
    {L : List Op → ℕ × ρ → Prop} (hgo : ∀ n ops s, I n ops s → Leads (step s) fun rest outcome =>
      (∀ next, outcome = .inl next → I (n + 1) (ops ++ rest) next) ∧
        ∀ result, outcome = .inr result → L (ops ++ rest) (n + 1, result)) (fuel : ℕ)
    {n : ℕ} {ops : List Op} {s : σ} (hs : I n ops s) :
    Leads (Prog.loop exhausted step fuel s) fun rest x => L (ops ++ rest) (n + x.1, x.2) := by
  induction fuel generalizing n ops s with
  | zero => exact .stop _ _
  | succ fuel ih =>
    apply bind
    refine (hgo n ops s hs).mono fun first outcome hpass => ?_
    cases outcome with
    | inr result =>
      apply Leads.done
      rw [List.append_nil]
      exact hpass.2 result rfl
    | inl next =>
      apply bind
      refine (ih (hpass.1 next rfl)).mono fun rest x hrest => ?_
      apply Leads.done
      rw [List.append_nil, ← List.append_assoc, Nat.add_comm x.1, ← Nat.add_assoc]
      exact hrest

/-- The same for a fixed number of passes. -/
theorem foldlM {step : σ → ι → Prog Op Reply ε σ} {I : ℕ → List Op → σ → Prop}
    (hgo : ∀ n ops s i, I n ops s → Leads (step s i) fun rest next => I (n + 1) (ops ++ rest) next)
    (l : List ι) {n : ℕ} {ops : List Op} {s : σ} (hs : I n ops s) :
    Leads (l.foldlM step s) fun rest last => I (n + l.length) (ops ++ rest) last := by
  induction l generalizing n ops s with
  | nil =>
    apply Leads.done
    rw [List.append_nil]
    exact hs
  | cons i l ih =>
    rw [List.foldlM_cons]
    apply bind
    refine (hgo n ops s i hs).mono fun first next hnext => ?_
    refine (ih hnext).mono fun rest last hlast => ?_
    rw [← List.append_assoc, List.length_cons, Nat.add_comm l.length, ← Nat.add_assoc]
    exact hlast

end Leads

variable {Matches : (ops : Fin P → Op) → (∀ r, Reply (ops r)) → Prop} {Undefined : ε → Prop}

/-- In a run in step the postcondition of a rank holds of its part of the rounds. -/
theorem leads_of_inStep {progs : Fin P → Prog Op Reply ε α} {rounds : List (Fin P → Op)}
    {a : Fin P → α} (h : InStep Matches Undefined progs rounds (.returned a)) {r : Fin P}
    {Q : List Op → α → Prop} (hQ : Leads (progs r) Q) : Q (rounds.map fun ops => ops r) (a r) := by
  generalize hend : Ending.returned a = ending at h
  induction h generalizing Q with
  | returned a' =>
    obtain rfl := Ending.returned.inj hend
    cases hQ with
    | done ha => exact ha
  | stopped e => cases hend
  | undefined r e => cases hend
  | @round ops replies next trace ending _ _ ih =>
    cases hQ with
    | call hnext => exact ih (hnext (replies r)) hend

end PatternSearch.CallTraces
