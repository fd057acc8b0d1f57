import Mathlib.Data.Fin.Tuple.Basic
import Mathlib.Logic.Basic

/-!
One program on many ranks. A rank's program is a tree: it is done, it stops, or it issues a
collective call and goes on with the reply. The ranks share nothing but their calls. They
run in step when their calls match round after round, up to a round where all of them end;
the rounds of such a run are its trace. What a call is, when calls match and which replies
they get are parameters.
-/

namespace PatternSearch.Spmd

variable {Op : Type} {Reply : Op → Type} {ε α β σ ρ : Type} {P : ℕ}

inductive Prog (Op : Type) (Reply : Op → Type) (ε α : Type) : Type
  | done (a : α)
  | stop (e : ε)
  | call (op : Op) (next : Reply op → Prog Op Reply ε α)

namespace Prog

def bind : Prog Op Reply ε α → (α → Prog Op Reply ε β) → Prog Op Reply ε β
  | .done a, f => f a
  | .stop e, _ => .stop e
  | .call op next, f => .call op fun reply => (next reply).bind f

instance instMonad : Monad (Prog Op Reply ε) where
  pure := .done
  bind := Prog.bind

theorem bind_assoc (p : Prog Op Reply ε α) (f : α → Prog Op Reply ε β)
    (g : β → Prog Op Reply ε σ) : p >>= f >>= g = p >>= fun a => f a >>= g := by
  induction p with
  | done a => rfl
  | stop e => rfl
  | call op next ih => exact congrArg (Prog.call op) (funext fun reply => ih reply)

/-- A single call. -/
def issue (op : Op) : Prog Op Reply ε (Reply op) := .call op .done

/-- A computation of the rank alone. -/
def lift : Except ε α → Prog Op Reply ε α
  | .ok a => .done a
  | .error e => .stop e

theorem lift_ok_bind (a : α) (f : α → Prog Op Reply ε β) : lift (.ok a) >>= f = f a := rfl

/-- A while loop that also counts its passes, the last one included. -/
def loop (exhausted : ε) (step : σ → Prog Op Reply ε (σ ⊕ ρ)) :
    ℕ → σ → Prog Op Reply ε (ℕ × ρ)
  | 0, _ => .stop exhausted
  | fuel + 1, s =>
    (step s).bind fun
      | .inl next => (loop exhausted step fuel next).bind fun x => .done (x.1 + 1, x.2)
      | .inr result => .done (1, result)

/-- Whatever the replies, every call the program comes to has the one property and every
result it is done with has the other. -/
inductive AllCalls (C : Op → Prop) (Q : α → Prop) : Prog Op Reply ε α → Prop
  | done {a : α} : Q a → AllCalls C Q (.done a)
  | stop (e : ε) : AllCalls C Q (.stop e)
  | call {op : Op} {next : Reply op → Prog Op Reply ε α} : C op →
      (∀ reply, AllCalls C Q (next reply)) → AllCalls C Q (.call op next)

variable {C : Op → Prop} {Q : α → Prop} {Q' : β → Prop}

theorem AllCalls.bind {p : Prog Op Reply ε α} {f : α → Prog Op Reply ε β} (hp : p.AllCalls C Q)
    (hf : ∀ a, Q a → (f a).AllCalls C Q') : (p >>= f).AllCalls C Q' := by
  induction hp with
  | done ha => exact hf _ ha
  | stop e => exact .stop e
  | call hop _ ih => exact .call hop ih

/-- A call followed by the rest of the program. -/
theorem AllCalls.issue {op : Op} {f : Reply op → Prog Op Reply ε β} (h : C op)
    (hf : ∀ reply, (f reply).AllCalls C Q') : (Prog.issue op >>= f).AllCalls C Q' :=
  .call h hf

/-- A computation of the rank followed by the rest of the program. -/
theorem AllCalls.lift {x : Except ε α} {f : α → Prog Op Reply ε β}
    (hf : ∀ a, x = .ok a → (f a).AllCalls C Q') : (Prog.lift x >>= f).AllCalls C Q' := by
  cases x with
  | ok a => exact hf a rfl
  | error e => exact .stop e

theorem AllCalls.loop {exhausted : ε} {step : σ → Prog Op Reply ε (σ ⊕ ρ)}
    (hstep : ∀ s, (step s).AllCalls C fun _ => True) (fuel : ℕ) (s : σ) :
    (loop exhausted step fuel s).AllCalls C fun _ => True := by
  induction fuel generalizing s with
  | zero => exact .stop exhausted
  | succ fuel ih =>
    apply (hstep s).bind
    intro outcome _
    cases outcome with
    | inl next => exact (ih next).bind fun _ _ => .done trivial
    | inr result => exact .done trivial

theorem AllCalls.foldlM {ι : Type} {step : σ → ι → Prog Op Reply ε σ}
    (hstep : ∀ s i, (step s i).AllCalls C fun _ => True) (l : List ι) (s : σ) :
    (l.foldlM step s).AllCalls C fun _ => True := by
  induction l generalizing s with
  | nil => exact .done trivial
  | cons i l ih =>
    rw [List.foldlM_cons]
    exact (hstep s i).bind fun next _ => ih next

end Prog

open Prog

/-- How the ranks end. -/
inductive Ending (P : ℕ) (ε α : Type)
  | returned (a : Fin P → α)
  /-- Every rank has stopped, each with its own exception. -/
  | stopped (e : Fin P → ε)
  /-- This rank has left the defined behaviour; nothing is said of the others. -/
  | undefined (r : Fin P) (e : ε)

/-- All ranks return the same, or stop in the same way. -/
def Ending.alike : Except ε α → Ending P ε α
  | .ok a => .returned fun _ => a
  | .error e => .stopped fun _ => e

variable (Matches : (ops : Fin P → Op) → (∀ r, Reply (ops r)) → Prop) (Undefined : ε → Prop)

/-- The ranks' calls match in every round of the trace, and after it all ranks end alike. -/
inductive InStep : (Fin P → Prog Op Reply ε α) → List (Fin P → Op) → Ending P ε α → Prop
  | returned (a : Fin P → α) : InStep (fun r => .done (a r)) [] (.returned a)
  | stopped (e : Fin P → ε) : InStep (fun r => .stop (e r)) [] (.stopped e)
  | undefined {progs : Fin P → Prog Op Reply ε α} (r : Fin P) {e : ε} : progs r = .stop e →
      Undefined e → InStep progs [] (.undefined r e)
  | round {ops : Fin P → Op} {replies : ∀ r, Reply (ops r)}
      {next : ∀ r, Reply (ops r) → Prog Op Reply ε α} {trace : List (Fin P → Op)}
      {ending : Ending P ε α} : Matches ops replies →
      InStep (fun r => next r (replies r)) trace ending →
      InStep (fun r => .call (ops r) (next r)) (ops :: trace) ending

/-- What every rank's program says of its calls holds of the rounds. -/
theorem InStep.forall_mem {C : Fin P → Op → Prop} {Q : α → Prop}
    {progs : Fin P → Prog Op Reply ε α} {trace : List (Fin P → Op)} {ending : Ending P ε α}
    (h : InStep Matches Undefined progs trace ending) (hC : ∀ r, (progs r).AllCalls (C r) Q) :
    ∀ ops ∈ trace, ∀ r, C r (ops r) := by
  induction h with
  | returned a => exact fun _ hmem => absurd hmem List.not_mem_nil
  | stopped e => exact fun _ hmem => absurd hmem List.not_mem_nil
  | undefined r _ _ => exact fun _ hmem => absurd hmem List.not_mem_nil
  | @round ops replies next trace ending _ _ ih =>
    have hcalls : ∀ r, C r (ops r) ∧ ∀ reply, (next r reply).AllCalls (C r) Q := by
      intro r
      cases hC r with
      | call hop hnext => exact ⟨hop, hnext⟩
    intro ops' hmem r
    rcases List.mem_cons.mp hmem with rfl | hmem
    · exact (hcalls r).1
    · exact ih (fun r => (hcalls r).2 _) ops' hmem r

/-- A run in step of two programs, one after the other. -/
theorem InStep.bind {progs : Fin P → Prog Op Reply ε α} {a : Fin P → α}
    {f : Fin P → α → Prog Op Reply ε β} {first rest : List (Fin P → Op)} {ending : Ending P ε β}
    (h : InStep Matches Undefined progs first (.returned a))
    (hrest : InStep Matches Undefined (fun r => f r (a r)) rest ending) :
    InStep Matches Undefined (fun r => progs r >>= f r) (first ++ rest) ending := by
  generalize hend : Ending.returned a = e at h
  induction h with
  | returned a' =>
    obtain rfl := Ending.returned.inj hend
    exact hrest
  | stopped e => cases hend
  | undefined r _ _ => cases hend
  | round hmatch _ ih => exact .round hmatch (ih hend)

section Inversion

variable {Matches Undefined}
variable {trace : List (Fin P → Op)} {ending : Ending P ε α}

/-- Ranks that are all done have ended. -/
theorem InStep.of_done (hP : 0 < P) {a : Fin P → α}
    (h : InStep Matches Undefined (fun r => .done (a r)) trace ending) :
    trace = [] ∧ ending = .returned a := by
  generalize hprogs : (fun r => (.done (a r) : Prog Op Reply ε α)) = progs at h
  cases h with
  | returned a' =>
    have hsame : a = a' := funext fun r => Prog.done.inj (congrFun hprogs r)
    exact ⟨rfl, congrArg Ending.returned hsame.symm⟩
  | stopped e => cases congrFun hprogs ⟨0, hP⟩
  | undefined r hstop _ =>
    rw [← hprogs] at hstop
    cases hstop
  | round _ _ => cases congrFun hprogs ⟨0, hP⟩

/-- Ranks that have all stopped, none of them outside the defined behaviour. -/
theorem InStep.of_stop (hP : 0 < P) {e : Fin P → ε} (hdefined : ∀ r, ¬ Undefined (e r))
    (h : InStep Matches Undefined (fun r => .stop (e r)) trace ending) :
    trace = [] ∧ ending = .stopped e := by
  generalize hprogs : (fun r => (.stop (e r) : Prog Op Reply ε α)) = progs at h
  cases h with
  | returned a => cases congrFun hprogs ⟨0, hP⟩
  | stopped e' =>
    have hsame : e = e' := funext fun r => Prog.stop.inj (congrFun hprogs r)
    exact ⟨rfl, congrArg Ending.stopped hsame.symm⟩
  | undefined r hstop hundefined =>
    rw [← hprogs] at hstop
    rw [← Prog.stop.inj hstop] at hundefined
    exact absurd hundefined (hdefined r)
  | round _ _ => cases congrFun hprogs ⟨0, hP⟩

/-- Ranks that all issue a call go on from matching replies. -/
theorem InStep.of_call (hP : 0 < P) {ops : Fin P → Op}
    {next : ∀ r, Reply (ops r) → Prog Op Reply ε α}
    (h : InStep Matches Undefined (fun r => .call (ops r) (next r)) trace ending) :
    ∃ replies rest, trace = ops :: rest ∧ Matches ops replies ∧
      InStep Matches Undefined (fun r => next r (replies r)) rest ending := by
  generalize hprogs : (fun r => Prog.call (ops r) (next r)) = progs at h
  cases h with
  | returned a => cases congrFun hprogs ⟨0, hP⟩
  | stopped e => cases congrFun hprogs ⟨0, hP⟩
  | undefined r hstop _ =>
    rw [← hprogs] at hstop
    cases hstop
  | @round ops' replies next' rest _ hmatch hrest =>
    have hops : ops' = ops := funext fun r => by
      injection congrFun hprogs r with hop _
      exact hop.symm
    subst hops
    have hnext : next' = next := funext fun r => by
      injection congrFun hprogs r with _ heq
      exact heq.symm
    subst hnext
    exact ⟨replies, rest, rfl, hmatch, hrest⟩

end Inversion

/-- Where a round's calls determine its replies, programs that come to a rank outside the
defined behaviour do not end in any other way. -/
theorem InStep.eq_undefined
    (hunique : ∀ {ops : Fin P → Op} {replies replies' : ∀ r, Reply (ops r)},
      Matches ops replies → Matches ops replies' → replies = replies')
    {progs : Fin P → Prog Op Reply ε α} {trace trace' : List (Fin P → Op)} {q : Fin P} {e : ε}
    {ending : Ending P ε α} (h : InStep Matches Undefined progs trace (.undefined q e))
    (h' : InStep Matches Undefined progs trace' ending) :
    (∃ q' e', ending = .undefined q' e') ∨ ∃ es, ending = .stopped es ∧ es q = e := by
  generalize hend : Ending.undefined q e = first at h
  induction h generalizing trace' with
  | returned a => cases hend
  | stopped es => cases hend
  | @undefined progs r e' hstop _ =>
    obtain ⟨rfl, rfl⟩ := Ending.undefined.inj hend
    cases h' with
    | returned a => cases hstop
    | stopped es => exact Or.inr ⟨es, rfl, Prog.stop.inj hstop⟩
    | undefined r' _ _ => exact Or.inl ⟨_, _, rfl⟩
    | round _ _ => cases hstop
  | @round ops replies next trace first hmatch _ ih =>
    obtain ⟨replies', rest, -, hmatch', hrest⟩ := h'.of_call (Nat.zero_lt_of_lt q.isLt)
    obtain rfl := hunique hmatch hmatch'
    exact ih hrest hend

/-- The ranks run in step to this ending. -/
def Together (progs : Fin P → Prog Op Reply ε α) (ending : Ending P ε α) : Prop :=
  ∃ trace, InStep Matches Undefined progs trace ending

namespace Together

variable {Matches Undefined} {progs : Fin P → Prog Op Reply ε α}

theorem done (a : Fin P → α) :
    Together Matches Undefined (fun r => (pure (a r) : Prog Op Reply ε α)) (.returned a) :=
  ⟨[], .returned a⟩

/-- A matching round, and the ranks go on from its replies. -/
theorem round {ops : Fin P → Op} {replies : ∀ r, Reply (ops r)}
    {next : ∀ r, Reply (ops r) → Prog Op Reply ε α} {ending : Ending P ε α}
    (hmatch : Matches ops replies)
    (h : Together Matches Undefined (fun r => next r (replies r)) ending) :
    Together Matches Undefined (fun r => issue (ops r) >>= next r) ending := by
  obtain ⟨trace, hrun⟩ := h
  exact ⟨ops :: trace, .round hmatch hrun⟩

theorem bind {a : Fin P → α} {f : Fin P → α → Prog Op Reply ε β} {ending : Ending P ε β}
    (hp : Together Matches Undefined progs (.returned a))
    (hf : Together Matches Undefined (fun r => f r (a r)) ending) :
    Together Matches Undefined (fun r => progs r >>= f r) ending := by
  obtain ⟨trace, hrun⟩ := hp
  obtain ⟨rest, hrest⟩ := hf
  exact ⟨trace ++ rest, hrun.bind Matches Undefined hrest⟩

theorem bind_stopped {e : Fin P → ε} (f : Fin P → α → Prog Op Reply ε β)
    (hp : Together Matches Undefined progs (.stopped e)) :
    Together Matches Undefined (fun r => progs r >>= f r) (.stopped e) := by
  obtain ⟨trace, hrun⟩ := hp
  refine ⟨trace, ?_⟩
  generalize hend : Ending.stopped e = ending at hrun
  induction hrun with
  | returned a => cases hend
  | stopped e' =>
    obtain rfl := Ending.stopped.inj hend
    exact .stopped e
  | undefined r _ _ => cases hend
  | round hmatch _ ih => exact .round hmatch (ih hend)

theorem bind_undefined {q : Fin P} {e : ε} (f : Fin P → α → Prog Op Reply ε β)
    (hp : Together Matches Undefined progs (.undefined q e)) :
    Together Matches Undefined (fun r => progs r >>= f r) (.undefined q e) := by
  obtain ⟨trace, hrun⟩ := hp
  refine ⟨trace, ?_⟩
  generalize hend : Ending.undefined q e = ending at hrun
  induction hrun with
  | returned a => cases hend
  | stopped e' => cases hend
  | undefined r hstop hundef =>
    obtain ⟨rfl, rfl⟩ := Ending.undefined.inj hend
    refine .undefined q ?_ hundef
    rw [hstop]
    rfl
  | round hmatch _ ih => exact .round hmatch (ih hend)

theorem lifted {f : Fin P → Except ε α} {a : Fin P → α} (h : ∀ r, f r = .ok (a r)) :
    Together Matches Undefined (fun r => (Prog.lift (f r) : Prog Op Reply ε α)) (.returned a) := by
  simp only [h]
  exact ⟨[], .returned a⟩

/-- A computation that succeeds on every rank. -/
theorem lift {f : Fin P → Except ε α} {a : Fin P → α} (h : ∀ r, f r = .ok (a r))
    {next : Fin P → α → Prog Op Reply ε β} {ending : Ending P ε β}
    (hnext : Together Matches Undefined (fun r => next r (a r)) ending) :
    Together Matches Undefined (fun r => Prog.lift (f r) >>= next r) ending := by
  simp only [h]
  exact hnext

/-- A computation that stops on every rank. -/
theorem lift_stopped {f : Fin P → Except ε α} {e : Fin P → ε} (h : ∀ r, f r = .error (e r))
    (next : Fin P → α → Prog Op Reply ε β) :
    Together Matches Undefined (fun r => Prog.lift (f r) >>= next r) (.stopped e) := by
  simp only [h]
  exact ⟨[], .stopped e⟩

/-- A computation that leaves the defined behaviour on one rank. -/
theorem lift_undefined {f : Fin P → Except ε α} {q : Fin P} {e : ε} (h : f q = .error e)
    (he : Undefined e) (next : Fin P → α → Prog Op Reply ε β) :
    Together Matches Undefined (fun r => Prog.lift (f r) >>= next r) (.undefined q e) := by
  refine ⟨[], .undefined q ?_ he⟩
  rw [h]
  rfl

theorem foldlM {ι : Type} {step : Fin P → σ → ι → Prog Op Reply ε σ}
    {all : (Fin P → σ) → ι → Except ε (Fin P → σ)}
    (hstep : ∀ s i next, all s i = .ok next →
      Together Matches Undefined (fun r => step r (s r) i) (.returned next))
    (l : List ι) {s last : Fin P → σ} (h : l.foldlM all s = .ok last) :
    Together Matches Undefined (fun r => l.foldlM (step r) (s r)) (.returned last) := by
  induction l generalizing s with
  | nil =>
    obtain rfl := Except.ok.inj h
    exact done s
  | cons i l ih =>
    rw [List.foldlM_cons] at h
    cases hfirst : all s i with
    | error e =>
      rw [hfirst] at h
      cases h
    | ok next =>
      rw [hfirst] at h
      exact (hstep s i next hfirst).bind (ih h)

/-- One rank's part of what a pass of the loop on all ranks hands on. -/
def spread (outcome : (Fin P → σ) ⊕ (Fin P → ρ)) (r : Fin P) : σ ⊕ ρ :=
  match outcome with
  | .inl next => .inl (next r)
  | .inr result => .inr (result r)

variable {exhausted : ε} {step : Fin P → σ → Prog Op Reply ε (σ ⊕ ρ)}

/-- All ranks leave the loop in the same pass. -/
theorem loop_leave (fuel : ℕ) {s : Fin P → σ} {result : Fin P → ρ}
    (h : Together Matches Undefined (fun r => step r (s r)) (.returned (spread (.inr result)))) :
    Together Matches Undefined (fun r => Prog.loop exhausted (step r) (fuel + 1) (s r))
      (.returned fun r => (1, result r)) :=
  h.bind (done fun r => (1, result r))

theorem loop_go {fuel n : ℕ} {s next : Fin P → σ} {result : Fin P → ρ}
    (h : Together Matches Undefined (fun r => step r (s r)) (.returned (spread (.inl next))))
    (hrest : Together Matches Undefined (fun r => Prog.loop exhausted (step r) fuel (next r))
      (.returned fun r => (n, result r))) :
    Together Matches Undefined (fun r => Prog.loop exhausted (step r) (fuel + 1) (s r))
      (.returned fun r => (n + 1, result r)) :=
  h.bind (hrest.bind (done fun r => (n + 1, result r)))

theorem loop_go_undefined {fuel : ℕ} {s next : Fin P → σ} {q : Fin P} {e : ε}
    (h : Together Matches Undefined (fun r => step r (s r)) (.returned (spread (.inl next))))
    (hrest : Together Matches Undefined (fun r => Prog.loop exhausted (step r) fuel (next r))
      (.undefined q e)) :
    Together Matches Undefined (fun r => Prog.loop exhausted (step r) (fuel + 1) (s r))
      (.undefined q e) :=
  h.bind (hrest.bind_undefined fun (_ : Fin P) (x : ℕ × ρ) => .done (x.1 + 1, x.2))

end Together

end PatternSearch.Spmd
