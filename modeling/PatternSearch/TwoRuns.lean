import PatternSearch.Loops

/-!
Two runs side by side. They end alike when both return, with related values, or when both
stop with the same fault. Sequencing, running on all ranks, folds and fuelled loops keep
runs alike as long as every step does.
-/

namespace PatternSearch.TwoRuns

open Machine Loops

variable {α β γ δ σ τ ρ π : Type}

/-- Both runs return related values, or both stop with the same fault. -/
inductive Alike (R : α → β → Prop) : Except Fault α → Except Fault β → Prop
  | ok {a : α} {b : β} : R a b → Alike R (.ok a) (.ok b)
  | error (e : Fault) : Alike R (.error e) (.error e)

namespace Alike

variable {R : α → β → Prop} {Q : γ → δ → Prop}

theorem refl (x : Except Fault α) : Alike Eq x x := by
  cases x with
  | error e => exact .error e
  | ok a => exact .ok rfl

theorem eq {x y : Except Fault α} (h : Alike Eq x y) : x = y := by
  cases h with
  | ok hab => rw [hab]
  | error e => rfl

theorem mono {R' : α → β → Prop} {x : Except Fault α} {y : Except Fault β} (h : Alike R x y)
    (hR : ∀ a b, R a b → R' a b) : Alike R' x y := by
  cases h with
  | ok hab => exact .ok (hR _ _ hab)
  | error e => exact .error e

theorem bind {x : Except Fault α} {y : Except Fault β} {f : α → Except Fault γ}
    {g : β → Except Fault δ} (h : Alike R x y) (hfg : ∀ a b, R a b → Alike Q (f a) (g b)) :
    Alike Q (x >>= f) (y >>= g) := by
  cases h with
  | ok hab => exact hfg _ _ hab
  | error e => exact .error e

/-- After a common beginning that both runs share. -/
theorem bind_same {x : Except Fault α} {f : α → Except Fault γ} {g : α → Except Fault δ}
    (h : ∀ a, x = .ok a → Alike Q (f a) (g a)) : Alike Q (x >>= f) (x >>= g) := by
  cases x with
  | error e => exact .error e
  | ok a => exact h a rfl

theorem onRanks {P : ℕ} {R : Fin P → α → β → Prop} {f : Fin P → Except Fault α}
    {g : Fin P → Except Fault β} (h : ∀ r, Alike (R r) (f r) (g r)) :
    Alike (fun a b => ∀ r, R r (a r) (b r)) (Machine.onRanks f) (Machine.onRanks g) := by
  induction P with
  | zero => exact .ok fun r => r.elim0
  | succ P ih =>
    have hrest := ih (R := fun r => R r.succ) fun r => h r.succ
    rw [Machine.onRanks, Machine.onRanks]
    apply (h 0).bind
    intro a b hab
    apply hrest.bind
    intro as bs hall
    refine .ok fun r => ?_
    cases r using Fin.cases with
    | zero => exact hab
    | succ r => exact hall r

theorem foldlM {ι : Type} {S : σ → τ → Prop} {f : σ → ι → Except Fault σ}
    {g : τ → ι → Except Fault τ} (l : List ι)
    (hstep : ∀ s t i, S s t → Alike S (f s i) (g t i)) {s : σ} {t : τ} (h : S s t) :
    Alike S (l.foldlM f s) (l.foldlM g t) := by
  induction l generalizing s t with
  | nil => exact .ok h
  | cons i l ih =>
    rw [List.foldlM_cons, List.foldlM_cons]
    exact (hstep s t i h).bind fun _ _ hnext => ih hnext

/-- What a step of either loop hands on. -/
inductive Steps (S : σ → τ → Prop) (Q : ρ → π → Prop) : σ ⊕ ρ → τ ⊕ π → Prop
  | go {s : σ} {t : τ} : S s t → Steps S Q (.inl s) (.inl t)
  | leave {a : ρ} {b : π} : Q a b → Steps S Q (.inr a) (.inr b)

theorem loop {S : σ → τ → Prop} {Q : ρ → π → Prop} {f : σ → Except Fault (σ ⊕ ρ)}
    {g : τ → Except Fault (τ ⊕ π)} (hstep : ∀ s t, S s t → Alike (Steps S Q) (f s) (g t))
    (fuel : ℕ) {s : σ} {t : τ} (h : S s t) :
    Alike Q (Loops.loop f fuel s) (Loops.loop g fuel t) := by
  induction fuel generalizing s t with
  | zero => exact .error .outOfFuel
  | succ fuel ih =>
    rw [Loops.loop, Loops.loop]
    apply (hstep s t h).bind
    intro a b hab
    cases hab with
    | go hnext => exact ih hnext
    | leave hlast => exact .ok hlast

end Alike

end PatternSearch.TwoRuns
