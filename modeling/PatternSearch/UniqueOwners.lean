import Mathlib.Logic.Function.Basic
import Mathlib.Order.Basic

/-!
Blocks of memory and those who hold them. A block that was given up without being freed is
lost; every other live block has one holder. A holder then has a value of its own: what is done
to its block no other holder can see, and passing the block on passes the value on.
-/

namespace PatternSearch.UniqueOwners

open Function

variable {A I V : Type}

/-- What a holder sees behind the address it holds. -/
def view (heap : A → Option V) (holds : I → Option A) (i : I) : Option V := (holds i).bind heap

/-- No address is held twice or dead, and every live block is held or lost. -/
structure Owned (heap : A → Option V) (holds : I → Option A) (lost : List A) : Prop where
  live : ∀ {i a}, holds i = some a → heap a ≠ none
  once : ∀ {i j a}, holds i = some a → holds j = some a → i = j
  known : ∀ {a}, heap a ≠ none → (∃ i, holds i = some a) ∨ a ∈ lost
  apart : ∀ {i a}, holds i = some a → a ∉ lost
  kept : ∀ {a}, a ∈ lost → heap a ≠ none

theorem view_of_held {heap : A → Option V} {holds : I → Option A} {i : I} {a : A}
    (h : holds i = some a) : view heap holds i = heap a := by
  rw [view, h, Option.bind_some]

theorem owned_nothing : Owned (fun _ : A => (none : Option V)) (fun _ : I => none) [] where
  live := nofun
  once := nofun
  known h := absurd rfl h
  apart := nofun
  kept := nofun

section Updates

variable [DecidableEq I] {heap : A → Option V} {holds : I → Option A} {i k : I} {a c : A}
  {b : Option A}

theorem held_update :
    update holds i b k = some c ↔ k = i ∧ b = some c ∨ k ≠ i ∧ holds k = some c := by
  by_cases hk : k = i
  · subst hk
    simp
  · simp [hk]

theorem held_cleared : update holds i none k = some c ↔ k ≠ i ∧ holds k = some c := by
  rw [held_update]
  constructor
  · rintro (⟨-, hno⟩ | hheld)
    · cases hno
    · exact hheld
  · exact .inr

/-- A change of holders alone. -/
theorem view_update_holds (b : Option A) :
    view heap (update holds i b) = update (view heap holds) i (b.bind heap) := by
  funext k
  by_cases hk : k = i
  · subst hk
    rw [view, update_self, update_self]
  · rw [update_of_ne hk, view, update_of_ne hk, view]

variable [DecidableEq A]

omit [DecidableEq I] in
theorem live_update {w : Option V} :
    update heap a w c ≠ none ↔ c = a ∧ w ≠ none ∨ c ≠ a ∧ heap c ≠ none := by
  by_cases hc : c = a
  · subst hc
    simp
  · simp [hc]

/-- A change to one block and its holder, seen by all of them. -/
theorem view_update (hsep : ∀ k, k ≠ i → holds k ≠ some a) (b : Option A) (w : Option V) :
    view (update heap a w) (update holds i b) =
      update (view heap holds) i (b.bind (update heap a w)) := by
  funext k
  by_cases hk : k = i
  · subst hk
    rw [view, update_self, update_self]
  · rw [update_of_ne hk, view, update_of_ne hk, view]
    cases hheld : holds k with
    | none => rfl
    | some c =>
      have hc : c ≠ a := by
        rintro rfl
        exact hsep k hk hheld
      exact update_of_ne hc ..

end Updates

namespace Owned

variable [DecidableEq A] [DecidableEq I] {heap : A → Option V} {holds : I → Option A}
  {lost : List A} {i j : I} {a : A} (h : Owned heap holds lost)
include h

omit [DecidableEq A] [DecidableEq I] in
theorem not_held_of_dead (ha : heap a = none) (k : I) : holds k ≠ some a := fun hk => h.live hk ha

omit [DecidableEq A] [DecidableEq I] in
theorem others (hi : holds i = some a) (k : I) (hk : k ≠ i) : holds k ≠ some a :=
  fun hheld => hk (h.once hheld hi)

/-- A new block goes to one who holds nothing. -/
theorem acquire (hi : holds i = none) (ha : heap a = none) (v : V) :
    Owned (update heap a (some v)) (update holds i (some a)) lost where
  live {k c} hk := by
    rcases held_update.mp hk with ⟨-, hc⟩ | ⟨-, hheld⟩
    · exact live_update.mpr (.inl ⟨(Option.some.inj hc).symm, nofun⟩)
    · refine live_update.mpr (.inr ⟨?_, h.live hheld⟩)
      rintro rfl
      exact h.live hheld ha
  once {k l c} hk hl := by
    rcases held_update.mp hk with ⟨rfl, hc⟩ | ⟨-, hk⟩
    · rcases held_update.mp hl with ⟨rfl, -⟩ | ⟨-, hl⟩
      · rfl
      · exact absurd (hl.trans hc.symm) (h.not_held_of_dead ha l)
    · rcases held_update.mp hl with ⟨-, hc⟩ | ⟨-, hl⟩
      · exact absurd (hk.trans hc.symm) (h.not_held_of_dead ha k)
      · exact h.once hk hl
  known {c} hc := by
    rcases live_update.mp hc with ⟨rfl, -⟩ | ⟨-, hlive⟩
    · exact .inl ⟨i, update_self ..⟩
    · refine (h.known hlive).imp_left ?_
      rintro ⟨k, hk⟩
      refine ⟨k, held_update.mpr (.inr ⟨?_, hk⟩)⟩
      rintro rfl
      rw [hi] at hk
      cases hk
  apart {k c} hk := by
    rcases held_update.mp hk with ⟨-, hc⟩ | ⟨-, hheld⟩
    · intro hlost
      rw [← Option.some.inj hc] at hlost
      exact h.kept hlost ha
    · exact h.apart hheld
  kept {c} hlost := by
    refine live_update.mpr (.inr ⟨?_, h.kept hlost⟩)
    rintro rfl
    exact h.kept hlost ha

theorem view_acquire (ha : heap a = none) (v : V) :
    view (update heap a (some v)) (update holds i (some a)) =
      update (view heap holds) i (some v) := by
  rw [view_update (fun k _ => h.not_held_of_dead ha k), Option.bind_some, update_self]

/-- The holder of a block frees it. -/
theorem release (hi : holds i = some a) :
    Owned (update heap a none) (update holds i none) lost where
  live {k c} hk := by
    obtain ⟨hne, hheld⟩ := held_cleared.mp hk
    refine live_update.mpr (.inr ⟨?_, h.live hheld⟩)
    rintro rfl
    exact hne (h.once hheld hi)
  once {k l c} hk hl := h.once (held_cleared.mp hk).2 (held_cleared.mp hl).2
  known {c} hc := by
    rcases live_update.mp hc with ⟨-, hno⟩ | ⟨hne, hlive⟩
    · exact absurd rfl hno
    · refine (h.known hlive).imp_left ?_
      rintro ⟨k, hk⟩
      refine ⟨k, held_cleared.mpr ⟨?_, hk⟩⟩
      rintro rfl
      exact hne (Option.some.inj (hk.symm.trans hi))
  apart {k c} hk := h.apart (held_cleared.mp hk).2
  kept {c} hlost := by
    refine live_update.mpr (.inr ⟨?_, h.kept hlost⟩)
    rintro rfl
    exact h.apart hi hlost

theorem view_release (hi : holds i = some a) :
    view (update heap a none) (update holds i none) = update (view heap holds) i none :=
  view_update (h.others hi) none none

omit [DecidableEq A] in
/-- The holder of a block gives it up, and nobody frees it. -/
theorem lose (hi : holds i = some a) : Owned heap (update holds i none) (a :: lost) where
  live {k c} hk := h.live (held_cleared.mp hk).2
  once {k l c} hk hl := h.once (held_cleared.mp hk).2 (held_cleared.mp hl).2
  known {c} hc := by
    rcases h.known hc with ⟨k, hk⟩ | hlost
    · by_cases hki : k = i
      · subst hki
        rw [Option.some.inj (hk.symm.trans hi)]
        exact .inr List.mem_cons_self
      · exact .inl ⟨k, held_cleared.mpr ⟨hki, hk⟩⟩
    · exact .inr (List.mem_cons_of_mem a hlost)
  apart {k c} hk := by
    obtain ⟨hne, hheld⟩ := held_cleared.mp hk
    intro hlost
    rcases List.mem_cons.mp hlost with rfl | hlost
    · exact hne (h.once hheld hi)
    · exact h.apart hheld hlost
  kept {c} hlost := by
    rcases List.mem_cons.mp hlost with rfl | hlost
    · exact h.live hi
    · exact h.kept hlost

omit [DecidableEq A] in
/-- What one holds goes to another who holds nothing. -/
theorem pass (hj : holds j = none) :
    Owned heap (update (update holds i none) j (holds i)) lost where
  live {k c} hk := by
    rcases held_update.mp hk with ⟨-, hc⟩ | ⟨-, hk⟩
    · exact h.live hc
    · exact h.live (held_cleared.mp hk).2
  once {k l c} hk hl := by
    rcases held_update.mp hk with ⟨rfl, hc⟩ | ⟨-, hk⟩
    · rcases held_update.mp hl with ⟨rfl, -⟩ | ⟨-, hl⟩
      · rfl
      · obtain ⟨hne, hl⟩ := held_cleared.mp hl
        exact absurd (h.once hl hc) hne
    · obtain ⟨hne, hk⟩ := held_cleared.mp hk
      rcases held_update.mp hl with ⟨-, hc⟩ | ⟨-, hl⟩
      · exact absurd (h.once hk hc) hne
      · exact h.once hk (held_cleared.mp hl).2
  known {c} hc := by
    refine (h.known hc).imp_left ?_
    rintro ⟨k, hk⟩
    by_cases hki : k = i
    · subst hki
      exact ⟨j, held_update.mpr (.inl ⟨rfl, hk⟩)⟩
    · refine ⟨k, held_update.mpr (.inr ⟨?_, held_cleared.mpr ⟨hki, hk⟩⟩)⟩
      rintro rfl
      rw [hj] at hk
      cases hk
  apart {k c} hk := by
    rcases held_update.mp hk with ⟨-, hc⟩ | ⟨-, hk⟩
    · exact h.apart hc
    · exact h.apart (held_cleared.mp hk).2
  kept := h.kept

omit [DecidableEq A] h in
theorem view_pass :
    view heap (update (update holds i none) j (holds i)) =
      update (update (view heap holds) i none) j (view heap holds i) := by
  rw [view_update_holds, view_update_holds]
  rfl

omit [DecidableEq I] in
/-- The holder of a block writes to it. -/
theorem store (hi : holds i = some a) (v : V) : Owned (update heap a (some v)) holds lost where
  live {k c} hk := by
    by_cases hc : c = a
    · exact live_update.mpr (.inl ⟨hc, nofun⟩)
    · exact live_update.mpr (.inr ⟨hc, h.live hk⟩)
  once := h.once
  known {c} hc := by
    rcases live_update.mp hc with ⟨rfl, -⟩ | ⟨-, hlive⟩
    · exact .inl ⟨i, hi⟩
    · exact h.known hlive
  apart := h.apart
  kept {c} hlost := by
    by_cases hc : c = a
    · exact live_update.mpr (.inl ⟨hc, nofun⟩)
    · exact live_update.mpr (.inr ⟨hc, h.kept hlost⟩)

theorem view_store (hi : holds i = some a) (v : V) :
    view (update heap a (some v)) holds = update (view heap holds) i (some v) := by
  have hview : view (update heap a (some v)) (update holds i (some a)) = _ :=
    view_update (h.others hi) (some a) (some v)
  rwa [← hi, update_eq_self, hi, Option.bind_some, update_self] at hview

end Owned

end PatternSearch.UniqueOwners
