import Mathlib.Algebra.GroupWithZero.Action.Defs
import Mathlib.Algebra.Order.BigOperators.Group.Finset
import Mathlib.Data.Fintype.EquivFin
import Mathlib.Data.Fintype.Lattice
import PatternSearch.Spmd

/-!
The ranks of one job, each at its own pace. A rank issues a call, stays inside it until the
library lets it out with a reply, and goes on; a rank that stops takes the whole job down.
When a rank may leave a call is up to the library: it may hold everyone until all are there,
or let a rank out as soon as what it waits for has arrived. If the programs run in step, then
in any order of these events every job ends, and it ends as the run in step does.
-/

namespace PatternSearch.Interleaving

open Spmd Prog

variable {Op : Type} {Reply : Op → Type} {ε α : Type} {P : ℕ}

/-- Where a rank stands: on its own, or inside a call. -/
inductive Standing (Op : Type) (Reply : Op → Type) (ε α : Type) : Type
  | computing (p : Prog Op Reply ε α)
  | inside (op : Op) (next : Reply op → Prog Op Reply ε α)

/-- Where the ranks stand, and the calls each of them has issued so far. -/
structure Flight (P : ℕ) (Op : Type) (Reply : Op → Type) (ε α : Type) : Type where
  rank : Fin P → Standing Op Reply ε α
  calls : Fin P → List Op

inductive Job (P : ℕ) (Op : Type) (Reply : Op → Type) (ε α : Type) : Type
  | running (f : Flight P Op Reply ε α)
  /-- This rank has stopped, and with it the job. -/
  | aborted (r : Fin P) (e : ε)

def start (progs : Fin P → Prog Op Reply ε α) : Job P Op Reply ε α :=
  .running { rank := fun r => .computing (progs r), calls := fun _ => [] }

namespace Flight

/-- The calls of a round that have been issued. -/
def posted (f : Flight P Op Reply ε α) (k : ℕ) (r : Fin P) : Option Op := (f.calls r)[k]?

/-- The rank goes inside its next call. -/
def enter (f : Flight P Op Reply ε α) (r : Fin P) (op : Op)
    (next : Reply op → Prog Op Reply ε α) : Flight P Op Reply ε α where
  rank := Function.update f.rank r (.inside op next)
  calls := Function.update f.calls r (f.calls r ++ [op])

/-- The rank is out of its call and goes on with this program. -/
def resume (f : Flight P Op Reply ε α) (r : Fin P) (p : Prog Op Reply ε α) :
    Flight P Op Reply ε α :=
  { f with rank := Function.update f.rank r (.computing p) }

end Flight

/-- When the library lets a rank out of its call, with the calls of the round that have been
issued, and with which reply. -/
abbrev Library (P : ℕ) (Op : Type) (Reply : Op → Type) : Type :=
  (r : Fin P) → (posted : Fin P → Option Op) → (op : Op) → Reply op → Prop

variable (Delivers : Library P Op Reply)

/-- One event. -/
inductive Step : Job P Op Reply ε α → Job P Op Reply ε α → Prop
  | issue {f : Flight P Op Reply ε α} (r : Fin P) {op : Op}
      {next : Reply op → Prog Op Reply ε α} :
      f.rank r = .computing (.call op next) → Step (.running f) (.running (f.enter r op next))
  | leave {f : Flight P Op Reply ε α} (r : Fin P) {op : Op}
      {next : Reply op → Prog Op Reply ε α} {reply : Reply op} :
      f.rank r = .inside op next → Delivers r (f.posted ((f.calls r).length - 1)) op reply →
      Step (.running f) (.running (f.resume r (next reply)))
  | abort {f : Flight P Op Reply ε α} (r : Fin P) {e : ε} :
      f.rank r = .computing (.stop e) → Step (.running f) (.aborted r e)

/-- This many events lead from the one to the other. -/
inductive Run : ℕ → Job P Op Reply ε α → Job P Op Reply ε α → Prop
  | none (job : Job P Op Reply ε α) : Run 0 job job
  | more {n : ℕ} {job job' job'' : Job P Op Reply ε α} : Run n job job' →
      Step Delivers job' job'' → Run (n + 1) job job''

section Libraries

variable (Matches : (ops : Fin P → Op) → (∀ r, Reply (ops r)) → Prop)

/-- A library that serves matching calls: whenever it lets a rank out, the reply is that of
the matching round, and once all calls of the round are there every rank can leave. -/
structure Serves : Prop where
  reply_eq : ∀ {ops : Fin P → Op} {replies : ∀ r, Reply (ops r)} {posted : Fin P → Option Op},
    Matches ops replies → (∀ q op, posted q = some op → op = ops q) →
    ∀ {r : Fin P} {reply : Reply (ops r)}, Delivers r posted (ops r) reply → reply = replies r
  complete : ∀ {ops : Fin P → Op} {replies : ∀ r, Reply (ops r)}, Matches ops replies →
    ∀ r, Delivers r (fun q => some (ops q)) (ops r) (replies r)

variable {Delivers Matches} in
theorem Serves.heq_reply (h : Serves Delivers Matches) {ops : Fin P → Op}
    {replies : ∀ r, Reply (ops r)} {posted : Fin P → Option Op} (hmatch : Matches ops replies)
    (hposted : ∀ q op, posted q = some op → op = ops q) {r : Fin P} {op : Op} {reply : Reply op}
    (hop : op = ops r) (hdelivers : Delivers r posted op reply) : HEq reply (replies r) := by
  subst hop
  exact heq_of_eq (h.reply_eq hmatch hposted hdelivers)

/-- The library that holds every rank until all are there. -/
inductive Synchronizing : Library P Op Reply
  | all {ops : Fin P → Op} {replies : ∀ r, Reply (ops r)} (r : Fin P) :
      Matches ops replies → Synchronizing r (fun q => some (ops q)) (ops r) (replies r)

variable {Matches}

theorem Synchronizing.exists_round {r : Fin P} {posted : Fin P → Option Op} {op : Op}
    {reply : Reply op} (h : Synchronizing Matches r posted op reply) :
    ∃ (ops : Fin P → Op) (replies : ∀ r, Reply (ops r)), Matches ops replies ∧
      posted = (fun q => some (ops q)) ∧ HEq (replies r) reply := by
  cases h with
  | all r hmatch => exact ⟨_, _, hmatch, rfl, HEq.rfl⟩

/-- To hold everyone is to serve, when the calls of a round determine its replies. -/
theorem serves_of_unique
    (hunique : ∀ {ops : Fin P → Op} {replies replies' : ∀ r, Reply (ops r)},
      Matches ops replies → Matches ops replies' → replies = replies') :
    Serves (Synchronizing Matches) Matches where
  reply_eq {ops replies posted} hmatch hposted {r reply} hdelivers := by
    obtain ⟨ops', replies', hmatch', rfl, hreply⟩ := hdelivers.exists_round
    obtain rfl : ops' = ops := funext fun q => hposted q (ops' q) rfl
    exact (eq_of_heq hreply).symm.trans (congrFun (hunique hmatch' hmatch) r)
  complete hmatch r := .all r hmatch

end Libraries

section Stages

variable (Matches : (ops : Fin P → Op) → (∀ r, Reply (ops r)) → Prop) (Undefined : ε → Prop)

/-- The programs of the ranks after each round of a trace. -/
def Stages (rounds : List (Fin P → Op)) (stage : ℕ → Fin P → Prog Op Reply ε α) : Prop :=
  ∀ k (hk : k < rounds.length), ∃ (replies : ∀ r, Reply (rounds[k] r))
    (next : ∀ r, Reply (rounds[k] r) → Prog Op Reply ε α), Matches rounds[k] replies ∧
      ∀ r, stage k r = .call (rounds[k] r) (next r) ∧ stage (k + 1) r = next r (replies r)

/-- How an ending leaves the programs. -/
inductive LeavesAt : Ending P ε α → (Fin P → Prog Op Reply ε α) → Prop
  | returned (a : Fin P → α) : LeavesAt (.returned a) fun r => .done (a r)
  | stopped (e : Fin P → ε) : LeavesAt (.stopped e) fun r => .stop (e r)
  | undefined (r : Fin P) (e : ε) (progs : Fin P → Prog Op Reply ε α) :
      LeavesAt (.undefined r e) progs

theorem exists_stages {progs : Fin P → Prog Op Reply ε α} {rounds : List (Fin P → Op)}
    {ending : Ending P ε α} (h : InStep Matches Undefined progs rounds ending) :
    ∃ stage, stage 0 = progs ∧ Stages Matches rounds stage ∧
      LeavesAt ending (stage rounds.length) := by
  induction h with
  | returned a => exact ⟨fun _ => _, rfl, fun k hk => absurd hk (Nat.not_lt_zero k), .returned a⟩
  | stopped e => exact ⟨fun _ => _, rfl, fun k hk => absurd hk (Nat.not_lt_zero k), .stopped e⟩
  | @undefined progs r e _ _ =>
    exact ⟨fun _ => progs, rfl, fun k hk => absurd hk (Nat.not_lt_zero k), .undefined r e progs⟩
  | @round ops replies next rounds ending hmatch _ ih =>
    obtain ⟨stage, hstart, hstages, hlast⟩ := ih
    refine ⟨fun k => Nat.casesOn k (fun r => .call (ops r) (next r)) stage, rfl, ?_, hlast⟩
    intro k hk
    cases k with
    | zero => exact ⟨replies, next, hmatch, fun r => ⟨rfl, congrFun hstart r⟩⟩
    | succ k => exact hstages k (Nat.lt_of_succ_lt_succ hk)

end Stages

section Runs

variable {Delivers} {Matches : (ops : Fin P → Op) → (∀ r, Reply (ops r)) → Prop}
  {rounds : List (Fin P → Op)} {stage : ℕ → Fin P → Prog Op Reply ε α}
  {f f' : Flight P Op Reply ε α}

/-- The calls of a rank in the first rounds of a trace. -/
def firstCalls (rounds : List (Fin P → Op)) (r : Fin P) (k : ℕ) : List Op :=
  (rounds.take k).map fun ops => ops r

theorem length_firstCalls (r : Fin P) {k : ℕ} (hk : k ≤ rounds.length) :
    (firstCalls rounds r k).length = k := by
  rw [firstCalls, List.length_map, List.length_take, Nat.min_eq_left hk]

theorem firstCalls_succ (r : Fin P) {k : ℕ} (hk : k < rounds.length) :
    firstCalls rounds r (k + 1) = firstCalls rounds r k ++ [rounds[k] r] := by
  rw [firstCalls, List.take_succ_eq_append_getElem hk, List.map_append]
  rfl

theorem getElem?_firstCalls {r : Fin P} {k n : ℕ} (hk : k < n) (hn : n ≤ rounds.length) :
    (firstCalls rounds r n)[k]? = some (rounds[k] r) := by
  rw [firstCalls, List.getElem?_map, List.getElem?_take_of_lt hk,
    List.getElem?_eq_getElem (by omega)]
  rfl

/-- The rank is where the run in step is after some rounds, or inside the call that follows. -/
def OnCourse (rounds : List (Fin P → Op)) (stage : ℕ → Fin P → Prog Op Reply ε α)
    (f : Flight P Op Reply ε α) (r : Fin P) : Prop :=
  (∃ k ≤ rounds.length, f.rank r = .computing (stage k r) ∧
    f.calls r = firstCalls rounds r k) ∨
  ∃ (k : ℕ) (hk : k < rounds.length) (next : Reply (rounds[k] r) → Prog Op Reply ε α),
    stage k r = .call (rounds[k] r) next ∧ f.rank r = .inside (rounds[k] r) next ∧
      f.calls r = firstCalls rounds r (k + 1)

theorem OnCourse.calls_eq {r : Fin P} (h : OnCourse rounds stage f r) :
    ∃ k ≤ rounds.length, f.calls r = firstCalls rounds r k := by
  rcases h with ⟨k, hk, -, hcalls⟩ | ⟨k, hk, next, -, -, hcalls⟩
  · exact ⟨k, hk, hcalls⟩
  · exact ⟨k + 1, hk, hcalls⟩

/-- What has been issued for a round is of that round. -/
theorem OnCourse.posted_eq {r : Fin P} (h : OnCourse rounds stage f r) {k : ℕ}
    (hk : k < rounds.length) {op : Op} (hop : f.posted k r = some op) : op = rounds[k] r := by
  obtain ⟨n, hn, hcalls⟩ := h.calls_eq
  unfold Flight.posted at hop
  rw [hcalls] at hop
  by_cases hlt : k < n
  · rw [getElem?_firstCalls hlt hn] at hop
    exact (Option.some.inj hop).symm
  · rw [List.getElem?_eq_none (by rw [length_firstCalls r hn]; omega)] at hop
    cases hop

/-- The events that have brought a rank to where it is: two for each call it is out of, one
for the call it is inside. -/
def Flight.pace (f : Flight P Op Reply ε α) (r : Fin P) : ℕ :=
  match f.rank r with
  | .computing _ => 2 * (f.calls r).length
  | .inside _ _ => 2 * (f.calls r).length - 1

theorem OnCourse.pace_le {r : Fin P} (h : OnCourse rounds stage f r) :
    f.pace r ≤ 2 * rounds.length := by
  unfold Flight.pace
  obtain ⟨k, hk, hcalls⟩ := h.calls_eq
  rw [hcalls, length_firstCalls r hk]
  cases f.rank r with
  | computing p => exact Nat.mul_le_mul_left 2 hk
  | inside op next =>
    dsimp only
    omega

theorem sum_eq_succ {x y : Fin P → ℕ} {r : Fin P} (hr : y r = x r + 1)
    (hrest : ∀ q, q ≠ r → y q = x q) : ∑ q, y q = (∑ q, x q) + 1 := by
  have hothers : ∑ q ∈ Finset.univ.erase r, y q = ∑ q ∈ Finset.univ.erase r, x q :=
    Finset.sum_congr rfl fun q hq => hrest q (Finset.ne_of_mem_erase hq)
  have hsplit := Finset.add_sum_erase _ x (Finset.mem_univ r)
  have hsplit' := Finset.add_sum_erase _ y (Finset.mem_univ r)
  omega

variable (hserves : Serves Delivers Matches) (hstages : Stages Matches rounds stage)
  (hlast : ∀ r op next, stage rounds.length r ≠ .call op next)

include hstages hlast in
/-- A rank on its own that has a call to issue is in front of a round. -/
theorem OnCourse.enter {r : Fin P} {op : Op} {next : Reply op → Prog Op Reply ε α}
    (h : OnCourse rounds stage f r) (hrank : f.rank r = .computing (.call op next)) :
    OnCourse rounds stage (f.enter r op next) r ∧
      (f.enter r op next).pace r = f.pace r + 1 := by
  rcases h with ⟨k, hk, hstage, hcalls⟩ | ⟨k, hk, next', -, hinside, -⟩
  · have hcall := Standing.computing.inj (hrank.symm.trans hstage)
    have hlt : k < rounds.length := by
      rcases Nat.lt_or_eq_of_le hk with hlt | rfl
      · exact hlt
      · exact absurd hcall.symm (hlast r op next)
    obtain ⟨replies, next', -, hround⟩ := hstages k hlt
    rw [(hround r).1] at hcall
    cases hcall
    constructor
    · refine .inr ⟨k, hlt, _, (hround r).1, Function.update_self .., ?_⟩
      rw [firstCalls_succ r hlt, ← hcalls]
      exact Function.update_self ..
    · simp only [Flight.pace, Flight.enter, Function.update_self, hrank, List.length_append,
        List.length_singleton]
      omega
  · rw [hrank] at hinside
    cases hinside

include hserves hstages in
/-- A rank let out of its call goes on as after that round. -/
theorem OnCourse.resume {r : Fin P} {op : Op} {next : Reply op → Prog Op Reply ε α}
    {reply : Reply op} (h : ∀ q, OnCourse rounds stage f q) (hrank : f.rank r = .inside op next)
    (hdelivers : Delivers r (f.posted ((f.calls r).length - 1)) op reply) :
    OnCourse rounds stage (f.resume r (next reply)) r ∧
      (f.resume r (next reply)).pace r = f.pace r + 1 := by
  rcases h r with ⟨k, hk, hstage, -⟩ | ⟨k, hk, next', hstage, hinside, hcalls⟩
  · rw [hrank] at hstage
    cases hstage
  · rw [hrank] at hinside
    cases hinside
    obtain ⟨replies, next', hmatch, hround⟩ := hstages k hk
    have hlen : (f.calls r).length = k + 1 := by rw [hcalls, length_firstCalls r hk]
    rw [hlen, Nat.add_sub_cancel] at hdelivers
    have hreply := hserves.reply_eq hmatch (fun q op hop => (h q).posted_eq hk hop) hdelivers
    rw [(hround r).1] at hstage
    cases hstage
    constructor
    · refine .inl ⟨k + 1, hk, ?_, hcalls⟩
      rw [(hround r).2, ← hreply]
      exact Function.update_self ..
    · simp only [Flight.pace, Flight.resume, Function.update_self, hrank, hlen]
      omega

include hserves hstages hlast in
/-- An event keeps every rank on its course and counts one. -/
theorem onCourse_step (h : ∀ r, OnCourse rounds stage f r)
    (hstep : Step Delivers (.running f) (.running f')) :
    (∀ r, OnCourse rounds stage f' r) ∧ ∑ q, f'.pace q = (∑ q, f.pace q) + 1 := by
  -- The event is one of rank r; the others stand where they stood.
  cases hstep with
  | @issue _ r op next hrank =>
    obtain ⟨hr, hpace⟩ := (h r).enter hstages hlast hrank
    refine ⟨fun q => ?_, sum_eq_succ hpace fun q hq => ?_⟩
    · by_cases hq : q = r
      · exact hq ▸ hr
      · simpa [OnCourse, Flight.enter, Function.update_of_ne hq] using h q
    · simp only [Flight.pace, Flight.enter, Function.update_of_ne hq]
  | @leave _ r op next reply hrank hdelivers =>
    obtain ⟨hr, hpace⟩ := OnCourse.resume hserves hstages h hrank hdelivers
    refine ⟨fun q => ?_, sum_eq_succ hpace fun q hq => ?_⟩
    · by_cases hq : q = r
      · exact hq ▸ hr
      · simpa [OnCourse, Flight.resume, Function.update_of_ne hq] using h q
    · simp only [Flight.pace, Flight.resume, Function.update_of_ne hq]

include hserves hstages hlast in
theorem onCourse_run {progs : Fin P → Prog Op Reply ε α} (hstart : stage 0 = progs) {n : ℕ}
    {job : Job P Op Reply ε α} (hrun : Run Delivers n (start progs) job) :
    (∀ f, job = .running f → (∀ r, OnCourse rounds stage f r) ∧ ∑ q, f.pace q = n) ∧
      ∀ r e, job = .aborted r e → ∃ f : Flight P Op Reply ε α,
        (∀ q, OnCourse rounds stage f q) ∧ (∑ q, f.pace q) + 1 = n ∧
          f.rank r = .computing (.stop e) := by
  subst hstart
  generalize hjob : start (stage 0) = first at hrun
  induction hrun with
  | none _ =>
    subst hjob
    constructor
    · intro f hf
      obtain rfl := Job.running.inj hf
      exact ⟨fun r => .inl ⟨0, Nat.zero_le _, rfl, rfl⟩, Finset.sum_const_zero⟩
    · intro r e h
      cases h
  | @more n _ job' job'' _ hstep ih =>
    have ih := ih hjob
    cases hstep with
    | @issue f r op next hrank =>
      obtain ⟨h, hn⟩ := ih.1 f rfl
      constructor
      · intro f' hf'
        obtain rfl := Job.running.inj hf'
        exact hn ▸ onCourse_step hserves hstages hlast h (.issue r hrank)
      · intro r e h
        cases h
    | @leave f r op next reply hrank hdelivers =>
      obtain ⟨h, hn⟩ := ih.1 f rfl
      constructor
      · intro f' hf'
        obtain rfl := Job.running.inj hf'
        exact hn ▸ onCourse_step hserves hstages hlast h (.leave r hrank hdelivers)
      · intro r e h
        cases h
    | @abort f r e hrank =>
      obtain ⟨h, hn⟩ := ih.1 f rfl
      constructor
      · intro f' hf'
        cases hf'
      · intro r' e' hjob'
        obtain ⟨rfl, rfl⟩ := Job.aborted.inj hjob'
        exact ⟨f, h, congrArg (· + 1) hn, hrank⟩

include hserves hstages in
/-- The rank that has come least far can always go on, unless all are at the end. -/
theorem exists_step (h : ∀ r, OnCourse rounds stage f r) {q : Fin P}
    (hq : f.rank q ≠ .computing (stage rounds.length q)) :
    ∃ job, Step Delivers (.running f) job := by
  have : Nonempty (Fin P) := ⟨q⟩
  obtain ⟨r, hleast⟩ := Finite.exists_min f.pace
  rcases h r with ⟨k, hk, hrank, hcalls⟩ | ⟨k, hk, next, hstage, hrank, hcalls⟩
  · rcases Nat.lt_or_eq_of_le hk with hlt | rfl
    · obtain ⟨replies, next, -, hround⟩ := hstages k hlt
      rw [(hround r).1] at hrank
      exact ⟨_, .issue r hrank⟩
    · -- The slowest rank is at the end, and so is rank q.
      exfalso
      have hle := hleast q
      simp only [Flight.pace, hrank, hcalls, length_firstCalls r le_rfl] at hle
      rcases h q with ⟨k, hk, hrank, hcalls⟩ | ⟨k, hk, next, -, hrank, hcalls⟩
      · simp only [hrank, hcalls, length_firstCalls q hk] at hle
        obtain rfl : k = rounds.length := by omega
        exact hq hrank
      · simp only [hrank, hcalls, length_firstCalls q hk] at hle
        omega
  · -- Every rank has issued its call of round k.
    have hposted : f.posted k = fun q => some (rounds[k] q) := by
      funext q
      have hle := hleast q
      simp only [Flight.pace, hrank, hcalls, length_firstCalls r hk] at hle
      unfold Flight.posted
      rcases h q with ⟨k', hk', hrank', hcalls'⟩ | ⟨k', hk', next', -, hrank', hcalls'⟩
      · simp only [hrank', hcalls', length_firstCalls q hk'] at hle
        rw [hcalls', getElem?_firstCalls (by omega) hk']
      · simp only [hrank', hcalls', length_firstCalls q hk'] at hle
        rw [hcalls', getElem?_firstCalls (by omega) hk']
    obtain ⟨replies, next', hmatch, -⟩ := hstages k hk
    have hdelivers : Delivers r (f.posted ((f.calls r).length - 1)) (rounds[k] r) (replies r) := by
      rw [hcalls, length_firstCalls r hk, Nat.succ_sub_one, hposted]
      exact hserves.complete hmatch r
    exact ⟨_, .leave r hrank hdelivers⟩

theorem sum_pace_le (h : ∀ r, OnCourse rounds stage f r) :
    ∑ q, f.pace q ≤ 2 * rounds.length * P := by
  have hle := Finset.sum_le_card_nsmul Finset.univ f.pace _ fun r _ => (h r).pace_le
  rwa [Finset.card_univ, Fintype.card_fin, smul_eq_mul, Nat.mul_comm] at hle

theorem OnCourse.calls_initial {r : Fin P} (h : OnCourse rounds stage f r) :
    f.calls r <+: rounds.map fun ops => ops r := by
  obtain ⟨k, -, hcalls⟩ := h.calls_eq
  rw [hcalls]
  exact (List.take_prefix k rounds).map _

include hstages in
/-- A rank that has ended is after the last round. -/
theorem OnCourse.at_end {r : Fin P} (h : OnCourse rounds stage f r)
    {p : Prog Op Reply ε α} (hrank : f.rank r = .computing p)
    (hp : ∀ op next, p ≠ .call op next) :
    p = stage rounds.length r ∧ f.calls r = rounds.map fun ops => ops r := by
  rcases h with ⟨k, hk, hcourse, hcalls⟩ | ⟨k, hk, next, -, hinside, -⟩
  · obtain rfl := Standing.computing.inj (hrank.symm.trans hcourse)
    rcases Nat.lt_or_eq_of_le hk with hlt | rfl
    · obtain ⟨replies, next, -, hround⟩ := hstages k hlt
      exact absurd (hround r).1 (hp _ _)
    · rw [hcalls, firstCalls, List.take_length]
      exact ⟨rfl, rfl⟩
  · rw [hrank] at hinside
    cases hinside

end Runs

section Endings

variable {Delivers} {Matches : (ops : Fin P → Op) → (∀ r, Reply (ops r)) → Prop}
  {Undefined : ε → Prop} {progs : Fin P → Prog Op Reply ε α} {rounds : List (Fin P → Op)}
  {n : ℕ} {job : Job P Op Reply ε α}

/-- Programs that return when they run in step return the same in any order of events. No job
is taken down, none runs on for ever, and none is stuck before all ranks have returned. -/
theorem returned_in_any_order (hserves : Serves Delivers Matches) {a : Fin P → α}
    (h : InStep Matches Undefined progs rounds (.returned a))
    (hrun : Run Delivers n (start progs) job) :
    ∃ f, job = .running f ∧ n ≤ 2 * rounds.length * P ∧
      (∀ r, f.calls r <+: rounds.map fun ops => ops r) ∧
      (∀ r b, f.rank r = .computing (.done b) → b = a r) ∧
      ((∃ job', Step Delivers job job') ∨
        ∀ r, f.rank r = .computing (.done (a r)) ∧ f.calls r = rounds.map fun ops => ops r) := by
  obtain ⟨stage, hstart, hstages, hend⟩ := exists_stages Matches Undefined h
  generalize hfinal : stage rounds.length = final at hend
  cases hend with
  | returned _ =>
    have hlast : ∀ r op next, stage rounds.length r ≠ .call op next := by
      intro r op next hcall
      rw [hfinal] at hcall
      cases hcall
    obtain ⟨hrunning, haborted⟩ := onCourse_run hserves hstages hlast hstart hrun
    cases job with
    | aborted r e =>
      obtain ⟨f, hcourse, -, hrank⟩ := haborted r e rfl
      have hstop := ((hcourse r).at_end hstages hrank nofun).1
      rw [hfinal] at hstop
      cases hstop
    | running f =>
      obtain ⟨hcourse, rfl⟩ := hrunning f rfl
      refine ⟨f, rfl, sum_pace_le hcourse, fun r => (hcourse r).calls_initial, ?_, ?_⟩
      · intro r b hrank
        have hdone := ((hcourse r).at_end hstages hrank nofun).1
        rw [hfinal] at hdone
        exact Prog.done.inj hdone
      · by_cases hall : ∀ r, f.rank r = .computing (stage rounds.length r)
        · refine .inr fun r => ?_
          have hrank := hall r
          rw [hfinal] at hrank
          exact ⟨hrank, ((hcourse r).at_end hstages hrank nofun).2⟩
        · obtain ⟨q, hq⟩ := not_forall.mp hall
          exact .inl (exists_step hserves hstages hcourse hq)

/-- Programs that stop when they run in step take the job down in any order of events. No rank
returns, and the job ends by the exception of the rank that is first. -/
theorem stopped_in_any_order (hP : 0 < P) (hserves : Serves Delivers Matches) {e : Fin P → ε}
    (h : InStep Matches Undefined progs rounds (.stopped e))
    (hrun : Run Delivers n (start progs) job) :
    n ≤ 2 * rounds.length * P + 1 ∧
      (∀ f, job = .running f → (∀ r, f.calls r <+: rounds.map fun ops => ops r) ∧
        (∀ r b, f.rank r ≠ .computing (.done b)) ∧ ∃ job', Step Delivers job job') ∧
      ∀ r e', job = .aborted r e' → e' = e r := by
  obtain ⟨stage, hstart, hstages, hend⟩ := exists_stages Matches Undefined h
  generalize hfinal : stage rounds.length = final at hend
  cases hend with
  | stopped _ =>
    have hlast : ∀ r op next, stage rounds.length r ≠ .call op next := by
      intro r op next hcall
      rw [hfinal] at hcall
      cases hcall
    obtain ⟨hrunning, haborted⟩ := onCourse_run hserves hstages hlast hstart hrun
    cases job with
    | aborted r e' =>
      obtain ⟨f, hcourse, rfl, hrank⟩ := haborted r e' rfl
      refine ⟨Nat.succ_le_succ (sum_pace_le hcourse), (fun f hf => by cases hf), ?_⟩
      intro r' e'' hjob
      obtain ⟨rfl, rfl⟩ := Job.aborted.inj hjob
      have hstop := ((hcourse r).at_end hstages hrank nofun).1
      rw [hfinal] at hstop
      exact Prog.stop.inj hstop
    | running f =>
      obtain ⟨hcourse, rfl⟩ := hrunning f rfl
      refine ⟨Nat.le_succ_of_le (sum_pace_le hcourse), ?_, (fun r e' hjob => by cases hjob)⟩
      intro f' hf'
      obtain rfl := Job.running.inj hf'
      refine ⟨fun r => (hcourse r).calls_initial, ?_, ?_⟩
      · intro r b hrank
        have hdone := ((hcourse r).at_end hstages hrank nofun).1
        rw [hfinal] at hdone
        cases hdone
      · by_cases hall : ∀ r, f.rank r = .computing (stage rounds.length r)
        · have hrank := hall ⟨0, hP⟩
          rw [hfinal] at hrank
          exact ⟨_, .abort ⟨0, hP⟩ hrank⟩
        · obtain ⟨q, hq⟩ := not_forall.mp hall
          exact exists_step hserves hstages hcourse hq

end Endings

section Stalled

variable {Delivers} {progs : Fin P → Prog Op Reply ε α} {f : Flight P Op Reply ε α} {n : ℕ}
  {job : Job P Op Reply ε α}

/-- The rank has not got past its first call. -/
def AtFirstCall (progs : Fin P → Prog Op Reply ε α) (f : Flight P Op Reply ε α) (r : Fin P) :
    Prop :=
  (f.rank r = .computing (progs r) ∧ f.calls r = []) ∨
    ∃ (op : Op) (next : Reply op → Prog Op Reply ε α), progs r = .call op next ∧
      f.rank r = .inside op next ∧ f.calls r = [op]

/-- Nobody is let out of a first call. -/
def HeldInFirstCall (Delivers : Library P Op Reply) (progs : Fin P → Prog Op Reply ε α) : Prop :=
  ∀ (r : Fin P) (op : Op) (next : Reply op → Prog Op Reply ε α), progs r = .call op next →
    ∀ posted : Fin P → Option Op,
      (∀ s op', posted s = some op' → ∃ next', progs s = .call op' next') →
      ∀ reply, ¬ Delivers r posted op reply

theorem AtFirstCall.posted {r : Fin P} (h : AtFirstCall progs f r) {op : Op}
    (hop : f.posted 0 r = some op) : ∃ next, progs r = .call op next := by
  unfold Flight.posted at hop
  rcases h with ⟨-, hcalls⟩ | ⟨op', next, hprog, -, hcalls⟩
  · rw [hcalls] at hop
    cases hop
  · rw [hcalls] at hop
    cases hop
    exact ⟨next, hprog⟩

theorem AtFirstCall.length_calls_le {r : Fin P} (h : AtFirstCall progs f r) :
    (f.calls r).length ≤ 1 := by
  rcases h with ⟨-, hcalls⟩ | ⟨_, _, -, -, hcalls⟩
  · rw [hcalls]
    exact Nat.zero_le 1
  · rw [hcalls]
    exact le_rfl

theorem sum_calls_le (h : ∀ r, AtFirstCall progs f r) : ∑ r, (f.calls r).length ≤ P := by
  have hle := Finset.sum_le_card_nsmul Finset.univ (fun r => (f.calls r).length) 1
    fun r _ => (h r).length_calls_le
  rwa [Finset.card_univ, Fintype.card_fin, smul_eq_mul, Nat.mul_one] at hle

theorem atFirstCall_run (hheld : HeldInFirstCall Delivers progs)
    (hrun : Run Delivers n (start progs) job) :
    (∀ f, job = .running f → (∀ r, AtFirstCall progs f r) ∧ ∑ r, (f.calls r).length = n) ∧
      ∀ r e, job = .aborted r e → progs r = .stop e ∧ n ≤ P + 1 := by
  generalize hjob : start progs = first at hrun
  induction hrun with
  | none _ =>
    subst hjob
    constructor
    · intro f hf
      obtain rfl := Job.running.inj hf
      exact ⟨fun r => .inl ⟨rfl, rfl⟩, Finset.sum_const_zero⟩
    · intro r e h
      cases h
  | @more n _ job' job'' _ hstep ih =>
    have ih := ih hjob
    cases hstep with
    | @issue f r op next hrank =>
      obtain ⟨h, hn⟩ := ih.1 f rfl
      have hr : progs r = .call op next ∧ f.calls r = [] := by
        rcases h r with ⟨hstart, hcalls⟩ | ⟨_, _, -, hinside, -⟩
        · exact ⟨(Standing.computing.inj (hrank.symm.trans hstart)).symm, hcalls⟩
        · rw [hrank] at hinside
          cases hinside
      constructor
      · intro f' hf'
        obtain rfl := Job.running.inj hf'
        constructor
        · intro q
          by_cases hq : q = r
          · subst hq
            refine .inr ⟨op, next, hr.1, Function.update_self .., ?_⟩
            simp only [Flight.enter, Function.update_self, hr.2, List.nil_append]
          · simpa [AtFirstCall, Flight.enter, Function.update_of_ne hq] using h q
        · rw [← hn]
          apply sum_eq_succ (r := r)
          · simp only [Flight.enter, Function.update_self, List.length_append,
              List.length_singleton]
          · intro q hq
            simp only [Flight.enter, Function.update_of_ne hq]
      · intro r e h
        cases h
    | @leave f r op next reply hrank hdelivers =>
      obtain ⟨h, -⟩ := ih.1 f rfl
      rcases h r with ⟨hstart, -⟩ | ⟨op', next', hprog, hinside, hcalls⟩
      · rw [hrank] at hstart
        cases hstart
      · rw [hrank] at hinside
        cases hinside
        rw [hcalls] at hdelivers
        exact absurd hdelivers 
          (hheld r _ _ hprog _ (fun s _ hop => (h s).posted hop) reply)
    | @abort f r e hrank =>
      obtain ⟨h, hn⟩ := ih.1 f rfl
      constructor
      · intro f' hf'
        cases hf'
      · intro r' e' hjob'
        obtain ⟨rfl, rfl⟩ := Job.aborted.inj hjob'
        constructor
        · rcases h r with ⟨hstart, -⟩ | ⟨_, _, -, hinside, -⟩
          · exact (Standing.computing.inj (hrank.symm.trans hstart)).symm
          · rw [hrank] at hinside
            cases hinside
        · rw [← hn]
          exact Nat.succ_le_succ (sum_calls_le h)

/-- A rank that stops before its first call stops the job, if nobody is let out of a first
call without it: whatever the order, no rank gets further, none returns, and the job ends by
the exception of a rank that stops. -/
theorem stalled_in_any_order (hheld : HeldInFirstCall Delivers progs) {q : Fin P} {e : ε}
    (hq : progs q = .stop e) (hdone : ∀ r a, progs r ≠ .done a)
    (hrun : Run Delivers n (start progs) job) :
    n ≤ P + 1 ∧
      (∀ f, job = .running f → (∀ r, (f.calls r).length ≤ 1) ∧
        (∀ r a, f.rank r ≠ .computing (.done a)) ∧ ∃ job', Step Delivers job job') ∧
      ∀ r e', job = .aborted r e' → progs r = .stop e' := by
  obtain ⟨hrunning, haborted⟩ := atFirstCall_run hheld hrun
  cases job with
  | aborted r e' =>
    obtain ⟨hstop, hn⟩ := haborted r e' rfl
    refine ⟨hn, (fun f hf => by cases hf), fun r e' hjob => ?_⟩
    obtain ⟨rfl, rfl⟩ := Job.aborted.inj hjob
    exact hstop
  | running f =>
    obtain ⟨h, rfl⟩ := hrunning f rfl
    refine ⟨Nat.le_succ_of_le (sum_calls_le h), ?_, (fun r e' hjob => by cases hjob)⟩
    intro f' hf'
    obtain rfl := Job.running.inj hf'
    refine ⟨fun r => (h r).length_calls_le, ?_, ?_⟩
    · intro r a hrank
      rcases h r with ⟨hstart, -⟩ | ⟨_, _, -, hinside, -⟩
      · exact hdone r a (Standing.computing.inj (hrank.symm.trans hstart)).symm
      · rw [hrank] at hinside
        cases hinside
    · rcases h q with ⟨hstart, -⟩ | ⟨_, _, hprog, -, -⟩
      · rw [hq] at hstart
        exact ⟨_, .abort q hstart⟩
      · rw [hq] at hprog
        cases hprog

end Stalled

section Outcomes

variable {Delivers} {Matches : (ops : Fin P → Op) → (∀ r, Reply (ops r)) → Prop}
  {Undefined : ε → Prop} {progs : Fin P → Prog Op Reply ε α} {rounds : List (Fin P → Op)}

/-- In whatever order its events come, their number is bounded, the job is nowhere stuck, and it
ends on every rank with that rank's result. -/
def Returns (Delivers : Library P Op Reply) (job₀ : Job P Op Reply ε α) (a : Fin P → α) : Prop :=
  ∃ bound, ∀ n job, Run Delivers n job₀ job → n ≤ bound ∧ ∃ f, job = .running f ∧
    (∀ r b, f.rank r = .computing (.done b) → b = a r) ∧
    ((∃ job', Step Delivers job job') ∨ ∀ r, f.rank r = .computing (.done (a r)))

/-- In whatever order its events come, their number is bounded, no rank returns, the job is
nowhere stuck, and it is taken down by an exception of the given kind. -/
def Stops (Delivers : Library P Op Reply) (job₀ : Job P Op Reply ε α)
    (thrown : Fin P → ε → Prop) : Prop :=
  ∃ bound, ∀ n job, Run Delivers n job₀ job → n ≤ bound ∧
    (∀ f, job = .running f →
      (∀ r b, f.rank r ≠ .computing (.done b)) ∧ ∃ job', Step Delivers job job') ∧
    ∀ r e, job = .aborted r e → thrown r e

theorem returns_of_inStep (hserves : Serves Delivers Matches) {a : Fin P → α}
    (h : InStep Matches Undefined progs rounds (.returned a)) :
    Returns Delivers (start progs) a := by
  refine ⟨2 * rounds.length * P, fun n job hrun => ?_⟩
  obtain ⟨f, hf, hn, -, hdone, hprogress⟩ := returned_in_any_order hserves h hrun
  exact ⟨hn, f, hf, hdone, hprogress.imp_right fun hall r => (hall r).1⟩

theorem stops_of_inStep (hP : 0 < P) (hserves : Serves Delivers Matches) {e : Fin P → ε}
    (h : InStep Matches Undefined progs rounds (.stopped e)) :
    Stops Delivers (start progs) fun r e' => e' = e r := by
  refine ⟨2 * rounds.length * P + 1, fun n job hrun => ?_⟩
  obtain ⟨hn, hrunning, haborted⟩ := stopped_in_any_order hP hserves h hrun
  exact ⟨hn, fun f hf => (hrunning f hf).2, haborted⟩

theorem Stops.imp {job₀ : Job P Op Reply ε α} {thrown thrown' : Fin P → ε → Prop}
    (h : Stops Delivers job₀ thrown) (himp : ∀ r e, thrown r e → thrown' r e) :
    Stops Delivers job₀ thrown' := by
  obtain ⟨bound, hbound⟩ := h
  refine ⟨bound, fun n job hrun => ?_⟩
  obtain ⟨hn, hrunning, haborted⟩ := hbound n job hrun
  exact ⟨hn, hrunning, fun r e he => himp r e (haborted r e he)⟩

end Outcomes

end PatternSearch.Interleaving
