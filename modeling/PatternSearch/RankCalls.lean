import PatternSearch.Collectives
import PatternSearch.Csr
import PatternSearch.Spmd

/-!
The collective calls of the communicator as one rank issues them, and when the calls of all
ranks match. Whoever calls, a broadcast has one root and one count, a reduction one length,
and an exchange the count on the receiving side that the sender has; a rank that would read
or write past one of its buffers has no match.
-/

namespace PatternSearch.RankCalls

open Machine Collectives Csr Spmd

/-- What the buffers hold: hashes, unsigned integers, or coordinates of the type C. -/
inductive Item
  | hash
  | word
  | coord
  deriving DecidableEq

abbrev Item.Carrier (C : Type) : Item → Type
  | .hash => Hash
  | .word => ℕ
  | .coord => C

/-- The integers a sum is reduced on. -/
inductive Wire
  | int32
  | int64

def Wire.wrap : Wire → ℤ → ℤ
  | .int32 => toInt32
  | .int64 => toInt64

inductive Collective (P : ℕ) (C : Type) : Type
  | allgatherv (t : Item) (send : List (t.Carrier C)) (recvcounts : Fin P → ℕ)
  | alltoallv (t : Item) (send : List (t.Carrier C)) (sendcounts recvcounts : Fin P → ℕ)
      (room : ℕ)
  | exscan (x : ℕ)
  | bcast (t : Item) (buf : List (t.Carrier C)) (count root : ℕ)
  | allreduceSum (wire : Wire) (x : List ℤ) (count : ℕ)
  | allreduceMaxloc (x : ℤ)
  /-- The wait for the stream at the end of a batch. -/
  | barrier

abbrev Collective.Reply {P : ℕ} {C : Type} : Collective P C → Type
  | .allgatherv t _ _ => List (t.Carrier C)
  | .alltoallv t _ _ _ _ => List (t.Carrier C)
  | .exscan _ => ℕ
  | .bcast t _ _ _ => List (t.Carrier C)
  | .allreduceSum _ _ _ => List ℤ
  | .allreduceMaxloc _ => ℤ × ℕ
  | .barrier => Unit

variable {P : ℕ} {C : Type}

/-- The calls of all ranks match, and every rank gets this reply. -/
inductive Matches : (ops : Fin P → Collective P C) → (∀ r, (ops r).Reply) → Prop
  | allgatherv (t : Item) (send : Fin P → List (t.Carrier C)) (recvcounts : Fin P → Fin P → ℕ) :
      (∀ r s, recvcounts r s = (send s).length) →
      Matches (fun r => Collective.allgatherv t (send r) (recvcounts r)) fun _ => gather send
  | alltoallv (t : Item) (send : Fin P → List (t.Carrier C))
      (sendcounts recvcounts : Fin P → Fin P → ℕ) (room : Fin P → ℕ) :
      (∀ r s, recvcounts r s = sendcounts s r) →
      (∀ r, displacement (sendcounts r) P ≤ (send r).length ∧
        displacement (recvcounts r) P ≤ room r) →
      Matches (fun r => Collective.alltoallv t (send r) (sendcounts r) (recvcounts r) (room r))
        fun r => gather fun s => segment (send s) (sendcounts s) r
  | exscan (x : Fin P → ℕ) :
      Matches (fun r => Collective.exscan (x r)) fun r => displacement x r
  | bcast (t : Item) (buf : Fin P → List (t.Carrier C)) (count : ℕ) (root : Fin P) :
      (∀ r, count ≤ (buf r).length) →
      Matches (fun r => Collective.bcast t (buf r) count root)
        fun r => (buf root).take count ++ (buf r).drop count
  | allreduceSum (wire : Wire) (x : Fin P → List ℤ) (count : ℕ) :
      (∀ r, count ≤ (x r).length) →
      Matches (fun r => Collective.allreduceSum wire (x r) count)
        fun _ => columnSums wire.wrap count x
  | allreduceMaxloc (x : Fin P → ℤ) :
      Matches (fun r => Collective.allreduceMaxloc (x r)) (Collectives.allreduceMaxloc x)
  | barrier : Matches (fun _ => Collective.barrier) fun _ => ()

section Replies

/-- What a call sends, when it sends items of this type. -/
def sentItems (t : Item) : Collective P C → List (t.Carrier C)
  | .allgatherv t' send _ | .alltoallv t' send _ _ _ | .bcast t' send _ _ =>
    if h : t' = t then h ▸ send else []
  | _ => []

def sendcountsOf : Collective P C → Fin P → ℕ
  | .alltoallv _ _ sendcounts _ _ => sendcounts
  | _ => fun _ => 0

def scanned : Collective P C → ℕ
  | .exscan x => x
  | _ => 0

def addends : Collective P C → List ℤ
  | .allreduceSum _ x _ => x
  | _ => []

def offered : Collective P C → ℤ
  | .allreduceMaxloc x => x
  | _ => 0

/-- The reply to a rank's call, read off what all ranks send. -/
def replyTo (ops : Fin P → Collective P C) (r : Fin P) : (op : Collective P C) → op.Reply
  | .allgatherv t _ _ => gather fun s => sentItems t (ops s)
  | .alltoallv t _ _ _ _ => gather fun s => segment (sentItems t (ops s)) (sendcountsOf (ops s)) r
  | .exscan _ => displacement (fun s => scanned (ops s)) r
  | .bcast t buf count root =>
    (if h : root < P then sentItems t (ops ⟨root, h⟩) else []).take count ++ buf.drop count
  | .allreduceSum wire _ count => columnSums wire.wrap count fun s => addends (ops s)
  | .allreduceMaxloc _ => Collectives.allreduceMaxloc (fun s => offered (ops s)) r
  | .barrier => ()

/-- Matching calls have only these replies. -/
theorem replies_eq {ops : Fin P → Collective P C} {replies : ∀ r, (ops r).Reply}
    (h : Matches ops replies) : replies = fun r => replyTo ops r (ops r) := by
  cases h with
  | allgatherv t send recvcounts _ => simp [replyTo, sentItems]
  | alltoallv t send sendcounts recvcounts room _ _ =>
    simp [replyTo, sentItems, sendcountsOf]
  | exscan x => rfl
  | bcast t buf count root _ => simp [replyTo, sentItems]
  | allreduceSum wire x count _ => rfl
  | allreduceMaxloc x => rfl
  | barrier => rfl

end Replies

/-- Signed overflow, and a library call outside its contract. -/
def Undefined (e : Fault) : Prop := e = .overflow ∨ e = .contract

/-- The program of one rank. -/
abbrev RankM (P : ℕ) (C α : Type) := Prog (Collective P C) Collective.Reply Fault α

section Issue

def allgatherv (t : Item) (send : List (t.Carrier C)) (recvcounts : Fin P → ℕ) :
    RankM P C (List (t.Carrier C)) := Prog.issue (Collective.allgatherv t send recvcounts)

def alltoallv (t : Item) (send : List (t.Carrier C)) (sendcounts recvcounts : Fin P → ℕ)
    (room : ℕ) : RankM P C (List (t.Carrier C)) :=
  Prog.issue (Collective.alltoallv t send sendcounts recvcounts room)

def exscan (x : ℕ) : RankM P C ℕ := Prog.issue (Collective.exscan x)

def bcast (t : Item) (buf : List (t.Carrier C)) (count root : ℕ) :
    RankM P C (List (t.Carrier C)) := Prog.issue (Collective.bcast t buf count root)

def allreduceSum (wire : Wire) (x : List ℤ) (count : ℕ) : RankM P C (List ℤ) :=
  Prog.issue (Collective.allreduceSum wire x count)

def allreduceMaxloc (x : ℤ) : RankM P C (ℤ × ℕ) := Prog.issue (Collective.allreduceMaxloc x)

def barrier : RankM P C Unit := Prog.issue Collective.barrier

/-- A computation of one rank, without communication. -/
def compute {α : Type} (x : Except Fault α) : RankM P C α := Prog.lift x

end Issue

/-- The ranks run in step to this ending. -/
abbrev Together {α : Type} (progs : Fin P → RankM P C α) (ending : Ending P Fault α) : Prop :=
  Spmd.Together Matches Undefined progs ending

section Rules

variable {α : Type} {ending : Ending P Fault α}

theorem together_allgatherv {t : Item} {send : Fin P → List (t.Carrier C)}
    {recvcounts : Fin P → Fin P → ℕ} {got : Fin P → List (t.Carrier C)}
    {next : Fin P → List (t.Carrier C) → RankM P C α}
    (h : Collectives.allgatherv send recvcounts = .ok got)
    (hnext : Together (fun r => next r (got r)) ending) :
    Together (fun r => allgatherv t (send r) (recvcounts r) >>= next r) ending := by
  unfold Collectives.allgatherv at h
  split_ifs at h with hcounts
  obtain rfl := Except.ok.inj h
  exact Spmd.Together.round (.allgatherv t send recvcounts hcounts) hnext

theorem together_alltoallv {t : Item} {send : Fin P → List (t.Carrier C)}
    {sendcounts recvcounts : Fin P → Fin P → ℕ} {room : Fin P → ℕ}
    {got : Fin P → List (t.Carrier C)} {next : Fin P → List (t.Carrier C) → RankM P C α}
    (h : Collectives.alltoallv send sendcounts recvcounts room = .ok got)
    (hnext : Together (fun r => next r (got r)) ending) :
    Together (fun r => alltoallv t (send r) (sendcounts r) (recvcounts r) (room r) >>= next r)
      ending := by
  unfold Collectives.alltoallv at h
  split_ifs at h with hcounts hroom
  obtain rfl := Except.ok.inj h
  exact Spmd.Together.round (.alltoallv t send sendcounts recvcounts room hcounts hroom) hnext

theorem together_exscan (x : Fin P → ℕ) {next : Fin P → ℕ → RankM P C α}
    (hnext : Together (fun r => next r (Collectives.exscan x r)) ending) :
    Together (fun r => exscan (x r) >>= next r) ending :=
  Spmd.Together.round (.exscan x) hnext

theorem together_bcast {t : Item} {buf : Fin P → List (t.Carrier C)} {root count : Fin P → ℕ}
    {got : Fin P → List (t.Carrier C)} {next : Fin P → List (t.Carrier C) → RankM P C α}
    (h : Collectives.bcast root count buf = .ok got)
    (hnext : Together (fun r => next r (got r)) ending) :
    Together (fun r => bcast t (buf r) (count r) (root r) >>= next r) ending := by
  unfold Collectives.bcast at h
  split at h
  · rename_i q hfind
    have hfound := List.find?_some hfind
    have hsame := of_decide_eq_true hfound
    split_ifs at h with hroom
    obtain rfl := Except.ok.inj h
    have hroot : root = fun _ => (q : ℕ) := funext fun r => (hsame r).1
    have hcount : count = fun _ => count q := funext fun r => (hsame r).2
    rw [hroot, hcount]
    exact Spmd.Together.round (.bcast t buf (count q) q fun r => (hsame r).2 ▸ hroom r) hnext
  · cases h

/-- A broadcast of one value. -/
theorem together_bcastValue {root x got : Fin P → ℕ} {next : Fin P → List ℕ → RankM P C α}
    (h : bcastValue root x = .ok got)
    (hnext : Together (fun r => next r [got r]) ending) :
    Together (fun r => bcast .word [x r] 1 (root r) >>= next r) ending := by
  unfold bcastValue at h
  split at h
  · rename_i q hfind
    have hfound := List.find?_some hfind
    have hroot : root = fun _ => (q : ℕ) := funext (of_decide_eq_true hfound)
    obtain rfl := Except.ok.inj h
    rw [hroot]
    exact Spmd.Together.round (.bcast .word (fun r => [x r]) 1 q fun _ => le_rfl) hnext
  · cases h

theorem together_allreduceSum (wire : Wire) {x : Fin P → List ℤ} {count : Fin P → ℕ}
    {got : Fin P → List ℤ} {next : Fin P → List ℤ → RankM P C α}
    (h : Collectives.allreduceSum wire.wrap count x = .ok got)
    (hnext : Together (fun r => next r (got r)) ending) :
    Together (fun r => allreduceSum wire (x r) (count r) >>= next r) ending := by
  unfold Collectives.allreduceSum at h
  split_ifs at h with hcount hroom
  obtain rfl := Except.ok.inj h
  cases P with
  | zero =>
    have hcalls : (fun r => allreduceSum wire (x r) (count r) >>= next r) =
        fun r : Fin 0 => allreduceSum wire (x r) 0 >>= next r := funext fun r => r.elim0
    rw [hcalls]
    apply Spmd.Together.round (.allreduceSum wire x 0 fun r => r.elim0)
    have hgot : (fun r : Fin 0 => next r (columnSums wire.wrap 0 x)) =
        fun r => next r (columnSums wire.wrap (count r) x) := funext fun r => r.elim0
    rw [hgot]
    exact hnext
  | succ P =>
    have hsame : count = fun _ => count 0 := funext fun r => hcount r 0
    rw [hsame] at hnext hroom ⊢
    exact Spmd.Together.round (.allreduceSum wire x (count 0) hroom) hnext

theorem together_allreduceMaxloc (x : Fin P → ℤ) {next : Fin P → ℤ × ℕ → RankM P C α}
    (hnext : Together (fun r => next r (Collectives.allreduceMaxloc x r)) ending) :
    Together (fun r => allreduceMaxloc (x r) >>= next r) ending :=
  Spmd.Together.round (.allreduceMaxloc x) hnext

theorem together_barrier {next : Fin P → Unit → RankM P C α}
    (hnext : Together (fun r => next r ()) ending) :
    Together (fun r => barrier >>= next r) ending :=
  Spmd.Together.round .barrier hnext

theorem together_compute {β : Type} {f : Fin P → Except Fault β} {a : Fin P → β}
    {next : Fin P → β → RankM P C α} (h : onRanks f = .ok a)
    (hnext : Together (fun r => next r (a r)) ending) :
    Together (fun r => compute (f r) >>= next r) ending :=
  Spmd.Together.lift (onRanks_eq_ok_iff.mp h) hnext

end Rules

end PatternSearch.RankCalls
