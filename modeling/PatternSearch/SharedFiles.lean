import Mathlib.Data.ZMod.Defs
import PatternSearch.StatsOutputs

/-!
A job that writes several shared files, one call after another. The ranks run on their own, so
one may be in the next call while another has not left the last one, and nothing but the count
of its allreduces tells a rank which agreement it is in. What the ranks do between two writes
touches no file. A path stands for a file of its own.
-/

namespace PatternSearch.SharedFiles

open Bytes ParallelFile ParallelFileRun UniqueHashes

variable {P : ℕ}

section Model

/-- The files, by their paths. -/
abbrev Disk := String → Option (List Byte)

/-- The call a rank is in, and where it stands there. Its votes are those of the whole job. -/
structure Writer where
  call : ℕ
  rank : Rank

structure JobState (P : ℕ) where
  disk : Disk
  writers : Fin P → Writer
  failed : Bool

/-- The state of a call as the job shows it. -/
def JobState.view (s : JobState P) (path : String) : State P where
  file := s.disk path
  ranks q := (s.writers q).rank
  failed := s.failed

inductive JobStep (calls : List (Call P)) (s : JobState P) : JobState P → Prop
  | work {r : Fin P} {c : Call P} {k : Rank} {file : Option (List Byte)} {failed : Bool} :
      calls[(s.writers r).call]? = some c → Local c (s.view c.path) r k file failed →
      JobStep calls s
        { disk := Function.update s.disk c.path file
          writers := Function.update s.writers r { call := (s.writers r).call, rank := k }
          failed := s.failed || failed }
  /-- A rank that has returned makes its next call. -/
  | next {r : Fin P} {c : Call P} : (s.writers r).rank.pc = .returned →
      calls[(s.writers r).call + 1]? = some c →
      JobStep calls s
        { s with
          writers := Function.update s.writers r
            { call := (s.writers r).call + 1
              rank := { pc := .opening, fd := false, err := none
                        votes := (s.writers r).rank.votes } } }

def jobInitial (prior : Disk) : JobState P where
  disk := prior
  writers _ := { call := 0, rank := { pc := .opening, fd := false, err := none, votes := [] } }
  failed := false

def JobReachable (calls : List (Call P)) (prior : Disk) (s : JobState P) : Prop :=
  Relation.ReflTransGen (JobStep calls) (jobInitial prior) s

/-- The files after the calls, one after another. -/
def diskAfter (content : Call P → List Byte) (calls : List (Call P)) (prior : Disk) : Disk :=
  calls.foldl (fun disk c => Function.update disk c.path (some (content c))) prior

end Model

section Shift

/-- The rank with earlier votes in front of its own. -/
def shift (earlier : List Bool) (k : Rank) : Rank := { k with votes := earlier ++ k.votes }

theorem current_shift {earlier : List Bool} {k : Rank} (h : k.votes ≠ []) :
    (shift earlier k).current = earlier.length + k.current := by
  have hpos := List.length_pos_of_ne_nil h
  rw [Rank.current, Rank.current, shift, List.length_append]
  omega

/-- A rank in a job sees its call as it would see it alone, behind the votes of the calls
before. -/
structure Sees (earlier : List Bool) (front view : State P) (r : Fin P) : Prop where
  file : view.file = front.file
  rank : view.ranks r = shift earlier (front.ranks r)
  allAgree : ∀ i, view.AllAgree (earlier.length + i) ↔ front.AllAgree i
  someRefuses : ∀ i, view.SomeRefuses (earlier.length + i) ↔ front.SomeRefuses i

variable {c : Call P} {earlier : List Bool} {front view : State P} {r : Fin P} {k : Rank}
  {file : Option (List Byte)} {failed : Bool}

theorem Sees.pc_eq (h : Sees earlier front view r) : (view.ranks r).pc = (front.ranks r).pc := by
  rw [h.rank, shift]

theorem votes_of_wait (hshape : Shape c r (front.ranks r))
    (hwait : (front.ranks r).pc = .waitWritten ∨ (front.ranks r).pc = .waitClosed) :
    (front.ranks r).votes ≠ [] := by
  rw [Shape] at hshape
  rcases hwait with hpc | hpc
  · rw [hpc] at hshape
    exact List.ne_nil_of_length_eq_add_one (congrArg List.length hshape)
  · rw [hpc] at hshape
    exact List.ne_nil_of_length_eq_add_one (congrArg List.length hshape.2)

/-- What a rank does in the job it does in its call. -/
theorem Sees.local_front (h : Sees earlier front view r) (hshape : Shape c r (front.ranks r))
    (hlocal : Local c view r k file failed) :
    ∃ k', k = shift earlier k' ∧ Local c front r k' file failed := by
  have hrank := h.rank
  have hcurrent := @current_shift earlier (front.ranks r)
  rw [← hrank] at hcurrent
  have hagree : ((front.ranks r).pc = .waitWritten ∨ (front.ranks r).pc = .waitClosed) →
      (view.AllAgree (view.ranks r).current → front.AllAgree (front.ranks r).current) ∧
        (view.SomeRefuses (view.ranks r).current → front.SomeRefuses (front.ranks r).current) := by
    intro hwait
    rw [hcurrent (votes_of_wait hshape hwait)]
    exact ⟨(h.allAgree _).mp, (h.someRefuses _).mp⟩
  cases hlocal with
  | openOk hpc =>
    rw [h.pc_eq] at hpc
    rw [h.file]
    exact ⟨_, by rw [hrank]; rfl, .openOk hpc⟩
  | openFails reason hpc =>
    rw [h.pc_eq] at hpc
    rw [h.file]
    exact ⟨_, by rw [hrank]; rfl, .openFails reason hpc⟩
  | headPiece done n hpc hpos hle =>
    rw [h.pc_eq] at hpc
    rw [h.file]
    exact ⟨_, by rw [hrank]; rfl, .headPiece done n hpc hpos hle⟩
  | headFails done reason hpc =>
    rw [h.pc_eq] at hpc
    rw [h.file]
    exact ⟨_, by rw [hrank]; rfl, .headFails done reason hpc⟩
  | dataPiece done n hpc hoff hpos hle =>
    rw [h.pc_eq] at hpc
    rw [h.file]
    exact ⟨_, by rw [hrank]; rfl, .dataPiece done n hpc hoff hpos hle⟩
  | dataFails done reason hpc =>
    rw [h.pc_eq] at hpc
    rw [h.file]
    exact ⟨_, by rw [hrank]; rfl, .dataFails done reason hpc⟩
  | agreeWritten hpc =>
    rw [h.pc_eq] at hpc
    rw [h.file]
    exact ⟨_, by rw [hrank]; simp only [shift, List.append_assoc], .agreeWritten hpc⟩
  | allWritten hpc hall =>
    rw [h.pc_eq] at hpc
    rw [h.file]
    exact ⟨_, by rw [hrank]; rfl, .allWritten hpc ((hagree (.inl hpc)).1 hall)⟩
  | someNotWritten hpc hsome =>
    rw [h.pc_eq] at hpc
    rw [h.file]
    exact ⟨_, by rw [hrank]; rfl, .someNotWritten hpc ((hagree (.inl hpc)).2 hsome)⟩
  | truncateOk hpc htotal =>
    rw [h.pc_eq] at hpc
    rw [h.file]
    exact ⟨_, by rw [hrank]; rfl, .truncateOk hpc htotal⟩
  | truncateFails reason hpc =>
    rw [h.pc_eq] at hpc
    rw [h.file]
    exact ⟨_, by rw [hrank]; rfl, .truncateFails reason hpc⟩
  | closeOk hpc =>
    rw [h.pc_eq] at hpc
    rw [h.file]
    exact ⟨_, by rw [hrank]; rfl, .closeOk hpc⟩
  | closeFails reason hpc =>
    rw [h.pc_eq] at hpc
    rw [h.file]
    exact ⟨_, by rw [hrank]; rfl, .closeFails reason hpc⟩
  | agreeClosed hpc =>
    rw [h.pc_eq] at hpc
    rw [h.file]
    exact ⟨_, by rw [hrank]; simp only [shift, List.append_assoc], .agreeClosed hpc⟩
  | allClosed hpc hall =>
    rw [h.pc_eq] at hpc
    rw [h.file]
    exact ⟨_, by rw [hrank]; rfl, .allClosed hpc ((hagree (.inr hpc)).1 hall)⟩
  | someNotClosed hpc hsome =>
    rw [h.pc_eq] at hpc
    rw [h.file]
    exact ⟨_, by rw [hrank]; rfl, .someNotClosed hpc ((hagree (.inr hpc)).2 hsome)⟩

/-- And what it can do in its call it can do in the job. -/
theorem Sees.local_view (h : Sees earlier front view r) (hshape : Shape c r (front.ranks r))
    (hlocal : Local c front r k file failed) :
    Local c view r (shift earlier k) file failed := by
  have hcurrent := @current_shift earlier (front.ranks r)
  rw [← h.rank] at hcurrent
  have hagree : ((front.ranks r).pc = .waitWritten ∨ (front.ranks r).pc = .waitClosed) →
      (front.AllAgree (front.ranks r).current → view.AllAgree (view.ranks r).current) ∧
        (front.SomeRefuses (front.ranks r).current → view.SomeRefuses (view.ranks r).current) := by
    intro hwait
    rw [hcurrent (votes_of_wait hshape hwait)]
    exact ⟨(h.allAgree _).mpr, (h.someRefuses _).mpr⟩
  -- The step that the constructor gives, read with the rank and the file of the call.
  have hread : ∀ {k : Rank} {file : Option (List Byte)}, Local c view r k file failed →
      ∀ k' file', k = k' → file = file' → Local c view r k' file' failed := by
    rintro k file hview _ _ rfl rfl
    exact hview
  cases hlocal with
  | openOk hpc =>
    exact hread (.openOk (h.pc_eq.trans hpc)) _ _ (by rw [h.rank]; rfl) (by rw [h.file])
  | openFails reason hpc =>
    exact hread (.openFails reason (h.pc_eq.trans hpc)) _ _ (by rw [h.rank]; rfl) h.file
  | headPiece done n hpc hpos hle =>
    exact hread (.headPiece done n (h.pc_eq.trans hpc) hpos hle) _ _ (by rw [h.rank]; rfl)
      (by rw [h.file])
  | headFails done reason hpc =>
    exact hread (.headFails done reason (h.pc_eq.trans hpc)) _ _ (by rw [h.rank]; rfl) h.file
  | dataPiece done n hpc hoff hpos hle =>
    exact hread (.dataPiece done n (h.pc_eq.trans hpc) hoff hpos hle) _ _ (by rw [h.rank]; rfl)
      (by rw [h.file])
  | dataFails done reason hpc =>
    exact hread (.dataFails done reason (h.pc_eq.trans hpc)) _ _ (by rw [h.rank]; rfl) h.file
  | agreeWritten hpc =>
    exact hread (.agreeWritten (h.pc_eq.trans hpc)) _ _
      (by rw [h.rank]; simp only [shift, List.append_assoc]) h.file
  | allWritten hpc hall =>
    exact hread (.allWritten (h.pc_eq.trans hpc) ((hagree (.inl hpc)).1 hall)) _ _
      (by rw [h.rank]; rfl) h.file
  | someNotWritten hpc hsome =>
    exact hread (.someNotWritten (h.pc_eq.trans hpc) ((hagree (.inl hpc)).2 hsome)) _ _
      (by rw [h.rank]; rfl) h.file
  | truncateOk hpc htotal =>
    exact hread (.truncateOk (h.pc_eq.trans hpc) htotal) _ _ (by rw [h.rank]; rfl)
      (by rw [h.file])
  | truncateFails reason hpc =>
    exact hread (.truncateFails reason (h.pc_eq.trans hpc)) _ _ (by rw [h.rank]; rfl) h.file
  | closeOk hpc =>
    exact hread (.closeOk (h.pc_eq.trans hpc)) _ _ (by rw [h.rank]; rfl) h.file
  | closeFails reason hpc =>
    exact hread (.closeFails reason (h.pc_eq.trans hpc)) _ _ (by rw [h.rank]; rfl) h.file
  | agreeClosed hpc =>
    exact hread (.agreeClosed (h.pc_eq.trans hpc)) _ _
      (by rw [h.rank]; simp only [shift, List.append_assoc]) h.file
  | allClosed hpc hall =>
    exact hread (.allClosed (h.pc_eq.trans hpc) ((hagree (.inr hpc)).1 hall)) _ _
      (by rw [h.rank]; rfl) h.file
  | someNotClosed hpc hsome =>
    exact hread (.someNotClosed (h.pc_eq.trans hpc) ((hagree (.inr hpc)).2 hsome)) _ _
      (by rw [h.rank]; rfl) h.file

end Shift

section Frontier

variable {calls : List (Call P)} {content : Call P → List Byte} {prior : Disk}

/-- The rank before its call. -/
def opening : Rank := { pc := .opening, fd := false, err := none, votes := [] }

/-- All votes of the first calls of a job, none of them against. -/
def votesOf (j : ℕ) : List Bool := List.replicate (2 * j) true

/-- The rank has yet to leave the call before, and all its votes there were cast. -/
structure Behind (j : ℕ) (w : Writer) : Prop where
  call : w.call + 1 = j
  pc : w.rank.pc = .waitClosed ∨ w.rank.pc = .returned
  votes : w.rank.votes = votesOf j

/-- The call that the ranks furthest ahead are in, and how the job stands there: the calls
before it are complete, and a rank that is not in it yet has no more to write. -/
structure Frontier (calls : List (Call P)) (content : Call P → List Byte) (prior : Disk) (j : ℕ)
    (c : Call P) (front : State P) (s : JobState P) : Prop where
  current : calls[j]? = some c
  reachable : Reachable c (diskAfter content (calls.take j) prior c.path) front
  disk : s.disk = Function.update (diskAfter content (calls.take j) prior) c.path front.file
  failed : s.failed = front.failed
  writers : ∀ q, ((s.writers q).call = j ∧ (s.writers q).rank = shift (votesOf j) (front.ranks q)) ∨
    (Behind j (s.writers q) ∧ front.ranks q = opening)

variable {j : ℕ} {c : Call P} {front : State P} {s s' : JobState P}

theorem length_votesOf (j : ℕ) : (votesOf j).length = 2 * j := List.length_replicate

theorem getElem?_votesOf {j i : ℕ} (h : i < 2 * j) : (votesOf j)[i]? = some true := by
  rw [votesOf, List.getElem?_replicate, if_pos h]

theorem Frontier.agreed (h : Frontier calls content prior j c front s) : Agreed c front :=
  agreed_of_reachable h.reachable

/-- The votes of a rank from the frontier's call on. -/
theorem Frontier.vote_eq (h : Frontier calls content prior j c front s) (q : Fin P) (i : ℕ) :
    (s.writers q).rank.votes[2 * j + i]? = (front.ranks q).votes[i]? := by
  rcases h.writers q with ⟨-, hrank⟩ | ⟨hbehind, hopening⟩
  · rw [hrank, shift, List.getElem?_append_right (by rw [length_votesOf]; omega), length_votesOf,
      Nat.add_sub_cancel_left]
  · rw [hbehind.votes, hopening, opening, List.getElem?_nil, List.getElem?_eq_none]
    rw [length_votesOf]
    omega

theorem Frontier.earlier_vote (h : Frontier calls content prior j c front s) (q : Fin P) {i : ℕ}
    (hi : i < 2 * j) : (s.writers q).rank.votes[i]? = some true := by
  rcases h.writers q with ⟨-, hrank⟩ | ⟨hbehind, -⟩
  · rw [hrank, shift, List.getElem?_append_left (by rwa [length_votesOf])]
    exact getElem?_votesOf hi
  · rw [hbehind.votes]
    exact getElem?_votesOf hi

/-- The ranks in the call see it as if it were the first. -/
theorem Frontier.sees (h : Frontier calls content prior j c front s) {r : Fin P}
    (hrank : (s.writers r).rank = shift (votesOf j) (front.ranks r)) :
    Sees (votesOf j) front (s.view c.path) r where
  file := by
    rw [JobState.view, h.disk, Function.update_self]
  rank := hrank
  allAgree i := by
    rw [length_votesOf]
    exact forall_congr' fun q => by rw [← h.vote_eq q i]; rfl
  someRefuses i := by
    rw [length_votesOf]
    have hvote : ∀ q, ((s.view c.path).ranks q).votes[2 * j + i]? = (front.ranks q).votes[i]? :=
      fun q => h.vote_eq q i
    have hlength : ∀ q, 2 * j + i < ((s.view c.path).ranks q).votes.length ↔
        i < (front.ranks q).votes.length := by
      intro q
      rw [← not_le, ← not_le, ← List.getElem?_eq_none_iff, ← List.getElem?_eq_none_iff, hvote]
    simp only [State.SomeRefuses, hlength, hvote]

theorem frontier_initial (hcalls : calls[0]? = some c) :
    Frontier calls content prior 0 c (initial (prior c.path)) (jobInitial prior) where
  current := hcalls
  reachable := .refl
  disk := (Function.update_eq_self ..).symm
  failed := rfl
  writers _ := .inl ⟨rfl, rfl⟩

/-- A rank in the call takes a step of the call. -/
theorem Frontier.step_ahead (h : Frontier calls content prior j c front s) {r : Fin P} {k : Rank}
    {file : Option (List Byte)} {failed : Bool} (hcall : (s.writers r).call = j)
    (hrank : (s.writers r).rank = shift (votesOf j) (front.ranks r))
    (hlocal : Local c (s.view c.path) r k file failed) :
    ∃ front', Frontier calls content prior j c front'
      { disk := Function.update s.disk c.path file
        writers := Function.update s.writers r { call := (s.writers r).call, rank := k }
        failed := s.failed || failed } := by
  obtain ⟨k', rfl, hfront⟩ := (h.sees hrank).local_front (h.agreed.shape r) hlocal
  refine ⟨{ file, ranks := Function.update front.ranks r k', failed := front.failed || failed }, ?_⟩
  refine
    { current := h.current
      reachable := h.reachable.tail ⟨r, k', file, failed, hfront, rfl⟩
      disk := by rw [h.disk, Function.update_idem]
      failed := by rw [h.failed]
      writers := fun q => ?_ }
  by_cases hq : q = r
  · subst hq
    simp only [Function.update_self]
    exact .inl ⟨hcall, trivial⟩
  · simp only [Function.update_of_ne hq]
    exact h.writers q

/-- In front of the second agreement nothing is left but to leave the call. -/
theorem local_leaving {view : State P} {r : Fin P} {k : Rank} {file : Option (List Byte)}
    {failed : Bool} (hlocal : Local c view r k file failed)
    (hpc : (view.ranks r).pc = .waitClosed ∨ (view.ranks r).pc = .returned) :
    (k = { view.ranks r with pc := .returned } ∧ file = view.file ∧ failed = false) ∨
      view.SomeRefuses (view.ranks r).current := by
  cases hlocal
  case allClosed hpc' hall => exact .inl ⟨rfl, rfl, rfl⟩
  case someNotClosed hpc' hsome => exact .inr hsome
  all_goals
    exfalso
    rcases hpc with hpc | hpc <;> simp_all

/-- A rank that is still in the call before can only leave it. -/
theorem Frontier.step_behind (h : Frontier calls content prior j c front s) {r : Fin P}
    {c₀ : Call P} {k : Rank} {file : Option (List Byte)} {failed : Bool}
    (hbehind : Behind j (s.writers r)) (hopening : front.ranks r = opening)
    (hlocal : Local c₀ (s.view c₀.path) r k file failed) :
    Frontier calls content prior j c front
      { disk := Function.update s.disk c₀.path file
        writers := Function.update s.writers r { call := (s.writers r).call, rank := k }
        failed := s.failed || failed } := by
  rcases local_leaving hlocal hbehind.pc with ⟨rfl, rfl, rfl⟩ | ⟨-, q, hq⟩
  · refine
      { current := h.current
        reachable := h.reachable
        disk := by rw [JobState.view, Function.update_eq_self, h.disk]
        failed := by rw [Bool.or_false, h.failed]
        writers := fun q => ?_ }
    by_cases hq : q = r
    · subst hq
      simp only [Function.update_self]
      exact .inr ⟨⟨hbehind.call, .inr rfl, hbehind.votes⟩, hopening⟩
    · simp only [Function.update_of_ne hq]
      exact h.writers q
  · have hpos := hbehind.call
    have hcurrent : ((s.view c₀.path).ranks r).current = 2 * j - 1 := by
      show (s.writers r).rank.votes.length - 1 = 2 * j - 1
      rw [hbehind.votes, length_votesOf]
    have hvote : (s.writers q).rank.votes[2 * j - 1]? = some true := h.earlier_vote q (by omega)
    rw [hcurrent] at hq
    have hboth : some true = some false := hvote.symm.trans hq
    cases hboth

/-- Once a rank has returned from the call the file is complete, and all others are through
with it but for leaving. -/
theorem Frontier.complete (h : Frontier calls content prior j c front s)
    (htiles : c.Tiles ∧ c.IsContent (content c)) {r : Fin P}
    (hr : (front.ranks r).pc = .returned) :
    front.failed = false ∧ s.disk = diskAfter content (calls.take (j + 1)) prior ∧
      ∀ q, (s.writers q).call = j ∧ (s.writers q).rank.votes = votesOf (j + 1) ∧
        ((s.writers q).rank.pc = .waitClosed ∨ (s.writers q).rank.pc = .returned) := by
  have hfailed := h.agreed.not_failed_of_returned hr
  have hstored := stored_of_reachable htiles.1 htiles.2 h.reachable hfailed
  refine ⟨hfailed, ?_, ?_⟩
  · have htake : calls.take (j + 1) = calls.take j ++ [c] := by
      rw [List.take_add_one, h.current]
      rfl
    rw [h.disk, file_of_returned h.agreed hstored hr, htake, diskAfter, diskAfter,
      List.foldl_append]
    rfl
  · intro q
    have hvote := h.agreed.returned r hr q
    rcases h.writers q with ⟨hcall, hrank⟩ | ⟨-, hopening⟩
    · have hshape := h.agreed.shape q
      have hdone : ((front.ranks q).pc = .waitClosed ∨ (front.ranks q).pc = .returned) ∧
          (front.ranks q).votes = [true, true] := by
        cases hpc : (front.ranks q).pc <;> rw [Shape, hpc] at hshape
        case waitClosed =>
          refine ⟨.inl rfl, ?_⟩
          rw [hshape.2] at hvote ⊢
          rw [Option.some.inj hvote]
        case returned => exact ⟨.inr rfl, hshape.2.2⟩
        case threw what =>
          rw [h.agreed.failed_of_threw hpc] at hfailed
          cases hfailed
        all_goals simp [hshape] at hvote
      refine ⟨hcall, ?_, ?_⟩
      · rw [hrank, shift, hdone.2, votesOf, votesOf, Nat.mul_succ, List.replicate_add]
        rfl
      · rw [hrank]
        exact hdone.1
    · rw [hopening] at hvote
      cases hvote

/-- A rank goes on to its next call. -/
theorem Frontier.step_next (h : Frontier calls content prior j c front s)
    (htiles : c.Tiles ∧ c.IsContent (content c)) {r : Fin P} {c' : Call P}
    (hpc : (s.writers r).rank.pc = .returned)
    (hnext : calls[(s.writers r).call + 1]? = some c') :
    ∃ j' front', Frontier calls content prior j' c' front'
      { s with
        writers := Function.update s.writers r
          { call := (s.writers r).call + 1
            rank := { pc := .opening, fd := false, err := none
                      votes := (s.writers r).rank.votes } } } := by
  rcases h.writers r with ⟨hcall, hrank⟩ | ⟨hbehind, hopening⟩
  · have hreturned : (front.ranks r).pc = .returned := by
      rw [hrank] at hpc
      exact hpc
    obtain ⟨hfailed, hdisk, hall⟩ := h.complete htiles hreturned
    rw [hcall] at hnext
    refine ⟨j + 1, initial (diskAfter content (calls.take (j + 1)) prior c'.path), ?_⟩
    refine
      { current := hnext
        reachable := .refl
        disk := hdisk.trans (Function.update_eq_self ..).symm
        failed := h.failed.trans hfailed
        writers := fun q => ?_ }
    obtain ⟨hcallq, hvotes, hpcq⟩ := hall q
    by_cases hq : q = r
    · subst hq
      simp only [Function.update_self]
      refine .inl ⟨by rw [hcallq], ?_⟩
      rw [hvotes]
      simp only [shift, initial, List.append_nil]
    · simp only [Function.update_of_ne hq]
      exact .inr ⟨⟨by rw [hcallq], hpcq, hvotes⟩, rfl⟩
  · have hc : c = c' := by
      rw [hbehind.call, h.current] at hnext
      exact Option.some.inj hnext
    subst hc
    refine ⟨j, front, ?_⟩
    refine
      { current := h.current
        reachable := h.reachable
        disk := h.disk
        failed := h.failed
        writers := fun q => ?_ }
    by_cases hq : q = r
    · subst hq
      simp only [Function.update_self]
      refine .inl ⟨hbehind.call, ?_⟩
      rw [hbehind.votes, hopening]
      simp only [shift, opening, List.append_nil]
    · simp only [Function.update_of_ne hq]
      exact h.writers q

theorem Frontier.step (h : Frontier calls content prior j c front s)
    (htiles : ∀ c ∈ calls, c.Tiles ∧ c.IsContent (content c)) (hstep : JobStep calls s s') :
    ∃ j' c' front', Frontier calls content prior j' c' front' s' := by
  cases hstep with
  | @work r c₀ k file failed hcall hlocal =>
    rcases h.writers r with ⟨hj, hrank⟩ | ⟨hbehind, hopening⟩
    · rw [hj, h.current] at hcall
      obtain rfl := Option.some.inj hcall
      obtain ⟨front', hfront⟩ := h.step_ahead hj hrank hlocal
      exact ⟨j, c, front', hfront⟩
    · exact ⟨j, c, front, h.step_behind hbehind hopening hlocal⟩
  | @next r c' hpc hnext =>
    obtain ⟨j', front', hfront⟩ :=
      h.step_next (htiles c (List.mem_of_getElem? h.current)) hpc hnext
    exact ⟨j', c', front', hfront⟩

theorem frontier_of_reachable (htiles : ∀ c ∈ calls, c.Tiles ∧ c.IsContent (content c))
    (hcalls : calls ≠ []) (hreach : JobReachable calls prior s) :
    ∃ j c front, Frontier calls content prior j c front s := by
  rw [JobReachable] at hreach
  induction hreach with
  | refl =>
    obtain ⟨c, rest, rfl⟩ := List.exists_cons_of_ne_nil hcalls
    exact ⟨0, c, _, frontier_initial rfl⟩
  | tail _ hstep ih =>
    obtain ⟨j, c, front, h⟩ := ih
    exact h.step htiles hstep

end Frontier

section Endings

variable {calls : List (Call P)} {content : Call P → List Byte} {prior : Disk} {j : ℕ} {c : Call P}
  {front : State P} {s s' : JobState P}

/-- How many steps a rank has before it at most. -/
def weight (calls : List (Call P)) (r : Fin P) (w : Writer) : ℕ :=
  (calls[w.call]?.elim 0 fun c => remaining c r w.rank.pc) +
    ((calls.drop (w.call + 1)).map fun c => remaining c r .opening + 1).sum

theorem weight_next {r : Fin P} {w : Writer} {k : Rank} (hnext : calls[w.call + 1]? = some c)
    (hk : k.pc = .opening) :
    weight calls r { call := w.call + 1, rank := k } < weight calls r w := by
  have hlt := (List.getElem?_eq_some_iff.mp hnext).1
  have hget := (List.getElem?_eq_some_iff.mp hnext).2
  simp only [weight, hnext, hk, Option.elim_some]
  rw [List.drop_eq_getElem_cons hlt, hget, List.map_cons, List.sum_cons]
  omega

theorem weight_step (hstep : JobStep calls s s') :
    ∑ q, weight calls q (s'.writers q) < ∑ q, weight calls q (s.writers q) := by
  have hone : ∀ (r : Fin P) (w : Writer), weight calls r w < weight calls r (s.writers r) →
      ∑ q, weight calls q (Function.update s.writers r w q) <
        ∑ q, weight calls q (s.writers q) := by
    intro r w hlt
    apply Finset.sum_lt_sum
    · intro q _
      by_cases hq : q = r
      · subst hq
        rw [Function.update_self]
        exact hlt.le
      · rw [Function.update_of_ne hq]
    · exact ⟨r, Finset.mem_univ r, by rwa [Function.update_self]⟩
  cases hstep with
  | @work r c₀ k file failed hcall hlocal =>
    apply hone
    have hlt : remaining c₀ r k.pc < remaining c₀ r (s.writers r).rank.pc := remaining_local hlocal
    simp only [weight, hcall, Option.elim_some]
    omega
  | @next r c' hpc hnext =>
    apply hone
    exact weight_next hnext rfl

theorem wellFounded_jobStep (calls : List (Call P)) :
    WellFounded fun s' s : JobState P => JobStep calls s s' := by
  apply Subrelation.wf _ (measure fun s : JobState P => ∑ q, weight calls q (s.writers q)).wf
  intro s' s hstep
  exact weight_step hstep

/-- A rank that is still in the call before can go on. -/
theorem Frontier.progress_behind (h : Frontier calls content prior j c front s) {r : Fin P}
    (hbehind : Behind j (s.writers r)) : ∃ s', JobStep calls s s' ∧ s'.failed = s.failed := by
  rcases hbehind.pc with hpc | hpc
  · have hj := (List.getElem?_eq_some_iff.mp h.current).1
    have hcall := hbehind.call
    have hlt : (s.writers r).call < calls.length := by omega
    refine ⟨_, .work (List.getElem?_eq_getElem hlt) (.allClosed hpc ?_), Bool.or_false _⟩
    intro q
    have hcurrent : (s.writers r).rank.current = 2 * j - 1 := by
      rw [Rank.current, hbehind.votes, length_votesOf]
    show (s.writers q).rank.votes[(s.writers r).rank.current]? = some true
    rw [hcurrent]
    exact h.earlier_vote q (by omega)
  · exact ⟨_, .next hpc (by rw [hbehind.call]; exact h.current), rfl⟩

/-- A job goes on, without a failure, until all ranks have returned from the last call or all
have thrown in the same one. -/
theorem Frontier.progress (h : Frontier calls content prior j c front s) (hP : 0 < P)
    (htiles : c.Tiles ∧ c.IsContent (content c)) :
    (∃ s', JobStep calls s s' ∧ s'.failed = s.failed) ∨
      (s.failed = false ∧ s.disk = diskAfter content calls prior ∧
        ∀ q, (s.writers q).call + 1 = calls.length ∧ (s.writers q).rank.pc = .returned) ∨
      (s.failed = true ∧ ∀ q, (s.writers q).call = j ∧
        ∃ what, (s.writers q).rank.pc = .threw what) := by
  by_cases hbehind : ∃ r, Behind j (s.writers r)
  · obtain ⟨r, hr⟩ := hbehind
    exact .inl (h.progress_behind hr)
  have hall : ∀ q, (s.writers q).call = j ∧
      (s.writers q).rank = shift (votesOf j) (front.ranks q) := fun q =>
    (h.writers q).resolve_right fun hq => hbehind ⟨q, hq.1⟩
  have hpc : ∀ q, (s.writers q).rank.pc = (front.ranks q).pc := fun q => by
    rw [(hall q).2, shift]
  by_cases hmore : ∃ r, ¬ (front.ranks r).pc.Done
  · obtain ⟨r, hr⟩ := hmore
    obtain ⟨q, k, file, failed, hlocal, hlegal⟩ := h.agreed.progress hr
    have hview := (h.sees (hall q).2).local_view (h.agreed.shape q) hlocal
    refine .inl ⟨_, .work (by rw [(hall q).1]; exact h.current) hview, ?_⟩
    rw [hlegal htiles.1.legal]
    exact Bool.or_false _
  have hdone : ∀ q, (front.ranks q).pc = .returned ∨ ∃ what, (front.ranks q).pc = .threw what := by
    intro q
    have hq : (front.ranks q).pc.Done := by
      by_contra hq
      exact hmore ⟨q, hq⟩
    cases hcases : (front.ranks q).pc <;> rw [hcases] at hq
    case returned => exact .inl rfl
    case threw what => exact .inr ⟨what, rfl⟩
    all_goals exact hq.elim
  by_cases hreturned : ∃ r, (front.ranks r).pc = .returned
  · obtain ⟨r, hr⟩ := hreturned
    obtain ⟨hfailed, hdisk, -⟩ := h.complete htiles hr
    have hallReturned : ∀ q, (front.ranks q).pc = .returned := by
      intro q
      rcases hdone q with hq | ⟨what, hq⟩
      · exact hq
      · rw [h.agreed.failed_of_threw hq] at hfailed
        cases hfailed
    cases hnext : calls[j + 1]? with
    | some c' =>
      have hnext' : calls[(s.writers r).call + 1]? = some c' := by
        rw [(hall r).1]
        exact hnext
      exact .inl ⟨_, .next ((hpc r).trans hr) hnext', rfl⟩
    | none =>
      have hlast := List.getElem?_eq_none_iff.mp hnext
      have hj := (List.getElem?_eq_some_iff.mp h.current).1
      rw [List.take_of_length_le hlast] at hdisk
      refine .inr (.inl ⟨h.failed.trans hfailed, hdisk, fun q => ⟨?_, ?_⟩⟩)
      · rw [(hall q).1]
        omega
      · exact (hpc q).trans (hallReturned q)
  · have hthrew : ∀ q, ∃ what, (front.ranks q).pc = .threw what := fun q =>
      (hdone q).resolve_left fun hq => hreturned ⟨q, hq⟩
    obtain ⟨what, hwhat⟩ := hthrew ⟨0, hP⟩
    refine .inr (.inr ⟨h.failed.trans (h.agreed.failed_of_threw hwhat), fun q => ⟨(hall q).1, ?_⟩⟩)
    obtain ⟨what', hq⟩ := hthrew q
    exact ⟨what', (hpc q).trans hq⟩

/-- A job that writes several files, in any interleaving of the ranks: its runs are finite; while
some rank is in a call no other is more than one call behind, the calls before are complete,
and no other path is touched; and unless every rank has returned from the last call, with the
last content of every path in place, or all have thrown in the same call, the job can go on
without a failure. -/
theorem writes_in_any_interleaving (hP : 0 < P) (calls : List (Call P))
    (content : Call P → List Byte) (hcalls : calls ≠ [])
    (htiles : ∀ c ∈ calls, c.Tiles ∧ c.IsContent (content c)) (prior : Disk) :
    WellFounded (fun s' s : JobState P => JobStep calls s s') ∧
      ∀ s, JobReachable calls prior s → ∃ j c, calls[j]? = some c ∧
        (∀ q, (s.writers q).call = j ∨ (s.writers q).call + 1 = j ∧
          ((s.writers q).rank.pc = .waitClosed ∨ (s.writers q).rank.pc = .returned)) ∧
        (∀ path, path ≠ c.path → s.disk path = diskAfter content (calls.take j) prior path) ∧
        ((∃ s', JobStep calls s s' ∧ s'.failed = s.failed) ∨
          (s.failed = false ∧ s.disk = diskAfter content calls prior ∧
            ∀ q, (s.writers q).call + 1 = calls.length ∧ (s.writers q).rank.pc = .returned) ∨
          (s.failed = true ∧ ∀ q, (s.writers q).call = j ∧
            ∃ what, (s.writers q).rank.pc = .threw what)) := by
  refine ⟨wellFounded_jobStep calls, fun s hreach => ?_⟩
  obtain ⟨j, c, front, h⟩ := frontier_of_reachable htiles hcalls hreach
  refine ⟨j, c, h.current, fun q => ?_, fun path hpath => ?_, ?_⟩
  · rcases h.writers q with ⟨hcall, -⟩ | ⟨hbehind, -⟩
    · exact .inl hcall
    · exact .inr ⟨hbehind.call, hbehind.pc⟩
  · rw [h.disk, Function.update_of_ne hpath]
  · exact h.progress hP (htiles c (List.mem_of_getElem? h.current))

/-- The same two ranks write the same file twice. -/
theorem writes_in_any_interleaving_twice :
    ∃ content, twoRanks.IsContent content ∧ ∀ s,
      JobReachable [twoRanks, twoRanks] (fun _ => none) s →
      (∃ s', JobStep [twoRanks, twoRanks] s s' ∧ s'.failed = s.failed) ∨
        (s.failed = false ∧ s.disk "p" = some content) ∨ s.failed = true := by
  obtain ⟨content, hcontent⟩ := exists_isContent twoRanks_tiles
  refine ⟨content, hcontent, fun s hs => ?_⟩
  obtain ⟨j, c, -, -, -, hends⟩ := (writes_in_any_interleaving (by decide) [twoRanks, twoRanks]
    (fun _ => content) (by simp) (by simpa using ⟨twoRanks_tiles, hcontent⟩) fun _ => none).2 s hs
  rcases hends with hstep | ⟨hfailed, hdisk, -⟩ | ⟨hfailed, -⟩
  · exact .inl hstep
  · refine .inr (.inl ⟨hfailed, ?_⟩)
    have hlast : ∀ disk : Disk, Function.update disk "p" (some content) "p" = some content :=
      fun disk => Function.update_self ..
    rw [hdisk]
    exact hlast (Function.update (fun _ => none) "p" (some content))
  · exact .inr (.inr hfailed)

end Endings

section Outputs

open Machine Collectives Csr Kernels HashMapping PatternStats StatsRun StatTable StatsCorrect
  StatsInStep StatsFile StatsOutputs

variable {C : Type} [LinearOrder C] [Zero C]

/-- Two writes, one after the other. -/
theorem two_writes (hP : 0 < P) {first second : Call P} (hfirst : Contiguous first)
    (hsecond : Contiguous second) {prior : Disk} {s : JobState P}
    (hreach : JobReachable [first, second] prior s) :
    (∀ path, path ≠ first.path → path ≠ second.path → s.disk path = prior path) ∧
      ((∃ q, (s.writers q).call = 1) → first.path ≠ second.path →
        s.disk first.path = some (first.head ++ gather first.data)) ∧
      ((∃ s', JobStep [first, second] s s' ∧ s'.failed = s.failed) ∨
        (s.failed = false ∧ (∀ q, (s.writers q).rank.pc = .returned) ∧
          s.disk second.path = some (second.head ++ gather second.data)) ∨
        (s.failed = true ∧ ∀ q, ∃ what, (s.writers q).rank.pc = .threw what)) := by
  have htiles : ∀ c ∈ [first, second], c.Tiles ∧ c.IsContent (c.head ++ gather c.data) := by
    intro c hc
    rcases List.mem_pair.mp hc with rfl | rfl
    · exact ⟨hfirst.tiles, hfirst.isContent⟩
    · exact ⟨hsecond.tiles, hsecond.isContent⟩
  obtain ⟨j, c, front, h⟩ := frontier_of_reachable htiles (List.cons_ne_nil _ _) hreach
  have hends := h.progress hP (htiles c (List.mem_of_getElem? h.current))
  have hdisk := h.disk
  refine ⟨fun path hne hne' => ?_, ?_, ?_⟩
  · match j, h.current with
    | 0, hc =>
      obtain rfl := Option.some.inj hc
      rw [hdisk, Function.update_of_ne hne]
      rfl
    | 1, hc =>
      obtain rfl := Option.some.inj hc
      rw [hdisk, Function.update_of_ne hne']
      exact Function.update_of_ne hne _ _
  · rintro ⟨q, hq⟩ hne
    match j, h.current, h.writers q with
    | 0, _, hw =>
      rcases hw with ⟨hcall, -⟩ | ⟨hbehind, -⟩
      · omega
      · exact absurd hbehind.call (Nat.succ_ne_zero _)
    | 1, hc, _ =>
      obtain rfl := Option.some.inj hc
      rw [hdisk, Function.update_of_ne hne]
      exact Function.update_self first.path _ _
  · rcases hends with hstep | ⟨hfailed, hafter, hreturned⟩ | ⟨hfailed, hthrew⟩
    · exact .inl hstep
    · refine .inr (.inl ⟨hfailed, fun q => (hreturned q).2, ?_⟩)
      rw [hafter]
      exact Function.update_self second.path _ _
    · exact .inr (.inr ⟨hfailed, fun q => (hthrew q).2⟩)

/-- Two patches on the first rank, none on the second and one on the third. -/
def threeShares : Fin 3 → LocatedPatches (Fin 10) :=
  ![[[(9, ⟨1, 2⟩), (2, ⟨0, 9⟩)], [(2, ⟨3, 1⟩), (2, ⟨0, 4⟩), (5, ⟨7, 7⟩)]], [],
    [[(5, ⟨6, 8⟩), (0, ⟨0, 0⟩)]]]

/-- The statistics driver with both outputs, on input that the statistics take. However the
collective calls go, its ranks export the hashes and then write the table, unless a write
throws. In any interleaving of the ranks in these two writes the export is complete before any
rank starts on the table, and in the end both files are what they should be. Under one path the
table has replaced the export. -/
theorem outputs_in_any_interleaving (hP : 0 < P) (dev : Fin P → Device)
    (located : Fin P → LocatedPatches C) (hfit : StatAdmissible located) (k : ℕ)
    (hcheck : checkCandidates k (candidateCount (hashesOf located) k) = .ok ())
    (coord : C → List Byte) (hcoord : ∀ x, (coord x).length = 25) (uniquePath outPath : String)
    (hexport : uniquePath ≠ "") (prior : Disk) :
    ∃ table, IsStatTable (gather located) table ∧ ∃ unique report : Fin P → Part,
      WritesInTurn (fun r => reportStats coord (dev r) r (hashesOf located r)
        (coordsOf located r) k uniquePath outPath) unique report (table.take k) ∧
      WellFounded (fun s' s : JobState P =>
        JobStep [assemble hP unique, assemble hP report] s s') ∧
      ∀ s, JobReachable [assemble hP unique, assemble hP report] prior s →
        (∀ path, path ≠ uniquePath → path ≠ outPath → s.disk path = prior path) ∧
        ((∃ q, (s.writers q).call = 1) → uniquePath ≠ outPath →
          s.disk uniquePath = some (uniqueHashFile (globalUniq (hashesOf located)))) ∧
        ((∃ s', JobStep [assemble hP unique, assemble hP report] s s' ∧ s'.failed = s.failed) ∨
          (s.failed = false ∧ (∀ q, (s.writers q).rank.pc = .returned) ∧
            s.disk outPath =
              some (headerText (table.take k).length P ++ records coord (table.take k))) ∨
          (s.failed = true ∧ ∀ q, ∃ what, (s.writers q).rank.pc = .threw what)) := by
  refine ⟨statTable (gather located), isStatTable_statTable _, _, _,
    writesInTurn_reportStats hP dev hfit hcheck hcoord hexport outPath, wellFounded_jobStep _,
    fun s hreach => ?_⟩
  rw [assemble_hashParts, assemble_tableParts] at hreach ⊢
  have hunique := contiguous_exactWrite hP uniquePath (export_fits hP hfit)
  have htable := contiguous_exactCall hP (printable_table hfit hcoord k) outPath
  rw [← content_exactWrite hP uniquePath, ← gather_exactCall hP outPath]
  exact two_writes hP hunique htable hreach

/-- Both files of three ranks, one of them without patches. -/
theorem outputs_in_any_interleaving_three_ranks :
    ∃ table, IsStatTable (gather threeShares) table ∧ ∃ unique report : Fin 3 → Part,
      WritesInTurn (fun r => reportStats oneDigit Device.inOrder r (hashesOf threeShares r)
        (coordsOf threeShares r) 2 "hashes.bin" "stats.txt") unique report (table.take 2) ∧
      ∀ s, JobReachable [assemble (by decide) unique, assemble (by decide) report]
          (fun _ => none) s →
        ((∃ q, (s.writers q).call = 1) →
          s.disk "hashes.bin" = some (uniqueHashFile (globalUniq (hashesOf threeShares)))) ∧
        ((∃ s', JobStep [assemble (by decide) unique, assemble (by decide) report] s s' ∧
            s'.failed = s.failed) ∨
          (s.failed = false ∧ (∀ q, (s.writers q).rank.pc = .returned) ∧
            s.disk "stats.txt" = some (headerText (table.take 2).length 3 ++
              records oneDigit (table.take 2))) ∨
          (s.failed = true ∧ ∀ q, ∃ what, (s.writers q).rank.pc = .threw what)) := by
  have hle := candidateCount_le (hashesOf threeShares) 2
  have hfew : ¬ intMax / 8 < candidateCount (hashesOf threeShares) 2 := by
    unfold intMax
    omega
  obtain ⟨table, htable, unique, report, hwrites, -, hruns⟩ := outputs_in_any_interleaving
    (P := 3) (by decide) (fun _ => Device.inOrder) threeShares
    (statAdmissible_of_total_le (by decide) (by decide) (by decide)) 2 (if_neg hfew) oneDigit
    (by decide) "hashes.bin" "stats.txt" (by decide) fun _ => none
  exact ⟨table, htable, unique, report, hwrites, fun s hs =>
    ⟨fun hsecond => (hruns s hs).2.1 hsecond (by decide), (hruns s hs).2.2⟩⟩

end Outputs

end PatternSearch.SharedFiles
