import Mathlib.Algebra.BigOperators.Fin
import Mathlib.Algebra.Order.BigOperators.Group.Finset
import Mathlib.Tactic.FinCases
import PatternSearch.ParallelFile

/-!
Every interleaving of a shared write. What a rank has contributed to the two agreements says
which operations have failed, so the ranks leave the call alike. Written bytes stay as they
are, because whoever writes to a position writes the same byte there, and after the first
agreement nobody writes. The truncation then leaves the file.
-/

namespace PatternSearch.ParallelFileRun

open Bytes ParallelFile

variable {P : ℕ} {c : Call P}

section Content

/-- The byte that the tiling puts at a position. -/
noncomputable def byteAt (c : Call P) (x : ℕ) : Byte :=
  open Classical in
  if x < c.head.length then c.head.getD x 0
  else if h : ∃ r, c.Owns r x then (c.data h.choose).getD (x - c.start h.choose) 0
  else 0

/-- The parts of a tiling make up one file. -/
theorem exists_isContent (htiles : c.Tiles) : ∃ content, c.IsContent content := by
  refine ⟨(List.range c.totalSize.toNat).map (byteAt c), ⟨by simp, ?_, ?_⟩⟩
  · intro x hx
    have hin : x < c.totalSize.toNat := (htiles.covered x).mpr (Or.inl hx)
    rw [List.getElem?_map, List.getElem?_range hin, Option.map_some, byteAt, if_pos hx,
      List.getElem?_eq_getElem hx, List.getD_eq_getElem _ _ hx]
  · intro r x hx
    have howns : c.Owns r (c.start r + x) := ⟨by omega, by omega⟩
    have hin : c.start r + x < c.totalSize.toNat := (htiles.covered _).mpr (Or.inr ⟨r, howns⟩)
    have hhead : ¬ c.start r + x < c.head.length := fun hlt => htiles.head_disjoint r _ hlt howns
    have hex : ∃ q, c.Owns q (c.start r + x) := ⟨r, howns⟩
    have hchoose : hex.choose = r := htiles.disjoint _ _ _ hex.choose_spec howns
    rw [List.getElem?_map, List.getElem?_range hin, Option.map_some, byteAt, if_neg hhead,
      dif_pos hex, hchoose, Nat.add_sub_cancel_left, List.getElem?_eq_getElem hx,
      List.getD_eq_getElem _ _ hx]

/-- No other file has every part where it belongs. -/
theorem isContent_unique (htiles : c.Tiles) {content content' : List Byte}
    (h : c.IsContent content) (h' : c.IsContent content') : content = content' := by
  apply List.ext_getElem?
  intro x
  by_cases hx : x < c.totalSize.toNat
  · rcases (htiles.covered x).mp hx with hhead | ⟨r, hlow, hhigh⟩
    · rw [h.head x hhead, h'.head x hhead]
    · obtain ⟨i, rfl⟩ := Nat.exists_eq_add_of_le hlow
      rw [h.data r i (by omega), h'.data r i (by omega)]
  · rw [List.getElem?_eq_none (by rw [h.length_eq]; omega),
      List.getElem?_eq_none (by rw [h'.length_eq]; omega)]

/-- The position has its final byte. -/
def Written (content : List Byte) (file : Option (List Byte)) (x : ℕ) : Prop :=
  ∃ f, file = some f ∧ x < f.length ∧ f[x]? = content[x]?

variable {content : List Byte} {file : Option (List Byte)}

theorem Written.opened {x : ℕ} (h : Written content file x) :
    Written content (some (file.getD [])) x := by
  obtain ⟨f, rfl, hlt, hget⟩ := h
  exact ⟨f, rfl, hlt, hget⟩

/-- A piece of the content leaves what has been written as it is. -/
theorem Written.pwrite {offset : ℕ} {piece : List Byte} {x : ℕ}
    (hpiece : ∀ i < piece.length, piece[i]? = content[offset + i]?)
    (h : Written content file x) :
    Written content (file.map fun f => pwrite f offset piece) x := by
  obtain ⟨f, rfl, hlt, hget⟩ := h
  have hvalue : (ParallelFile.pwrite f offset piece)[x]? = content[x]? := by
    rw [getElem?_pwrite f offset piece (Or.inl hlt)]
    split_ifs with hin
    · rw [hpiece _ (by omega), show offset + (x - offset) = x by omega]
    · exact hget
  have hsome : ∃ b, (ParallelFile.pwrite f offset piece)[x]? = some b := by
    rw [hvalue, ← hget]
    exact ⟨_, List.getElem?_eq_getElem hlt⟩
  obtain ⟨b, hb⟩ := hsome
  exact ⟨_, rfl, (List.getElem?_eq_some_iff.mp hb).1, hvalue⟩

/-- The piece itself is written. -/
theorem written_piece {f : List Byte} {offset : ℕ} {piece : List Byte} {x : ℕ}
    (hpiece : ∀ i < piece.length, piece[i]? = content[offset + i]?)
    (hx : offset ≤ x ∧ x < offset + piece.length) :
    Written content (some (ParallelFile.pwrite f offset piece)) x := by
  have hvalue : (ParallelFile.pwrite f offset piece)[x]? = piece[x - offset]? := by
    rw [getElem?_pwrite f offset piece (Or.inr hx), if_pos hx]
  have hin : x - offset < piece.length := by omega
  have hsome := hvalue.trans (List.getElem?_eq_getElem hin)
  refine ⟨_, rfl, (List.getElem?_eq_some_iff.mp hsome).1, ?_⟩
  rw [hvalue, hpiece _ hin, show offset + (x - offset) = x by omega]

/-- A file with all its bytes written is the content once it is cut to length. -/
theorem ftruncate_of_written {f : List Byte}
    (h : ∀ x < content.length, Written content (some f) x) :
    ftruncate f content.length = content := by
  have hlen : content.length ≤ f.length := by
    rcases Nat.eq_zero_or_pos content.length with hzero | hpos
    · omega
    · obtain ⟨f', hf', hlt, -⟩ := h (content.length - 1) (by omega)
      cases hf'
      omega
  rw [ftruncate, Nat.sub_eq_zero_of_le hlen, List.replicate_zero, List.append_nil]
  apply List.ext_getElem?
  intro x
  by_cases hx : x < content.length
  · obtain ⟨f', hf', -, hget⟩ := h x hx
    cases hf'
    rw [List.getElem?_take_of_lt hx, hget]
  · rw [List.getElem?_eq_none (by rw [List.length_take]; omega),
      List.getElem?_eq_none (by omega)]

end Content

section Ranks

/-- What a rank's place in the call says about its descriptor, its error and its votes. -/
def Shape (c : Call P) (r : Fin P) (k : Rank) : Prop :=
  match k.pc with
  | .opening => k.fd = false ∧ k.err = none ∧ k.votes = []
  | .head done => r.val = 0 ∧ done < c.head.length ∧ k.err = none ∧ k.votes = []
  | .data done => done < (c.data r).length ∧ k.err = none ∧ k.votes = []
  | .agreeWritten => k.votes = []
  | .waitWritten => k.votes = [k.err.isNone]
  | .truncate => r.val = 0 ∧ k.err = none ∧ k.votes = [true]
  | .close => k.votes = [true]
  | .agreeClosed => k.fd = false ∧ k.votes = [true]
  | .waitClosed => k.fd = false ∧ k.votes = [true, k.err.isNone]
  | .returned => k.fd = false ∧ k.err = none ∧ k.votes = [true, true]
  | .threw _ => k.fd = false ∧ (k.votes = [k.err.isNone] ∨ k.votes = [true, k.err.isNone])

/-- The rank is past the first agreement. -/
def PastFirst : Pc → Prop
  | .truncate => True
  | .close => True
  | .agreeClosed => True
  | .waitClosed => True
  | .returned => True
  | _ => False

theorem not_pastFirst_afterData {r : Fin P} (done : ℕ) : ¬ PastFirst (c.afterData r done) := by
  rw [Call.afterData]
  split_ifs
  all_goals exact id

theorem not_pastFirst_afterHead {r : Fin P} (done : ℕ) : ¬ PastFirst (c.afterHead r done) := by
  rw [Call.afterHead]
  split_ifs
  · exact id
  · exact not_pastFirst_afterData 0

theorem not_pastFirst_afterOpen {r : Fin P} : ¬ PastFirst (c.afterOpen r) := by
  rw [Call.afterOpen]
  split_ifs
  · exact not_pastFirst_afterHead 0
  · exact not_pastFirst_afterData 0

theorem shape_afterData {r : Fin P} {k : Rank} (done : ℕ) (herr : k.err = none)
    (hvotes : k.votes = []) : Shape c r { k with pc := c.afterData r done } := by
  rw [Call.afterData]
  split_ifs with hmore
  · exact ⟨hmore, herr, hvotes⟩
  · exact hvotes

theorem shape_afterHead {r : Fin P} {k : Rank} (done : ℕ) (hroot : r.val = 0)
    (herr : k.err = none) (hvotes : k.votes = []) :
    Shape c r { k with pc := c.afterHead r done } := by
  rw [Call.afterHead]
  split_ifs with hmore
  · exact ⟨hroot, hmore, herr, hvotes⟩
  · exact shape_afterData 0 herr hvotes

theorem shape_afterOpen {r : Fin P} {k : Rank} (herr : k.err = none) (hvotes : k.votes = []) :
    Shape c r { k with pc := c.afterOpen r } := by
  rw [Call.afterOpen]
  split_ifs with hroot
  · exact shape_afterHead 0 hroot herr hvotes
  · exact shape_afterData 0 herr hvotes

theorem Shape.votes_cases {r : Fin P} {k : Rank} (h : Shape c r k) :
    k.votes = [] ∨ k.votes = [true] ∨ k.votes = [k.err.isNone] ∨
      k.votes = [true, k.err.isNone] := by
  rw [Shape] at h
  split at h
  all_goals grind

/-- A refusal is an error that the rank still has. -/
theorem Shape.err_of_refused {r : Fin P} {k : Rank} (h : Shape c r k) {i : ℕ}
    (hvote : k.votes[i]? = some false) : k.err ≠ none := by
  intro herr
  have hmem : false ∈ k.votes := List.mem_of_getElem? hvote
  have hnone : k.err.isNone = true := by rw [herr, Option.isNone_none]
  rcases h.votes_cases with hv | hv | hv | hv
  all_goals
    rw [hv] at hmem
    simp [hnone] at hmem

theorem shape_step {s : State P} {r : Fin P} {k : Rank} {file : Option (List Byte)} {failed : Bool}
    (h : Shape c r (s.ranks r)) (hlocal : Local c s r k file failed) : Shape c r k := by
  cases hlocal with
  | openOk hpc =>
    rw [Shape, hpc] at h
    exact shape_afterOpen (k := { s.ranks r with fd := true }) h.2.1 h.2.2
  | openFails reason hpc =>
    rw [Shape, hpc] at h
    exact h.2.2
  | headPiece done n hpc hpos hle =>
    rw [Shape, hpc] at h
    exact shape_afterHead (done + n) h.1 h.2.2.1 h.2.2.2
  | headFails done reason hpc =>
    rw [Shape, hpc] at h
    exact h.2.2.2
  | dataPiece done n hpc hoff hpos hle =>
    rw [Shape, hpc] at h
    exact shape_afterData (done + n) h.2.1 h.2.2
  | dataFails done reason hpc =>
    rw [Shape, hpc] at h
    exact h.2.2
  | agreeWritten hpc =>
    rw [Shape, hpc] at h
    simp [Shape, h]
  | allWritten hpc hall =>
    rw [Shape, hpc] at h
    have hown := hall r
    have herr : (s.ranks r).err = none := by simpa [Rank.current, h] using hown
    rw [herr] at h
    split_ifs with hroot
    · exact ⟨hroot, herr, h⟩
    · exact h
  | someNotWritten hpc hsome =>
    rw [Shape, hpc] at h
    exact ⟨rfl, Or.inl h⟩
  | truncateOk hpc htotal =>
    rw [Shape, hpc] at h
    exact h.2.2
  | truncateFails reason hpc =>
    rw [Shape, hpc] at h
    exact h.2.2
  | closeOk hpc =>
    rw [Shape, hpc] at h
    exact ⟨rfl, h⟩
  | closeFails reason hpc =>
    rw [Shape, hpc] at h
    exact ⟨rfl, h⟩
  | agreeClosed hpc =>
    rw [Shape, hpc] at h
    exact ⟨h.1, by simp [h.2]⟩
  | allClosed hpc hall =>
    rw [Shape, hpc] at h
    have hown := hall r
    have herr : (s.ranks r).err = none := by simpa [Rank.current, h.2] using hown
    rw [herr] at h
    exact ⟨h.1, herr, h.2⟩
  | someNotClosed hpc hsome =>
    rw [Shape, hpc] at h
    exact ⟨rfl, Or.inr h.2⟩

/-- What holds of all ranks together, whatever the file is. -/
structure Agreed (c : Call P) (s : State P) : Prop where
  shape : ∀ r, Shape c r (s.ranks r)
  failed_iff : s.failed = true ↔ ∃ r, (s.ranks r).err ≠ none
  past_first : ∀ r, PastFirst (s.ranks r).pc → s.AllAgree 0
  returned : ∀ r, (s.ranks r).pc = .returned → s.AllAgree 1
  threw : ∀ r what, (s.ranks r).pc = .threw what → ∃ i, s.SomeRefuses i

theorem agreed_initial (prior : Option (List Byte)) : Agreed c (initial prior) where
  shape _ := ⟨rfl, rfl, rfl⟩
  failed_iff := by simp [initial]
  past_first r h := by simp [initial, PastFirst] at h
  returned r h := by simp [initial] at h
  threw r what h := by simp [initial] at h

/-- Votes are only added. -/
theorem votes_step {s : State P} {r : Fin P} {k : Rank} {file : Option (List Byte)}
    {failed : Bool} (hlocal : Local c s r k file failed) :
    ∃ more, k.votes = (s.ranks r).votes ++ more := by
  cases hlocal
  case agreeWritten => exact ⟨_, rfl⟩
  case agreeClosed => exact ⟨_, rfl⟩
  all_goals exact ⟨[], (List.append_nil _).symm⟩

/-- Errors are kept, and a failure leaves one. -/
theorem err_step {s : State P} {r : Fin P} {k : Rank} {file : Option (List Byte)}
    {failed : Bool} (hlocal : Local c s r k file failed) :
    k.err ≠ none ↔ (s.ranks r).err ≠ none ∨ failed = true := by
  cases hlocal
  all_goals simp

section Updates

variable {s : State P} {r : Fin P} {k : Rank}

theorem getElem?_votes_step {file : Option (List Byte)} {failed : Bool}
    (hlocal : Local c s r k file failed) {q : Fin P} {i : ℕ} {v : Bool}
    (hvote : (s.ranks q).votes[i]? = some v) :
    (Function.update s.ranks r k q).votes[i]? = some v := by
  by_cases hq : q = r
  · subst hq
    obtain ⟨more, hmore⟩ := votes_step hlocal
    rw [Function.update_self, hmore,
      List.getElem?_append_left (List.getElem?_eq_some_iff.mp hvote).1, hvote]
  · rwa [Function.update_of_ne hq]

theorem AllAgree.step {file file' : Option (List Byte)} {failed failed' : Bool}
    (hlocal : Local c s r k file failed) {i : ℕ} (h : s.AllAgree i) :
    State.AllAgree { file := file', ranks := Function.update s.ranks r k, failed := failed' } i :=
  fun q => getElem?_votes_step hlocal (h q)

theorem SomeRefuses.step {file file' : Option (List Byte)} {failed failed' : Bool}
    (hlocal : Local c s r k file failed) {i : ℕ} (h : s.SomeRefuses i) :
    State.SomeRefuses
      { file := file', ranks := Function.update s.ranks r k, failed := failed' } i := by
  refine ⟨fun q => ?_, ?_⟩
  · have hvote := getElem?_votes_step hlocal (q := q) (List.getElem?_eq_getElem (h.1 q))
    exact (List.getElem?_eq_some_iff.mp hvote).1
  · obtain ⟨q, hq⟩ := h.2
    exact ⟨q, getElem?_votes_step hlocal hq⟩

theorem pastFirst_step {file : Option (List Byte)} {failed : Bool}
    (hshape : Shape c r (s.ranks r)) (hpast : PastFirst (s.ranks r).pc → s.AllAgree 0)
    (hlocal : Local c s r k file failed) (hk : PastFirst k.pc) : s.AllAgree 0 := by
  cases hlocal with
  | openOk hpc => exact absurd hk not_pastFirst_afterOpen
  | headPiece done n hpc hpos hle => exact absurd hk (not_pastFirst_afterHead _)
  | dataPiece done n hpc hoff hpos hle => exact absurd hk (not_pastFirst_afterData _)
  | allWritten hpc hall =>
    rw [Shape, hpc] at hshape
    simpa [Rank.current, hshape] using hall
  | truncateOk hpc htotal => exact hpast (by rw [hpc]; trivial)
  | truncateFails reason hpc => exact hpast (by rw [hpc]; trivial)
  | closeOk hpc => exact hpast (by rw [hpc]; trivial)
  | closeFails reason hpc => exact hpast (by rw [hpc]; trivial)
  | agreeClosed hpc => exact hpast (by rw [hpc]; trivial)
  | allClosed hpc hall => exact hpast (by rw [hpc]; trivial)
  | _ => exact hk.elim

theorem pc_after_ne (done : ℕ) :
    (c.afterData r done ≠ .returned ∧ c.afterHead r done ≠ .returned ∧
      c.afterOpen r ≠ .returned) ∧
    ∀ what, c.afterData r done ≠ .threw what ∧ c.afterHead r done ≠ .threw what ∧
      c.afterOpen r ≠ .threw what := by
  simp only [Call.afterOpen, Call.afterHead, Call.afterData]
  split_ifs
  all_goals simp

theorem returned_step {file : Option (List Byte)} {failed : Bool}
    (hshape : Shape c r (s.ranks r)) (hlocal : Local c s r k file failed)
    (hk : k.pc = .returned) : s.AllAgree 1 := by
  cases hlocal with
  | openOk hpc => exact absurd hk (pc_after_ne 0).1.2.2
  | headPiece done n hpc hpos hle => exact absurd hk (pc_after_ne _).1.2.1
  | dataPiece done n hpc hoff hpos hle => exact absurd hk (pc_after_ne _).1.1
  | allWritten hpc hall => split_ifs at hk
  | allClosed hpc hall =>
    rw [Shape, hpc] at hshape
    simpa [Rank.current, hshape.2] using hall
  | _ => cases hk

theorem threw_step {file : Option (List Byte)} {failed : Bool} {what : String}
    (hlocal : Local c s r k file failed) (hk : k.pc = .threw what) :
    ∃ i, s.SomeRefuses i := by
  cases hlocal with
  | openOk hpc => exact absurd hk ((pc_after_ne 0).2 what).2.2
  | headPiece done n hpc hpos hle => exact absurd hk ((pc_after_ne _).2 what).2.1
  | dataPiece done n hpc hoff hpos hle => exact absurd hk ((pc_after_ne _).2 what).1
  | allWritten hpc hall => split_ifs at hk
  | someNotWritten hpc hsome => exact ⟨_, hsome⟩
  | someNotClosed hpc hsome => exact ⟨_, hsome⟩
  | _ => cases hk

end Updates

/-- What one step of one rank keeps. -/
theorem agreed_step {s s' : State P} (h : Agreed c s) (hstep : Step c s s') : Agreed c s' := by
  obtain ⟨r, k, file, failed, hlocal, rfl⟩ := hstep
  have herr := err_step hlocal
  constructor
  case shape =>
    intro q
    by_cases hq : q = r
    · subst hq
      simpa using shape_step (h.shape q) hlocal
    · simpa [Function.update_of_ne hq] using h.shape q
  case failed_iff =>
    rw [Bool.or_eq_true, h.failed_iff]
    constructor
    · rintro (⟨q, hq⟩ | hfailed)
      · by_cases hqr : q = r
        · subst hqr
          exact ⟨q, by simpa using herr.mpr (Or.inl hq)⟩
        · exact ⟨q, by simpa [Function.update_of_ne hqr] using hq⟩
      · exact ⟨r, by simpa using herr.mpr (Or.inr hfailed)⟩
    · rintro ⟨q, hq⟩
      by_cases hqr : q = r
      · subst hqr
        simp only [Function.update_self] at hq
        exact (herr.mp hq).imp_left fun hold => ⟨q, hold⟩
      · simp only [Function.update_of_ne hqr] at hq
        exact Or.inl ⟨q, hq⟩
  case past_first =>
    intro q hq
    apply AllAgree.step hlocal
    by_cases hqr : q = r
    · subst hqr
      simp only [Function.update_self] at hq
      exact pastFirst_step (h.shape q) (h.past_first q) hlocal hq
    · simp only [Function.update_of_ne hqr] at hq
      exact h.past_first q hq
  case returned =>
    intro q hq
    apply AllAgree.step hlocal
    by_cases hqr : q = r
    · subst hqr
      simp only [Function.update_self] at hq
      exact returned_step (h.shape q) hlocal hq
    · simp only [Function.update_of_ne hqr] at hq
      exact h.returned q hq
  case threw =>
    intro q what hq
    by_cases hqr : q = r
    · subst hqr
      simp only [Function.update_self] at hq
      exact (threw_step hlocal hq).imp fun i hi => SomeRefuses.step hlocal hi
    · simp only [Function.update_of_ne hqr] at hq
      exact (h.threw q what hq).imp fun i hi => SomeRefuses.step hlocal hi

end Ranks

section Outcome

variable {s : State P}

/-- A rank returns only when no operation has failed anywhere. -/
theorem Agreed.not_failed_of_returned (h : Agreed c s) {r : Fin P}
    (hr : (s.ranks r).pc = .returned) : s.failed = false := by
  rw [← Bool.not_eq_true, h.failed_iff]
  rintro ⟨q, hq⟩
  have hvote := h.returned r hr q
  have hlen := (List.getElem?_eq_some_iff.mp hvote).1
  apply hq
  rcases (h.shape q).votes_cases with hv | hv | hv | hv
  · simp [hv] at hlen
  · simp [hv] at hlen
  · simp [hv] at hlen
  · simpa [hv] using hvote

/-- A rank throws only when an operation has failed somewhere. -/
theorem Agreed.failed_of_threw (h : Agreed c s) {r : Fin P} {what : String}
    (hr : (s.ranks r).pc = .threw what) : s.failed = true := by
  obtain ⟨i, -, q, hq⟩ := h.threw r what hr
  exact h.failed_iff.mpr ⟨q, (h.shape q).err_of_refused hq⟩

/-- The rank can go on, and without a failure when no size or offset is negative. -/
def CanStep (c : Call P) (s : State P) (r : Fin P) : Prop :=
  ∃ k file failed, Local c s r k file failed ∧ (c.Legal → failed = false)

/-- Outside the agreements a rank can always go on. -/
theorem canStep_of_shape {r : Fin P} (hshape : Shape c r (s.ranks r))
    (hdone : ¬ (s.ranks r).pc.Done) (hwritten : (s.ranks r).pc ≠ .waitWritten)
    (hclosed : (s.ranks r).pc ≠ .waitClosed) : CanStep c s r := by
  rw [Shape] at hshape
  cases hpc : (s.ranks r).pc with
  | opening => exact ⟨_, _, _, .openOk hpc, fun _ => rfl⟩
  | head done =>
    rw [hpc] at hshape
    exact ⟨_, _, _, .headPiece done 1 hpc Nat.one_pos hshape.2.1, fun _ => rfl⟩
  | data done =>
    rw [hpc] at hshape
    by_cases hoff : 0 ≤ c.offset r + done
    · exact ⟨_, _, _, .dataPiece done 1 hpc hoff Nat.one_pos hshape.1, fun _ => rfl⟩
    · refine ⟨_, _, _, .dataFails done "Invalid argument" hpc, fun hlegal => ?_⟩
      have hsome : c.data r ≠ [] := List.ne_nil_of_length_pos (by omega)
      have hstart := hlegal.offset r hsome
      omega
  | agreeWritten => exact ⟨_, _, _, .agreeWritten hpc, fun _ => rfl⟩
  | waitWritten => exact absurd hpc hwritten
  | truncate =>
    by_cases htotal : 0 ≤ c.totalSize
    · exact ⟨_, _, _, .truncateOk hpc htotal, fun _ => rfl⟩
    · exact ⟨_, _, _, .truncateFails "Invalid argument" hpc,
        fun hlegal => absurd hlegal.total htotal⟩
  | close => exact ⟨_, _, _, .closeOk hpc, fun _ => rfl⟩
  | agreeClosed => exact ⟨_, _, _, .agreeClosed hpc, fun _ => rfl⟩
  | waitClosed => exact absurd hpc hclosed
  | returned => exact absurd (hpc ▸ trivial) hdone
  | threw what => exact absurd (hpc ▸ trivial) hdone

/-- A rank whose allreduce everybody has made leaves it. -/
theorem canStep_of_wait {r : Fin P}
    (hwait : (s.ranks r).pc = .waitWritten ∨ (s.ranks r).pc = .waitClosed)
    (hall : ∀ q, (s.ranks r).current < (s.ranks q).votes.length) :
    CanStep c s r := by
  by_cases hagree : s.AllAgree (s.ranks r).current
  · rcases hwait with hpc | hpc
    · exact ⟨_, _, _, .allWritten hpc hagree, fun _ => rfl⟩
    · exact ⟨_, _, _, .allClosed hpc hagree, fun _ => rfl⟩
  · have hrefuses : s.SomeRefuses (s.ranks r).current := by
      refine ⟨hall, ?_⟩
      rw [State.AllAgree, not_forall] at hagree
      obtain ⟨q, hq⟩ := hagree
      refine ⟨q, ?_⟩
      rw [List.getElem?_eq_getElem (hall q)] at hq ⊢
      simpa using hq
    rcases hwait with hpc | hpc
    · exact ⟨_, _, _, .someNotWritten hpc hrefuses, fun _ => rfl⟩
    · exact ⟨_, _, _, .someNotClosed hpc hrefuses, fun _ => rfl⟩

/-- A rank that has made no allreduce is still on its way to the first one. -/
theorem canStep_of_votes_nil {q : Fin P} (hshape : Shape c q (s.ranks q))
    (hvotes : (s.ranks q).votes = []) : CanStep c s q := by
  rw [Shape] at hshape
  apply canStep_of_shape (by rwa [Shape])
  · intro hdone
    cases hpc : (s.ranks q).pc <;> rw [hpc] at hdone hshape
    case returned => simp [hvotes] at hshape
    case threw => simp [hvotes] at hshape
    all_goals exact hdone
  · intro hpc
    simp [hpc, hvotes] at hshape
  · intro hpc
    simp [hpc, hvotes] at hshape

/-- A rank that has made only the first allreduce, which nobody refused. -/
theorem canStep_of_votes_one (h : Agreed c s) (hfirst : s.AllAgree 0) {q : Fin P}
    (hvotes : (s.ranks q).votes.length = 1) : CanStep c s q := by
  have hpos : ∀ q', 0 < (s.ranks q').votes.length := fun q' =>
    (List.getElem?_eq_some_iff.mp (hfirst q')).1
  have hshape := h.shape q
  by_cases hwait : (s.ranks q).pc = .waitWritten
  · apply canStep_of_wait (Or.inl hwait)
    rwa [Rank.current, hvotes]
  apply canStep_of_shape hshape _ hwait
  · intro hpc
    rw [Shape, hpc] at hshape
    simp [hshape.2] at hvotes
  · intro hdone
    cases hpc : (s.ranks q).pc <;> rw [hpc] at hdone
    case returned =>
      rw [Shape, hpc] at hshape
      simp [hshape.2] at hvotes
    case threw what =>
      obtain ⟨i, hlen, q', hq'⟩ := h.threw q what hpc
      have hi := hlen q
      obtain rfl : i = 0 := by omega
      simp [hfirst q'] at hq'
    all_goals exact hdone

/-- No rank waits in an agreement that another rank has skipped. -/
theorem Agreed.progress (h : Agreed c s) {r : Fin P} (hr : ¬ (s.ranks r).pc.Done) :
    ∃ q, CanStep c s q := by
  have hshape := h.shape r
  by_cases hwritten : (s.ranks r).pc = .waitWritten
  · by_cases hall : ∀ q, 0 < (s.ranks q).votes.length
    · rw [Shape, hwritten] at hshape
      refine ⟨r, canStep_of_wait (Or.inl hwritten) ?_⟩
      simpa [Rank.current, hshape] using hall
    · rw [not_forall] at hall
      obtain ⟨q, hq⟩ := hall
      have hnil : (s.ranks q).votes = [] := List.eq_nil_of_length_eq_zero (by omega)
      exact ⟨q, canStep_of_votes_nil (h.shape q) hnil⟩
  by_cases hclosed : (s.ranks r).pc = .waitClosed
  · have hfirst : s.AllAgree 0 := h.past_first r (by rw [hclosed]; trivial)
    by_cases hall : ∀ q, 1 < (s.ranks q).votes.length
    · rw [Shape, hclosed] at hshape
      refine ⟨r, canStep_of_wait (Or.inr hclosed) ?_⟩
      simpa [Rank.current, hshape.2] using hall
    · rw [not_forall] at hall
      obtain ⟨q, hq⟩ := hall
      have hpos := (List.getElem?_eq_some_iff.mp (hfirst q)).1
      exact ⟨q, canStep_of_votes_one h hfirst (by omega)⟩
  exact ⟨r, canStep_of_shape hshape hr hwritten hclosed⟩

end Outcome

section Termination

/-- A bound on the steps that a rank can still take. -/
def remaining (c : Call P) (r : Fin P) : Pc → ℕ
  | .opening => c.head.length + (c.data r).length + 10
  | .head done => (c.head.length - done) + (c.data r).length + 9
  | .data done => ((c.data r).length - done) + 8
  | .agreeWritten => 7
  | .waitWritten => 6
  | .truncate => 5
  | .close => 4
  | .agreeClosed => 3
  | .waitClosed => 2
  | .returned => 0
  | .threw _ => 0

theorem remaining_afterData (r : Fin P) (done : ℕ) :
    remaining c r (c.afterData r done) ≤ ((c.data r).length - done) + 8 := by
  rw [Call.afterData]
  split_ifs <;> simp [remaining]

theorem remaining_afterHead (r : Fin P) (done : ℕ) :
    remaining c r (c.afterHead r done) ≤ (c.head.length - done) + (c.data r).length + 9 := by
  rw [Call.afterHead]
  split_ifs
  · simp [remaining]
  · exact (remaining_afterData r 0).trans (by omega)

theorem remaining_local {s : State P} {r : Fin P} {k : Rank} {file : Option (List Byte)}
    {failed : Bool} (hlocal : Local c s r k file failed) :
    remaining c r k.pc < remaining c r (s.ranks r).pc := by
  cases hlocal with
  | openOk hpc =>
    rw [hpc]
    show remaining c r (c.afterOpen r) < c.head.length + (c.data r).length + 10
    rw [Call.afterOpen]
    split_ifs
    · exact (remaining_afterHead r 0).trans_lt (by omega)
    · exact (remaining_afterData r 0).trans_lt (by omega)
  | headPiece done n hpc hpos hle =>
    rw [hpc]
    exact (remaining_afterHead r (done + n)).trans_lt (by simp only [remaining]; omega)
  | dataPiece done n hpc hoff hpos hle =>
    rw [hpc]
    exact (remaining_afterData r (done + n)).trans_lt (by simp only [remaining]; omega)
  | allWritten hpc hall =>
    rw [hpc]
    show remaining c r (if r.val = 0 then .truncate else .close) < _
    split_ifs <;> simp [remaining]
  | openFails reason hpc => simp only [hpc, remaining]; omega
  | headFails done reason hpc => simp only [hpc, remaining]; omega
  | dataFails done reason hpc => simp only [hpc, remaining]; omega
  | agreeWritten hpc => simp [hpc, remaining]
  | someNotWritten hpc hsome => simp [hpc, remaining]
  | truncateOk hpc htotal => simp [hpc, remaining]
  | truncateFails reason hpc => simp [hpc, remaining]
  | closeOk hpc => simp [hpc, remaining]
  | closeFails reason hpc => simp [hpc, remaining]
  | agreeClosed hpc => simp [hpc, remaining]
  | allClosed hpc hall => simp [hpc, remaining]
  | someNotClosed hpc hsome => simp [hpc, remaining]

/-- Every step brings the call closer to its end. -/
theorem remaining_step {s s' : State P} (hstep : Step c s s') :
    ∑ q, remaining c q (s'.ranks q).pc < ∑ q, remaining c q (s.ranks q).pc := by
  obtain ⟨r, k, file, failed, hlocal, rfl⟩ := hstep
  have hlt := remaining_local hlocal
  apply Finset.sum_lt_sum
  · intro q _
    by_cases hq : q = r
    · subst hq
      simpa using hlt.le
    · simp [Function.update_of_ne hq]
  · exact ⟨r, Finset.mem_univ r, by simpa using hlt⟩

/-- No call goes on forever. -/
theorem wellFounded_step (c : Call P) : WellFounded fun s' s => Step c s s' := by
  apply Subrelation.wf _ (measure fun s : State P => ∑ q, remaining c q (s.ranks q).pc).wf
  intro s' s hstep
  exact remaining_step hstep

end Termination

section Bytes

/-- How much of the header has been written, as long as nothing fails. -/
def headDone (c : Call P) : Pc → ℕ
  | .opening => 0
  | .head done => done
  | _ => c.head.length

def dataDone (c : Call P) (r : Fin P) : Pc → ℕ
  | .opening => 0
  | .head _ => 0
  | .data done => done
  | _ => (c.data r).length

/-- The rank is past the truncation. -/
def PastTruncate : Pc → Prop
  | .close => True
  | .agreeClosed => True
  | .waitClosed => True
  | .returned => True
  | _ => False

theorem PastTruncate.pastFirst {pc : Pc} (h : PastTruncate pc) : PastFirst pc := by
  cases pc
  all_goals first
    | exact h
    | trivial

theorem dataDone_afterData {r : Fin P} {done : ℕ} (hle : done ≤ (c.data r).length) :
    dataDone c r (c.afterData r done) = done := by
  rw [Call.afterData]
  split_ifs with hmore
  · rfl
  · exact Nat.le_antisymm (Nat.le_of_not_lt hmore) hle

theorem headDone_afterData {r : Fin P} (done : ℕ) :
    headDone c (c.afterData r done) = c.head.length := by
  rw [Call.afterData]
  split_ifs <;> rfl

theorem dataDone_afterHead {r : Fin P} (done : ℕ) :
    dataDone c r (c.afterHead r done) = 0 := by
  rw [Call.afterHead]
  split_ifs
  · rfl
  · exact dataDone_afterData (Nat.zero_le _)

theorem headDone_afterHead {r : Fin P} {done : ℕ} (hle : done ≤ c.head.length) :
    headDone c (c.afterHead r done) = done := by
  rw [Call.afterHead]
  split_ifs
  · rfl
  · rw [headDone_afterData]
    omega

theorem dataDone_afterOpen {r : Fin P} : dataDone c r (c.afterOpen r) = 0 := by
  rw [Call.afterOpen]
  split_ifs
  · exact dataDone_afterHead 0
  · exact dataDone_afterData (Nat.zero_le _)

theorem headDone_afterOpen {r : Fin P} (hroot : r.val = 0) :
    headDone c (c.afterOpen r) = 0 := by
  rw [Call.afterOpen, if_pos hroot]
  exact headDone_afterHead (Nat.zero_le _)

/-- What the file holds as long as nothing has failed. -/
structure Stored (c : Call P) (content : List Byte) (s : State P) : Prop where
  opened : ∀ r, (s.ranks r).pc ≠ .opening → s.file ≠ none
  head : ∀ r, r.val = 0 → ∀ x < headDone c (s.ranks r).pc, Written content s.file x
  data : ∀ r, ∀ x < dataDone c r (s.ranks r).pc, Written content s.file (c.start r + x)
  cut : ∀ r, r.val = 0 → PastTruncate (s.ranks r).pc → s.file = some content

theorem stored_initial (prior : Option (List Byte)) (content : List Byte) :
    Stored c content (initial prior) where
  opened r h := by simp [initial] at h
  head r _ x hx := by simp [initial, headDone] at hx
  data r x hx := by simp [initial, dataDone] at hx
  cut r _ h := by simp [initial, PastTruncate] at h

variable {s : State P} {content : List Byte} {r : Fin P} {k : Rank}
  {file : Option (List Byte)}

theorem toNat_offset (hlegal : c.Legal) {done n : ℕ} (hpos : 0 < n)
    (hle : done + n ≤ (c.data r).length) : (c.offset r + done).toNat = c.start r + done := by
  have hsome : c.data r ≠ [] := List.ne_nil_of_length_pos (by omega)
  have hstart := hlegal.offset r hsome
  rw [Call.start]
  omega

/-- A piece of the header or of the data is a piece of the content. -/
theorem piece_of_content {part : List Byte} {start done n : ℕ}
    (hpart : ∀ x < part.length, content[start + x]? = part[x]?) (hle : done + n ≤ part.length) :
    ((part.drop done).take n).length = n ∧
      ∀ i < ((part.drop done).take n).length,
        ((part.drop done).take n)[i]? = content[start + done + i]? := by
  have hlen : ((part.drop done).take n).length = n := by
    rw [List.length_take, List.length_drop]
    omega
  refine ⟨hlen, fun i hi => ?_⟩
  rw [hlen] at hi
  rw [List.getElem?_take_of_lt hi, List.getElem?_drop, Nat.add_assoc, hpart _ (by omega)]

theorem done_of_votes (hshape : Shape c r (s.ranks r)) (hvotes : (s.ranks r).votes ≠ []) :
    headDone c (s.ranks r).pc = c.head.length ∧
      dataDone c r (s.ranks r).pc = (c.data r).length := by
  rw [Shape] at hshape
  cases hpc : (s.ranks r).pc <;> rw [hpc] at hshape
  case opening => exact absurd hshape.2.2 hvotes
  case head done => exact absurd hshape.2.2.2 hvotes
  case data done => exact absurd hshape.2.2 hvotes
  all_goals exact ⟨rfl, rfl⟩

theorem done_le {q : Fin P} (hshape : Shape c q (s.ranks q)) :
    headDone c (s.ranks q).pc ≤ c.head.length ∧
      dataDone c q (s.ranks q).pc ≤ (c.data q).length := by
  rw [Shape] at hshape
  cases hpc : (s.ranks q).pc <;> rw [hpc] at hshape
  case opening => exact ⟨Nat.zero_le _, Nat.zero_le _⟩
  case head done => exact ⟨hshape.2.1.le, Nat.zero_le _⟩
  case data done => exact ⟨Nat.le_refl _, hshape.1.le⟩
  all_goals exact ⟨Nat.le_refl _, Nat.le_refl _⟩

/-- After the first agreement every byte is written. -/
theorem written_of_allAgree (htiles : c.Tiles) (hagreed : Agreed c s)
    (hstored : Stored c content s) (hfirst : s.AllAgree 0) (hP : 0 < P) {x : ℕ}
    (hx : x < c.totalSize.toNat) : Written content s.file x := by
  have hdone : ∀ q, headDone c (s.ranks q).pc = c.head.length ∧
      dataDone c q (s.ranks q).pc = (c.data q).length := by
    intro q
    apply done_of_votes (hagreed.shape q)
    intro hnil
    have hvote := hfirst q
    simp [hnil] at hvote
  rcases (htiles.covered x).mp hx with hhead | ⟨q, hlow, hhigh⟩
  · exact hstored.head ⟨0, hP⟩ rfl x (by rw [(hdone _).1]; exact hhead)
  · obtain ⟨i, rfl⟩ := Nat.exists_eq_add_of_le hlow
    exact hstored.data q i (by rw [(hdone q).2]; omega)

/-- The truncation completes the file. -/
theorem ftruncate_eq_content (htiles : c.Tiles) (hcontent : c.IsContent content)
    (hagreed : Agreed c s) (hstored : Stored c content s) (hpc : (s.ranks r).pc = .truncate) :
    (s.file.map fun f => ftruncate f c.totalSize.toNat) = some content := by
  have hfirst := hagreed.past_first r (by rw [hpc]; trivial)
  obtain ⟨f, hf⟩ := Option.ne_none_iff_exists'.mp (hstored.opened r (by rw [hpc]; simp))
  rw [hf, Option.map_some, ← hcontent.length_eq]
  apply congrArg some
  apply ftruncate_of_written
  intro x hx
  rw [← hf]
  exact written_of_allAgree htiles hagreed hstored hfirst r.pos (hcontent.length_eq ▸ hx)

/-- What has been written stays. -/
theorem written_local (htiles : c.Tiles) (hcontent : c.IsContent content) (hagreed : Agreed c s)
    (hstored : Stored c content s) (hlocal : Local c s r k file false) {x : ℕ}
    (hx : x < content.length) (h : Written content s.file x) : Written content file x := by
  cases hlocal with
  | openOk hpc => exact h.opened
  | headPiece done n hpc hpos hle =>
    have hpart : ∀ x < c.head.length, content[0 + x]? = c.head[x]? := fun x hx => by
      rw [Nat.zero_add, hcontent.head x hx]
    have hpiece := (piece_of_content hpart hle).2
    rw [Nat.zero_add] at hpiece
    exact h.pwrite hpiece
  | dataPiece done n hpc hoff hpos hle =>
    rw [toNat_offset htiles.legal hpos hle]
    exact h.pwrite (piece_of_content (hcontent.data r) hle).2
  | truncateOk hpc htotal =>
    rw [ftruncate_eq_content htiles hcontent hagreed hstored hpc]
    exact ⟨content, rfl, hx, rfl⟩
  | _ => exact h

/-- A rank that has more written than before has just written it. -/
theorem head_local (hcontent : c.IsContent content) (hstored : Stored c content s)
    (hlocal : Local c s r k file false) (hroot : r.val = 0) {x : ℕ}
    (hx : x < headDone c k.pc) :
    x < headDone c (s.ranks r).pc ∨ Written content file x := by
  cases hlocal with
  | openOk hpc => simp [headDone_afterOpen hroot] at hx
  | headPiece done n hpc hpos hle =>
    have hx' : x < done + n := by rwa [headDone_afterHead hle] at hx
    have hpart : ∀ x < c.head.length, content[0 + x]? = c.head[x]? := fun x hx => by
      rw [Nat.zero_add, hcontent.head x hx]
    obtain ⟨hlen, hpiece⟩ := piece_of_content hpart hle
    rw [Nat.zero_add] at hpiece
    rw [hpc]
    by_cases hold : x < done
    · exact Or.inl hold
    · right
      obtain ⟨f, hf⟩ := Option.ne_none_iff_exists'.mp (hstored.opened r (by rw [hpc]; simp))
      rw [hf]
      exact written_piece hpiece ⟨by omega, by omega⟩
  | dataPiece done n hpc hoff hpos hle =>
    have hx' : x < c.head.length := by rwa [headDone_afterData] at hx
    rw [hpc]
    exact Or.inl hx'
  | agreeWritten hpc => exact Or.inl (by rw [hpc]; exact hx)
  | allWritten hpc hall =>
    simp only [hroot, if_true] at hx
    rw [hpc]
    exact Or.inl hx
  | someNotWritten hpc hsome => exact Or.inl (by rw [hpc]; exact hx)
  | truncateOk hpc htotal => exact Or.inl (by rw [hpc]; exact hx)
  | closeOk hpc => exact Or.inl (by rw [hpc]; exact hx)
  | agreeClosed hpc => exact Or.inl (by rw [hpc]; exact hx)
  | allClosed hpc hall => exact Or.inl (by rw [hpc]; exact hx)
  | someNotClosed hpc hsome => exact Or.inl (by rw [hpc]; exact hx)

theorem data_local (hlegal : c.Legal) (hcontent : c.IsContent content)
    (hstored : Stored c content s) (hlocal : Local c s r k file false) {x : ℕ}
    (hx : x < dataDone c r k.pc) :
    x < dataDone c r (s.ranks r).pc ∨ Written content file (c.start r + x) := by
  cases hlocal with
  | openOk hpc => simp [dataDone_afterOpen] at hx
  | headPiece done n hpc hpos hle => simp [dataDone_afterHead] at hx
  | dataPiece done n hpc hoff hpos hle =>
    have hx' : x < done + n := by rwa [dataDone_afterData hle] at hx
    obtain ⟨hlen, hpiece⟩ := piece_of_content (hcontent.data r) hle
    rw [hpc]
    by_cases hold : x < done
    · exact Or.inl hold
    · right
      obtain ⟨f, hf⟩ := Option.ne_none_iff_exists'.mp (hstored.opened r (by rw [hpc]; simp))
      rw [hf, toNat_offset hlegal hpos hle]
      exact written_piece hpiece ⟨by omega, by omega⟩
  | allWritten hpc hall =>
    left
    rw [hpc]
    by_cases hroot : r.val = 0
    · simp only [hroot, if_true] at hx
      exact hx
    · simp only [hroot, if_false] at hx
      exact hx
  | agreeWritten hpc => exact Or.inl (by rw [hpc]; exact hx)
  | someNotWritten hpc hsome => exact Or.inl (by rw [hpc]; exact hx)
  | truncateOk hpc htotal => exact Or.inl (by rw [hpc]; exact hx)
  | closeOk hpc => exact Or.inl (by rw [hpc]; exact hx)
  | agreeClosed hpc => exact Or.inl (by rw [hpc]; exact hx)
  | allClosed hpc hall => exact Or.inl (by rw [hpc]; exact hx)
  | someNotClosed hpc hsome => exact Or.inl (by rw [hpc]; exact hx)

/-- Once the file is cut to length, nobody changes it. -/
theorem file_eq_of_allAgree (hagreed : Agreed c s) (hfirst : s.AllAgree 0)
    (hlocal : Local c s r k file false) (hpc : (s.ranks r).pc ≠ .truncate) : file = s.file := by
  have hshape := hagreed.shape r
  have hvote := hfirst r
  rw [Shape] at hshape
  cases hlocal with
  | openOk hpc' =>
    rw [hpc'] at hshape
    simp [hshape.2.2] at hvote
  | headPiece done n hpc' hpos hle =>
    rw [hpc'] at hshape
    simp [hshape.2.2.2] at hvote
  | dataPiece done n hpc' hoff hpos hle =>
    rw [hpc'] at hshape
    simp [hshape.2.2] at hvote
  | truncateOk hpc' htotal => exact absurd hpc' hpc
  | _ => rfl

theorem not_pastTruncate_after (done : ℕ) : ¬ PastTruncate (c.afterData r done) ∧
    ¬ PastTruncate (c.afterHead r done) ∧ ¬ PastTruncate (c.afterOpen r) :=
  ⟨fun h => not_pastFirst_afterData done h.pastFirst,
    fun h => not_pastFirst_afterHead done h.pastFirst,
    fun h => not_pastFirst_afterOpen h.pastFirst⟩

theorem file_of_truncate (hlocal : Local c s r k file false) (hpc : (s.ranks r).pc = .truncate) :
    file = s.file.map fun f => ftruncate f c.totalSize.toNat := by
  cases hlocal
  case truncateOk => rfl
  all_goals
    rename_i hother
    simp_all

/-- The root gets past the truncation only by it. -/
theorem pastTruncate_local (hlocal : Local c s r k file false) (hroot : r.val = 0)
    (hk : PastTruncate k.pc) : PastTruncate (s.ranks r).pc ∨ (s.ranks r).pc = .truncate := by
  cases hlocal with
  | openOk hpc => exact absurd hk (not_pastTruncate_after 0).2.2
  | headPiece done n hpc hpos hle => exact absurd hk (not_pastTruncate_after _).2.1
  | dataPiece done n hpc hoff hpos hle => exact absurd hk (not_pastTruncate_after _).1
  | allWritten hpc hall =>
    simp only [hroot, if_true] at hk
    exact hk.elim
  | truncateOk hpc htotal => exact Or.inr hpc
  | closeOk hpc => exact Or.inl (by rw [hpc]; trivial)
  | agreeClosed hpc => exact Or.inl (by rw [hpc]; trivial)
  | allClosed hpc hall => exact Or.inl (by rw [hpc]; trivial)
  | _ => exact hk.elim

theorem opened_local (hstored : Stored c content s) (hlocal : Local c s r k file false) :
    file ≠ none := by
  cases hlocal with
  | openOk hpc => simp
  | headPiece done n hpc hpos hle =>
    simpa using hstored.opened r (by rw [hpc]; simp)
  | dataPiece done n hpc hoff hpos hle =>
    simpa using hstored.opened r (by rw [hpc]; simp)
  | truncateOk hpc htotal => simpa using hstored.opened r (by rw [hpc]; simp)
  | agreeWritten hpc => exact hstored.opened r (by rw [hpc]; simp)
  | allWritten hpc hall => exact hstored.opened r (by rw [hpc]; simp)
  | someNotWritten hpc hsome => exact hstored.opened r (by rw [hpc]; simp)
  | closeOk hpc => exact hstored.opened r (by rw [hpc]; simp)
  | agreeClosed hpc => exact hstored.opened r (by rw [hpc]; simp)
  | allClosed hpc hall => exact hstored.opened r (by rw [hpc]; simp)
  | someNotClosed hpc hsome => exact hstored.opened r (by rw [hpc]; simp)

/-- A step without a failure keeps what is stored. -/
theorem stored_step (htiles : c.Tiles) (hcontent : c.IsContent content) (hagreed : Agreed c s)
    (hstored : Stored c content s) (hlocal : Local c s r k file false) (failed : Bool) :
    Stored c content { file, ranks := Function.update s.ranks r k, failed } := by
  have hinside : ∀ x, x < c.totalSize.toNat → Written content s.file x → Written content file x :=
    fun x hx hw => written_local htiles hcontent hagreed hstored hlocal
      (hcontent.length_eq.symm ▸ hx) hw
  constructor
  case opened =>
    intro q _
    exact opened_local hstored hlocal
  case head =>
    intro q hroot x hx
    have hold : x < headDone c (s.ranks q).pc → Written content file x := fun hlt =>
      hinside x ((htiles.covered x).mpr (Or.inl
        (hlt.trans_le (done_le (hagreed.shape q)).1))) (hstored.head q hroot x hlt)
    by_cases hq : q = r
    · subst hq
      simp only [Function.update_self] at hx
      exact (head_local hcontent hstored hlocal hroot hx).elim hold id
    · simp only [Function.update_of_ne hq] at hx
      exact hold hx
  case data =>
    intro q x hx
    have hold : x < dataDone c q (s.ranks q).pc → Written content file (c.start q + x) := by
      intro hlt
      have hle := (done_le (hagreed.shape q)).2
      exact hinside _ ((htiles.covered _).mpr (Or.inr ⟨q, by omega, by omega⟩))
        (hstored.data q x hlt)
    by_cases hq : q = r
    · subst hq
      simp only [Function.update_self] at hx
      exact (data_local htiles.legal hcontent hstored hlocal hx).elim hold id
    · simp only [Function.update_of_ne hq] at hx
      exact hold hx
  case cut =>
    intro q hroot hpast
    have hold : PastTruncate (s.ranks q).pc → (s.ranks r).pc ≠ .truncate →
        file = some content := by
      intro hq hr
      have hfirst := hagreed.past_first q hq.pastFirst
      rw [file_eq_of_allAgree hagreed hfirst hlocal hr]
      exact hstored.cut q hroot hq
    by_cases hq : q = r
    · subst hq
      simp only [Function.update_self] at hpast
      rcases pastTruncate_local hlocal hroot hpast with hbefore | hnow
      · apply hold hbefore
        intro hpc
        rw [hpc] at hbefore
        exact hbefore
      · rw [← ftruncate_eq_content htiles hcontent hagreed hstored hnow]
        exact file_of_truncate hlocal hnow
    · simp only [Function.update_of_ne hq] at hpast
      apply hold hpast
      intro hpc
      have hshape := hagreed.shape r
      rw [Shape, hpc] at hshape
      exact hq (Fin.ext (hroot.trans hshape.1.symm))

/-- What the system has let through. -/
structure Passed (c : Call P) (s : State P) : Prop where
  offset : ∀ r, 0 < dataDone c r (s.ranks r).pc → 0 ≤ c.offset r
  total : ∀ r, r.val = 0 → PastTruncate (s.ranks r).pc → 0 ≤ c.totalSize

theorem passed_initial (prior : Option (List Byte)) : Passed c (initial prior) where
  offset r h := by simp [initial, dataDone] at h
  total r _ h := by simp [initial, PastTruncate] at h

theorem offset_local (hlocal : Local c s r k file false)
    (h : 0 < dataDone c r (s.ranks r).pc → 0 ≤ c.offset r) (hk : 0 < dataDone c r k.pc) :
    0 ≤ c.offset r := by
  cases hlocal with
  | openOk hpc => simp [dataDone_afterOpen] at hk
  | headPiece done n hpc hpos hle => simp [dataDone_afterHead] at hk
  | dataPiece done n hpc hoff hpos hle =>
    rw [hpc] at h
    rcases Nat.eq_zero_or_pos done with rfl | hdone
    · simpa using hoff
    · exact h hdone
  | allWritten hpc hall =>
    rw [hpc] at h
    by_cases hroot : r.val = 0
    · simp only [hroot, if_true] at hk
      exact h hk
    · simp only [hroot, if_false] at hk
      exact h hk
  | agreeWritten hpc => exact h (by rw [hpc]; exact hk)
  | someNotWritten hpc hsome => exact h (by rw [hpc]; exact hk)
  | truncateOk hpc htotal => exact h (by rw [hpc]; exact hk)
  | closeOk hpc => exact h (by rw [hpc]; exact hk)
  | agreeClosed hpc => exact h (by rw [hpc]; exact hk)
  | allClosed hpc hall => exact h (by rw [hpc]; exact hk)
  | someNotClosed hpc hsome => exact h (by rw [hpc]; exact hk)

theorem total_of_truncate (hlocal : Local c s r k file false)
    (hpc : (s.ranks r).pc = .truncate) : 0 ≤ c.totalSize := by
  cases hlocal
  case truncateOk htotal => exact htotal
  all_goals
    rename_i hother
    simp_all

theorem passed_step (h : Passed c s) (hlocal : Local c s r k file false) (failed : Bool) :
    Passed c { file, ranks := Function.update s.ranks r k, failed } := by
  constructor
  case offset =>
    intro q hq
    by_cases hqr : q = r
    · subst hqr
      simp only [Function.update_self] at hq
      exact offset_local hlocal (h.offset q) hq
    · simp only [Function.update_of_ne hqr] at hq
      exact h.offset q hq
  case total =>
    intro q hroot hq
    by_cases hqr : q = r
    · subst hqr
      simp only [Function.update_self] at hq
      rcases pastTruncate_local hlocal hroot hq with hbefore | hnow
      · exact h.total q hroot hbefore
      · exact total_of_truncate hlocal hnow
    · simp only [Function.update_of_ne hqr] at hq
      exact h.total q hroot hq

end Bytes

section Runs

variable {s : State P}

theorem agreed_of_reachable {prior : Option (List Byte)} (h : Reachable c prior s) :
    Agreed c s := by
  rw [Reachable] at h
  induction h with
  | refl => exact agreed_initial prior
  | tail _ hstep ih => exact agreed_step ih hstep

/-- What one step without a failure keeps holds after every run without a failure. -/
theorem invariant_of_reachable {I : State P → Prop} {prior : Option (List Byte)}
    (hinit : I (initial prior))
    (hkeep : ∀ s r k file, Agreed c s → I s → Local c s r k file false →
      I { file, ranks := Function.update s.ranks r k, failed := false })
    (h : Reachable c prior s) (hfailed : s.failed = false) : I s := by
  rw [Reachable] at h
  induction h with
  | refl => exact hinit
  | @tail b _ hreach hstep ih =>
    obtain ⟨r, k, file, failed, hlocal, rfl⟩ := hstep
    obtain ⟨hbefore, rfl⟩ := Bool.or_eq_false_iff.mp hfailed
    have hkept := hkeep b r k file (agreed_of_reachable hreach) (ih hbefore) hlocal
    rwa [hbefore]

theorem stored_of_reachable (htiles : c.Tiles) {content : List Byte}
    (hcontent : c.IsContent content) {prior : Option (List Byte)} (h : Reachable c prior s)
    (hfailed : s.failed = false) : Stored c content s :=
  invariant_of_reachable (stored_initial prior content)
    (fun _ _ _ _ hagreed hstored hlocal =>
      stored_step htiles hcontent hagreed hstored hlocal false) h hfailed

/-- Where a rank returns without a failure anywhere, the root is past the truncation. -/
theorem pastTruncate_of_returned (hagreed : Agreed c s) {r : Fin P}
    (hr : (s.ranks r).pc = .returned) : PastTruncate (s.ranks ⟨0, r.pos⟩).pc := by
  have hshape := hagreed.shape ⟨0, r.pos⟩
  have hvote := hagreed.returned r hr ⟨0, r.pos⟩
  have hunfailed := hagreed.not_failed_of_returned hr
  cases hpc : (s.ranks ⟨0, r.pos⟩).pc <;> rw [Shape, hpc] at hshape
  case waitClosed => trivial
  case returned => trivial
  case threw what =>
    rw [hagreed.failed_of_threw hpc] at hunfailed
    cases hunfailed
  all_goals simp [hshape] at hvote

/-- A call that returns has had no negative size or offset. -/
theorem legal_of_returned {prior : Option (List Byte)} (h : Reachable c prior s) {r : Fin P}
    (hr : (s.ranks r).pc = .returned) : c.Legal := by
  have hagreed := agreed_of_reachable h
  have hfailed := hagreed.not_failed_of_returned hr
  have hpassed : Passed c s := invariant_of_reachable (passed_initial prior)
    (fun _ _ _ _ _ hpassed hlocal => passed_step hpassed hlocal false) h hfailed
  constructor
  · intro q hsome
    apply hpassed.offset q
    have hvotes : (s.ranks q).votes ≠ [] := by
      intro hnil
      have hvote := hagreed.returned r hr q
      simp [hnil] at hvote
    rw [(done_of_votes (hagreed.shape q) hvotes).2]
    exact List.length_pos_of_ne_nil hsome
  · exact hpassed.total ⟨0, r.pos⟩ rfl (pastTruncate_of_returned hagreed hr)

/-- The root has cut the file before anybody returns. -/
theorem file_of_returned {content : List Byte} (hagreed : Agreed c s)
    (hstored : Stored c content s) {r : Fin P} (hr : (s.ranks r).pc = .returned) :
    s.file = some content :=
  hstored.cut ⟨0, r.pos⟩ rfl (pastTruncate_of_returned hagreed hr)

theorem Agreed.fd_closed (h : Agreed c s) {r : Fin P} (hdone : (s.ranks r).pc.Done) :
    (s.ranks r).fd = false := by
  have hshape := h.shape r
  rw [Shape] at hshape
  cases hpc : (s.ranks r).pc <;> rw [hpc] at hshape hdone
  case returned => exact hshape.1
  case threw what => exact hshape.1
  all_goals exact hdone.elim

/-- Where no rank can go on, all have left the call, and alike. -/
theorem Agreed.finished (h : Agreed c s) (hstuck : ∀ s', ¬ Step c s s') (r : Fin P) :
    (s.failed = true ∧ ∃ what, (s.ranks r).pc = .threw what) ∨
      (s.failed = false ∧ (s.ranks r).pc = .returned) := by
  have hdone : (s.ranks r).pc.Done := by
    by_contra hr
    obtain ⟨q, k, file, failed, hlocal, -⟩ := h.progress hr
    exact hstuck _ ⟨q, k, file, failed, hlocal, rfl⟩
  cases hpc : (s.ranks r).pc <;> rw [hpc] at hdone
  case returned => exact Or.inr ⟨h.not_failed_of_returned hpc, rfl⟩
  case threw what => exact Or.inl ⟨h.failed_of_threw hpc, what, rfl⟩
  all_goals exact hdone.elim

/-- However the ranks interleave and wherever they fail, they leave the call alike: without a
failure with the tiled file, and otherwise all with an exception. -/
theorem writeSharedFile_outcome (c : Call P) (htiles : c.Tiles) (prior : Option (List Byte)) :
    ∃ content, c.IsContent content ∧ (∀ content', c.IsContent content' → content' = content) ∧
      WellFounded (fun s' s : State P => Step c s s') ∧
      ∀ s, Reachable c prior s →
        ((∃ r, ¬ (s.ranks r).pc.Done) → ∃ s', Step c s s' ∧ s'.failed = s.failed) ∧
        (∀ r, (s.ranks r).pc.Done → (s.ranks r).fd = false) ∧
        (s.failed = false → (∀ r what, (s.ranks r).pc ≠ .threw what) ∧
          ∀ r, (s.ranks r).pc = .returned → s.file = some content) ∧
        (s.failed = true → ∀ r, (s.ranks r).pc ≠ .returned) ∧
        ((∀ s', ¬ Step c s s') → ∀ r,
          (s.failed = true ∧ ∃ what, (s.ranks r).pc = .threw what) ∨
            (s.failed = false ∧ (s.ranks r).pc = .returned)) := by
  obtain ⟨content, hcontent⟩ := exists_isContent htiles
  refine ⟨content, hcontent, fun _ h => isContent_unique htiles h hcontent, wellFounded_step c, ?_⟩
  intro s hreach
  have hagreed := agreed_of_reachable hreach
  have hstored := stored_of_reachable htiles hcontent hreach
  refine ⟨?_, fun r => hagreed.fd_closed, ?_, ?_, hagreed.finished⟩
  · rintro ⟨r, hr⟩
    obtain ⟨q, k, file, failed, hlocal, hlegal⟩ := hagreed.progress hr
    refine ⟨_, ⟨q, k, file, failed, hlocal, rfl⟩, ?_⟩
    rw [hlegal htiles.legal, Bool.or_false]
  · intro hfailed
    refine ⟨fun r what hr => ?_, fun r hr => file_of_returned hagreed (hstored hfailed) hr⟩
    rw [hagreed.failed_of_threw hr] at hfailed
    cases hfailed
  · intro hfailed r hr
    rw [hagreed.not_failed_of_returned hr] at hfailed
    cases hfailed

/-- Two ranks behind a header of one byte. -/
def twoRanks : Call 2 :=
  { label := "test", path := "p", head := [7], totalSize := 4
    data := fun r => if r.val = 0 then [1, 2] else [3]
    offset := fun r => if r.val = 0 then 1 else 3 }

theorem twoRanks_tiles : twoRanks.Tiles where
  legal := ⟨fun r _ => by fin_cases r <;> simp [twoRanks], by decide⟩
  covered x := by
    simp [Call.Owns, Call.start, twoRanks, Fin.exists_fin_two]
    omega
  head_disjoint r x := by
    fin_cases r <;> simp [Call.Owns, Call.start, twoRanks] <;> omega
  disjoint r r' x := by
    fin_cases r <;> fin_cases r' <;> simp [Call.Owns, Call.start, twoRanks] <;> omega

theorem writeSharedFile_outcome_two :
    ∃ content, twoRanks.IsContent content ∧
      ∀ s, Reachable twoRanks (some [9, 9, 9, 9, 9, 9]) s →
        (s.failed = false → (∀ r what, (s.ranks r).pc ≠ .threw what) ∧
          ∀ r, (s.ranks r).pc = .returned → s.file = some content) ∧
        (s.failed = true → ∀ r, (s.ranks r).pc ≠ .returned) :=
  let ⟨content, hcontent, _, _, hall⟩ :=
    writeSharedFile_outcome twoRanks twoRanks_tiles (some [9, 9, 9, 9, 9, 9])
  ⟨content, hcontent, fun s hs => ⟨(hall s hs).2.2.1, (hall s hs).2.2.2.1⟩⟩

end Runs

end PatternSearch.ParallelFileRun
