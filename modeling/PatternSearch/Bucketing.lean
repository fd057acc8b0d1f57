import PatternSearch.Collectives
import PatternSearch.SortedLists

/-!
Preparing a personalised exchange: tally the entries per target rank, turn the tallies
into offsets, and scatter the entries to per-target write heads. All bookkeeping is in
int. The result is the stable grouping by target, and it is reached exactly when the
number of entries fits in int: the last write head ends at that number. The tallies of all
ranks make a table; where its index is an int, there are only so many ranks.
-/

namespace PatternSearch.Bucketing

open Machine Collectives

variable {α : Type} {P : ℕ}

/-- `++counts[t]` on an array of P ints. -/
def increment (counts : Fin P → ℕ) (t : ℕ) : Except Fault (Fin P → ℕ) :=
  if h : t < P then do
    let c ← intAdd (counts ⟨t, h⟩) 1
    return Function.update counts ⟨t, h⟩ c
  else .error .outOfBounds

/-- One increment for every entry. -/
def tally (target : α → ℕ) (xs : List α) : Except Fault (Fin P → ℕ) :=
  xs.foldlM (fun counts x => increment counts (target x)) fun _ => 0

/-- `offsets[r] = offsets[r - 1] + counts[r - 1]`, starting from 0. -/
def offsetAt (counts : Fin P → ℕ) : ℕ → Except Fault ℕ
  | 0 => .ok 0
  | r + 1 => do
    let previous ← offsetAt counts r
    if h : r < P then intAdd previous (counts ⟨r, h⟩) else .error .outOfBounds

def offsets (counts : Fin P → ℕ) : Except Fault (Fin P → ℕ) :=
  onRanks fun r => offsetAt counts r

/-- `buf[cursor[t]++] = x`. -/
def writeAt (target : α → ℕ) (state : List α × (Fin P → ℕ)) (x : α) :
    Except Fault (List α × (Fin P → ℕ)) :=
  if h : target x < P then do
    let cursor := state.2 ⟨target x, h⟩
    if cursor < state.1.length then do
      let next ← intAdd cursor 1
      return (state.1.set cursor x, Function.update state.2 ⟨target x, h⟩ next)
    else .error .outOfBounds
  else .error .outOfBounds

/-- Write every entry at its target's write head; the heads start at the offsets. -/
def scatter [Inhabited α] (target : α → ℕ) (xs : List α) (size : ℕ) (heads : Fin P → ℕ) :
    Except Fault (List α × (Fin P → ℕ)) :=
  xs.foldlM (writeAt target) (List.replicate size default, heads)

/-- The entries for one target, in their order. -/
def bucket (target : α → ℕ) (xs : List α) (t : Fin P) : List α :=
  xs.filter fun x => target x = t

def bucketSize (target : α → ℕ) (xs : List α) (t : Fin P) : ℕ := (bucket target xs t).length

variable {target : α → ℕ} {xs : List α}

theorem bucket_cons (x : α) (t : Fin P) :
    bucket target (x :: xs) t =
      if target x = t then x :: bucket target xs t else bucket target xs t := by
  unfold bucket
  by_cases h : target x = t
  · rw [if_pos h, List.filter_cons_of_pos (by simpa using h)]
  · rw [if_neg h, List.filter_cons_of_neg (by simpa using h)]

theorem mem_bucket {x : α} {t : Fin P} : x ∈ bucket target xs t ↔ x ∈ xs ∧ target x = t := by
  simp [bucket]

/-- Grouping renamed entries renames the groups. -/
theorem bucket_map {β : Type} {target' : β → ℕ} {f : β → α} {l : List β}
    (h : ∀ b ∈ l, target (f b) = target' b) (t : Fin P) :
    bucket target (l.map f) t = (bucket target' l t).map f := by
  unfold bucket
  rw [List.filter_map]
  congr 1
  apply List.filter_congr
  intro b hb
  rw [Function.comp_apply, h b hb]

theorem bucketSize_cons (x : α) (t : Fin P) :
    bucketSize target (x :: xs) t =
      (if target x = t then 1 else 0) + bucketSize target xs t := by
  rw [bucketSize, bucketSize, bucket_cons]
  split_ifs
  · rw [List.length_cons, Nat.add_comm]
  · rw [Nat.zero_add]

theorem sum_bucketSize (ht : ∀ x ∈ xs, target x < P) :
    ∑ t : Fin P, bucketSize target xs t = xs.length := by
  induction xs with
  | nil => simp [bucketSize, bucket]
  | cons x xs ih =>
    have hx : target x < P := ht x (List.mem_cons_self ..)
    have htail := ih fun y hy => ht y (List.mem_cons_of_mem _ hy)
    simp only [bucketSize_cons, Finset.sum_add_distrib, htail, List.length_cons]
    have hone : ∑ t : Fin P, (if target x = t then 1 else 0) = 1 := by
      rw [Finset.sum_eq_single ⟨target x, hx⟩]
      · simp
      · intro t _ hne
        rw [if_neg fun heq => hne (Fin.ext heq.symm)]
      · simp
    rw [hone, Nat.add_comm]

theorem displacement_le_length (ht : ∀ x ∈ xs, target x < P) {r : ℕ} (hr : r ≤ P) :
    displacement (bucketSize (P := P) target xs) r ≤ xs.length := by
  rw [← sum_bucketSize ht, ← displacement_last]
  exact displacement_mono _ hr

theorem increment_eq_of_lt (counts : Fin P → ℕ) (t : Fin P) :
    increment counts t =
      if counts t + 1 ≤ intMax then .ok (Function.update counts t (counts t + 1))
      else .error .overflow := by
  rw [increment, dif_pos t.isLt]
  unfold intAdd
  split_ifs <;> rfl

/-- The tallies are exact as long as every one of them fits in int. -/
theorem foldlM_increment (ht : ∀ x ∈ xs, target x < P) (counts : Fin P → ℕ)
    (hcounts : ∀ t, counts t ≤ intMax) :
    xs.foldlM (fun counts x => increment counts (target x)) counts =
      if ∀ t, counts t + bucketSize target xs t ≤ intMax then
        .ok fun t => counts t + bucketSize target xs t
      else .error .overflow := by
  induction xs generalizing counts with
  | nil => simp [bucketSize, bucket, hcounts]
  | cons x xs ih =>
    have hx : target x < P := ht x (List.mem_cons_self ..)
    have htail : ∀ y ∈ xs, target y < P := fun y hy => ht y (List.mem_cons_of_mem _ hy)
    rw [List.foldlM_cons, increment_eq_of_lt counts ⟨target x, hx⟩]
    have hsum : ∀ t, Function.update counts ⟨target x, hx⟩ (counts ⟨target x, hx⟩ + 1) t +
        bucketSize target xs t = counts t + bucketSize target (x :: xs) t := by
      intro t
      rw [bucketSize_cons]
      by_cases h : t = ⟨target x, hx⟩
      · subst t
        simp only [Function.update_self, if_true]
        omega
      · have hne : target x ≠ t := fun heq => h (Fin.ext heq.symm)
        rw [Function.update_of_ne h, if_neg hne, Nat.zero_add]
    by_cases hroom : counts ⟨target x, hx⟩ + 1 ≤ intMax
    · rw [if_pos hroom, ok_bind, ih htail]
      · simp only [hsum]
      · intro t
        by_cases h : t = ⟨target x, hx⟩
        · subst t
          rw [Function.update_self]
          exact hroom
        · rw [Function.update_of_ne h]
          exact hcounts t
    · rw [if_neg hroom, error_bind, if_neg]
      intro hall
      have h := hall ⟨target x, hx⟩
      rw [bucketSize_cons] at h
      simp only [if_true] at h
      omega

theorem tally_eq (ht : ∀ x ∈ xs, target x < P) :
    tally (P := P) target xs =
      if ∀ t : Fin P, bucketSize target xs t ≤ intMax then .ok (bucketSize target xs)
      else .error .overflow := by
  rw [tally, foldlM_increment ht _ fun _ => Nat.zero_le _]
  simp only [Nat.zero_add]

theorem offsetAt_eq (counts : Fin P → ℕ) (r : ℕ) (hr : r ≤ P) :
    offsetAt counts r =
      if displacement counts r ≤ intMax then .ok (displacement counts r)
      else .error .overflow := by
  induction r with
  | zero => rfl
  | succ r ih =>
    have hrP : r < P := hr
    have hsucc : displacement counts (r + 1) = displacement counts r + counts ⟨r, hrP⟩ :=
      displacement_succ counts ⟨r, hrP⟩
    rw [offsetAt, ih (Nat.le_of_succ_le hr)]
    by_cases hle : displacement counts r ≤ intMax
    · rw [if_pos hle, ok_bind, dif_pos hrP, intAdd]
      simp only [hsucc]
    · rw [if_neg hle, error_bind, if_neg (by omega)]

theorem offsets_eq_ok_iff (counts : Fin P → ℕ) (o : Fin P → ℕ) :
    offsets counts = .ok o ↔
      (∀ r : Fin P, displacement counts r ≤ intMax) ∧
        o = fun r : Fin P => displacement counts r := by
  rw [offsets, onRanks_eq_ok_iff]
  simp only [offsetAt_eq counts _ (Fin.is_lt _).le]
  constructor
  · intro h
    have hfit : ∀ r : Fin P, displacement counts r ≤ intMax := by
      intro r
      by_contra hover
      have hr := h r
      rw [if_neg hover] at hr
      cases hr
    refine ⟨hfit, funext fun r => ?_⟩
    have hr := h r
    rw [if_pos (hfit r)] at hr
    exact (Except.ok.inj hr).symm
  · rintro ⟨hfit, rfl⟩ r
    rw [if_pos (hfit r)]

section Scatter

variable [Inhabited α]

/-- The buffer while it is being filled: every target's part holds what was written to it,
followed by the room that is left. -/
def partlyFilled (target : α → ℕ) (written left : List α) (t : Fin P) : List α :=
  bucket target written t ++ List.replicate (bucketSize target left t) default

theorem length_partlyFilled (written left : List α) (t : Fin P) :
    (partlyFilled target written left t).length = bucketSize target (written ++ left) t := by
  simp [partlyFilled, bucketSize, bucket, List.filter_append]

omit [Inhabited α] in
private theorem bucket_append (ys : List α) (t : Fin P) :
    bucket target (ys ++ xs) t = bucket target ys t ++ bucket target xs t := by
  simp [bucket, List.filter_append]

private theorem set_partlyFilled (written left : List α) (x : α) (t : Fin P)
    (hx : target x = t) :
    (partlyFilled target written (x :: left) t).set (bucketSize target written t) x =
      partlyFilled target (written ++ [x]) left t := by
  have hsize : bucketSize target (x :: left) t = bucketSize target left t + 1 := by
    rw [bucketSize_cons, if_pos hx, Nat.add_comm]
  have hone : bucket target [x] t = [x] := by rw [bucket_cons, if_pos hx]; rfl
  rw [partlyFilled, partlyFilled, bucket_append, hone, hsize, List.replicate_succ]
  change (bucket target written t ++ default :: _).set (bucket target written t).length x = _
  rw [List.set_append_right _ _ (le_refl _), Nat.sub_self, List.set_cons_zero, List.append_assoc]
  rfl

private theorem partlyFilled_of_ne (written left : List α) (x : α) (t : Fin P)
    (hx : target x ≠ t) :
    partlyFilled target (written ++ [x]) left t = partlyFilled target written (x :: left) t := by
  have hone : bucket target [x] t = [] := by rw [bucket_cons, if_neg hx]; rfl
  rw [partlyFilled, partlyFilled, bucket_append, hone, List.append_nil, bucketSize_cons,
    if_neg hx, Nat.zero_add]

/-- Buffer and write heads after `written`, with `left` still to come. -/
def fillState (P : ℕ) (target : α → ℕ) (written left : List α) : List α × (Fin P → ℕ) :=
  (gather fun t : Fin P => partlyFilled target written left t,
    fun t => displacement (fun s : Fin P => bucketSize target (written ++ left) s) t +
      bucketSize target written t)

theorem length_partlyFilled_eq (written left : List α) :
    (fun s : Fin P => (partlyFilled target written left s).length) =
      fun s : Fin P => bucketSize target (written ++ left) s :=
  funext fun s => length_partlyFilled written left s

/-- The part of an entry that is still to come has room left. -/
theorem bucketSize_lt_partlyFilled (written left : List α) (x : α) (t : Fin P)
    (hx : target x = t) :
    bucketSize target written t < (partlyFilled target written (x :: left) t).length := by
  rw [partlyFilled, List.length_append, List.length_replicate, bucketSize_cons, if_pos hx]
  unfold bucketSize
  omega

/-- So its write head lies inside the buffer. -/
theorem head_fillState_lt (written left : List α) (x : α) (t : Fin P) (hx : target x = t) :
    (fillState P target written (x :: left)).2 t <
      (fillState P target written (x :: left)).1.length := by
  have hroom := bucketSize_lt_partlyFilled written left x t hx
  rw [length_partlyFilled] at hroom
  have hend := block_end_le (fun s : Fin P => bucketSize target (written ++ x :: left) s) t
  simp only [fillState, length_gather, length_partlyFilled_eq]
  omega

/-- Storing an entry at its write head and advancing the head moves the entry from what is to
come to what is written. -/
theorem set_fillState (written left : List α) (x : α) (t : Fin P) (hx : target x = t) :
    ((fillState P target written (x :: left)).1.set
          ((fillState P target written (x :: left)).2 t) x,
        Function.update (fillState P target written (x :: left)).2 t
          ((fillState P target written (x :: left)).2 t + 1)) =
      fillState P target (written ++ [x]) left := by
  have hother : ∀ s, s ≠ t → target x ≠ s := fun s hs h => hs (Fin.ext (h.symm.trans hx))
  apply Prod.ext
  · have hset := set_gather (partlyFilled target written (x :: left)) t _ x
      (bucketSize_lt_partlyFilled written left x t hx)
    rw [length_partlyFilled_eq] at hset
    refine Eq.trans hset (congrArg gather (funext fun s => ?_))
    by_cases hs : s = t
    · subst s
      rw [Function.update_self]
      exact set_partlyFilled written left x t hx
    · rw [Function.update_of_ne hs]
      exact (partlyFilled_of_ne written left x s (hother s hs)).symm
  · funext s
    have happend : (written ++ [x]) ++ left = written ++ x :: left := by simp
    have hone : bucketSize target (written ++ [x]) s =
        bucketSize target written s + bucketSize target [x] s := by
      rw [bucketSize, bucketSize, bucketSize, bucket_append, List.length_append]
    have hnil : bucketSize target [] s = 0 := rfl
    simp only [fillState, happend, hone, bucketSize_cons, hnil, Nat.add_zero]
    by_cases hs : s = t
    · subst s
      rw [Function.update_self, if_pos hx, Nat.add_assoc]
    · rw [Function.update_of_ne hs, if_neg (hother s hs), Nat.add_zero]

/-- One write moves one entry from the room left to the written part. -/
theorem writeAt_fillState (written left : List α) (x : α) (t : Fin P) (hx : target x = t) :
    writeAt target (fillState P target written (x :: left)) x =
      if (fillState P target written (x :: left)).2 t + 1 ≤ intMax then
        .ok (fillState P target (written ++ [x]) left)
      else .error .overflow := by
  have hxP : target x < P := hx ▸ t.isLt
  have htx : (⟨target x, hxP⟩ : Fin P) = t := Fin.ext hx
  rw [writeAt, dif_pos hxP, htx, if_pos (head_fillState_lt written left x t hx)]
  unfold intAdd
  by_cases hfit : (fillState P target written (x :: left)).2 t + 1 ≤ intMax
  · rw [if_pos hfit, if_pos hfit, ok_bind, pure_eq_ok, set_fillState written left x t hx]
  · rw [if_neg hfit, if_neg hfit, error_bind]

/-- The last value the write head of a target takes. -/
def finalHead (P : ℕ) (target : α → ℕ) (xs : List α) (t : Fin P) : ℕ :=
  displacement (fun s : Fin P => bucketSize target xs s) t + bucketSize target xs t

theorem foldlM_writeAt (written left : List α) (ht : ∀ x ∈ left, target x < P)
    (hheads : ∀ t, (fillState P target written left).2 t ≤ intMax) :
    left.foldlM (writeAt target) (fillState P target written left) =
      if ∀ t, finalHead P target (written ++ left) t ≤ intMax then
        .ok (fillState P target (written ++ left) [])
      else .error .overflow := by
  induction left generalizing written with
  | nil =>
    have hsame : ∀ t, finalHead P target (written ++ []) t ≤ intMax := by
      simpa [finalHead, fillState] using hheads
    rw [if_pos hsame, List.append_nil]
    rfl
  | cons x left ih =>
    have hx : target x < P := ht x (List.mem_cons_self ..)
    have htail : ∀ y ∈ left, target y < P := fun y hy => ht y (List.mem_cons_of_mem _ hy)
    have happend : written ++ x :: left = (written ++ [x]) ++ left := by simp
    have hone : ∀ s : Fin P, bucketSize target (written ++ [x]) s =
        bucketSize target written s + if target x = s then 1 else 0 := by
      intro s
      rw [bucketSize, bucket_append, List.length_append]
      exact congrArg _ (bucketSize_cons x s)
    rw [List.foldlM_cons, writeAt_fillState written left x ⟨target x, hx⟩ rfl]
    by_cases hfit : (fillState P target written (x :: left)).2 ⟨target x, hx⟩ + 1 ≤ intMax
    · rw [if_pos hfit, ok_bind, happend, ih (written ++ [x]) htail]
      intro s
      have hs := hheads s
      simp only [fillState, ← happend, hone] at hs hfit ⊢
      by_cases heq : target x = s
      · obtain rfl : s = ⟨target x, hx⟩ := Fin.ext heq.symm
        rw [if_pos rfl]
        omega
      · rw [if_neg heq]
        omega
    · rw [if_neg hfit, error_bind, if_neg]
      intro hall
      have h := hall ⟨target x, hx⟩
      have hmono : bucketSize target (written ++ x :: left) ⟨target x, hx⟩ =
          bucketSize target written ⟨target x, hx⟩ + 1 + bucketSize target left ⟨target x, hx⟩ := by
        rw [bucketSize, bucket_append, List.length_append, bucket_cons, if_pos rfl,
          List.length_cons]
        unfold bucketSize
        omega
      simp only [finalHead, fillState] at h hfit
      omega

end Scatter

/-- The bookkeeping of one exchange on one rank. -/
structure Plan (α : Type) (P : ℕ) where
  counts : Fin P → ℕ
  offsets : Fin P → ℕ
  buffer : List α
  cursors : Fin P → ℕ

/-- The three loops in a row. -/
def plan [Inhabited α] (target : α → ℕ) (xs : List α) : Except Fault (Plan α P) := do
  let counts ← tally target xs
  let heads ← offsets counts
  let filled ← scatter target xs xs.length heads
  return ⟨counts, heads, filled.1, filled.2⟩

/-- What the bookkeeping is when computed without bounds on the integers. -/
def exactPlan (P : ℕ) (target : α → ℕ) (xs : List α) : Plan α P where
  counts := bucketSize target xs
  offsets t := displacement (fun s : Fin P => bucketSize target xs s) t
  buffer := gather fun t : Fin P => bucket target xs t
  cursors := finalHead P target xs

theorem finalHead_le_length (ht : ∀ x ∈ xs, target x < P) (t : Fin P) :
    finalHead P target xs t ≤ xs.length := by
  have hstep := displacement_succ (fun s : Fin P => bucketSize target xs s) t
  have hle := displacement_le_length ht (show (t : ℕ) + 1 ≤ P from t.isLt)
  unfold finalHead
  exact hstep ▸ hle

/-- The write head of the last rank ends at the number of entries. -/
theorem exists_finalHead_eq_length (ht : ∀ x ∈ xs, target x < P) (hP : 0 < P) :
    ∃ t : Fin P, finalHead P target xs t = xs.length := by
  refine ⟨⟨P - 1, Nat.sub_lt hP Nat.one_pos⟩, ?_⟩
  have hstep := displacement_succ (fun s : Fin P => bucketSize target xs s)
    ⟨P - 1, Nat.sub_lt hP Nat.one_pos⟩
  have hlast : P - 1 + 1 = P := by omega
  rw [hlast, displacement_last, sum_bucketSize ht] at hstep
  exact hstep.symm

/-- Before the first entry is written the buffer holds nothing and the heads are the offsets. -/
theorem fillState_nil [Inhabited α] (ht : ∀ x ∈ xs, target x < P) :
    fillState P target [] xs = (List.replicate xs.length default,
      fun t : Fin P => displacement (fun s : Fin P => bucketSize target xs s) t) := by
  apply Prod.ext
  · have hlen : (gather fun t : Fin P => partlyFilled target [] xs t).length = xs.length := by
      rw [length_gather]
      simp only [length_partlyFilled, List.nil_append]
      rw [displacement_last, sum_bucketSize ht]
    refine List.eq_replicate_iff.mpr ⟨hlen, fun y hy => ?_⟩
    obtain ⟨t, hyt⟩ := mem_gather.mp hy
    exact List.eq_of_mem_replicate (by simpa [partlyFilled, bucket] using hyt)
  · funext t
    simp [fillState, bucketSize, bucket]

/-- The exchange is prepared exactly when the number of entries fits in int; every count,
offset and write head is then the true one. -/
theorem plan_eq_ok_iff [Inhabited α] (ht : ∀ x ∈ xs, target x < P) (hP : 0 < P)
    (p : Plan α P) :
    plan target xs = .ok p ↔ xs.length ≤ intMax ∧ p = exactPlan P target xs := by
  have hscatter := foldlM_writeAt (P := P) [] xs ht
  have hstart := fillState_nil (P := P) ht
  have hfinal : (∀ t, finalHead P target xs t ≤ intMax) ↔ xs.length ≤ intMax := by
    constructor
    · intro h
      obtain ⟨t, heq⟩ := exists_finalHead_eq_length ht hP
      exact heq ▸ h t
    · exact fun h t => le_trans (finalHead_le_length ht t) h
  have hend : fillState P target xs [] =
      ((exactPlan P target xs).buffer, (exactPlan P target xs).cursors) := by
    simp only [fillState, exactPlan, partlyFilled, List.append_nil]
    apply Prod.ext
    · simp [bucketSize, bucket]
    · rfl
  simp only [plan, bind_eq_ok, pure_eq_ok, Except.ok.injEq]
  constructor
  · rintro ⟨counts, hcounts, heads, hheads, filled, hfilled, rfl⟩
    rw [tally_eq ht] at hcounts
    split_ifs at hcounts
    obtain rfl := Except.ok.inj hcounts
    obtain ⟨hfits, rfl⟩ := (offsets_eq_ok_iff _ _).mp hheads
    rw [scatter, ← hstart, hscatter (by rw [hstart]; exact hfits), List.nil_append] at hfilled
    split_ifs at hfilled with hall
    obtain rfl := Except.ok.inj hfilled
    rw [hend]
    exact ⟨hfinal.mp hall, rfl⟩
  · rintro ⟨hfit, rfl⟩
    have hfits : ∀ r : Fin P, displacement (fun s : Fin P => bucketSize target xs s) r ≤ intMax :=
      fun r => le_trans (displacement_le_length ht r.isLt.le) hfit
    refine ⟨_, ?_, _, (offsets_eq_ok_iff _ _).mpr ⟨hfits, rfl⟩, fillState P target xs [], ?_, ?_⟩
    · rw [tally_eq ht, if_pos]
      intro t
      have h := finalHead_le_length ht t
      unfold finalHead at h
      omega
    · rw [scatter, ← hstart, hscatter (by rw [hstart]; exact hfits), List.nil_append,
        if_pos (hfinal.mpr hfit)]
    · rw [hend]
      rfl

/-- Nothing but the range of int stops the bookkeeping. -/
theorem overflow_of_plan [Inhabited α] (ht : ∀ x ∈ xs, target x < P) {e : Fault}
    (h : plan (P := P) target xs = .error e) : e = .overflow := by
  unfold plan at h
  rcases bind_eq_error.mp h with htally | ⟨counts, hcounts, h⟩
  · rw [tally_eq ht] at htally
    split_ifs at htally
    exact (Except.error.inj htally).symm
  rw [tally_eq ht] at hcounts
  split_ifs at hcounts
  obtain rfl := Except.ok.inj hcounts
  rcases bind_eq_error.mp h with hoffsets | ⟨heads, hheads, h⟩
  · obtain ⟨r, hr⟩ := exists_error_of_onRanks hoffsets
    rw [offsetAt_eq _ _ r.isLt.le] at hr
    split_ifs at hr
    exact (Except.error.inj hr).symm
  obtain ⟨hfits, rfl⟩ := (offsets_eq_ok_iff _ _).mp hheads
  rcases bind_eq_error.mp h with hscatter | ⟨_, _, h⟩
  · have hstart := fillState_nil (P := P) ht
    rw [scatter, ← hstart, foldlM_writeAt [] xs ht (by rw [hstart]; exact hfits)] at hscatter
    split_ifs at hscatter
    exact (Except.error.inj hscatter).symm
  · cases h

/-- More entries than int counts overflow it. -/
theorem plan_eq_error [Inhabited α] (ht : ∀ x ∈ xs, target x < P) (hP : 0 < P)
    (h : intMax < xs.length) : plan (P := P) target xs = .error .overflow := by
  cases hplan : plan (P := P) target xs with
  | ok p =>
    have hfit := ((plan_eq_ok_iff ht hP p).mp hplan).1
    omega
  | error e => rw [overflow_of_plan ht hplan]

/-- Preparing an exchange throws nothing: bookkeeping that leaves the range of int does so
unnoticed by the program. -/
theorem noThrow_plan [Inhabited α] (target : α → ℕ) (xs : List α) :
    NoThrow (plan (P := P) target xs) := by
  have hincrement (counts : Fin P → ℕ) (t : ℕ) : NoThrow (increment counts t) := by
    unfold increment
    split_ifs
    · exact (NoThrow.intAdd _ _).bind fun _ => NoThrow.ok _
    · exact fun _ h => by cases h
  have hoffset (counts : Fin P → ℕ) (r : ℕ) : NoThrow (offsetAt counts r) := by
    induction r with
    | zero => exact NoThrow.ok 0
    | succ r ih =>
      refine ih.bind fun previous => ?_
      split_ifs
      · exact NoThrow.intAdd _ _
      · exact fun _ h => by cases h
  have hwrite (state : List α × (Fin P → ℕ)) (x : α) : NoThrow (writeAt target state x) := by
    unfold writeAt
    by_cases ht : target x < P
    · rw [dif_pos ht]
      show NoThrow (if state.2 ⟨target x, ht⟩ < state.1.length then _ else _)
      split_ifs
      · exact (NoThrow.intAdd _ _).bind fun _ => NoThrow.ok _
      · exact fun _ h => by cases h
    · rw [dif_neg ht]
      exact fun _ h => by cases h
  exact (NoThrow.foldlM (fun counts x => hincrement counts (target x)) xs _).bind fun counts =>
    (NoThrow.onRanks fun r => hoffset counts r).bind fun heads =>
      (NoThrow.foldlM hwrite xs _).bind fun _ => NoThrow.ok _

/-! Grouping a strictly ascending list by a monotone target gives consecutive groups. -/

section Ordered

open SortedLists

variable [LinearOrder α] {l : List α}

theorem bucket_pairwise (hl : l.Pairwise (· < ·)) (r : Fin P) :
    (bucket target l r).Pairwise (· < ·) := hl.filter _

variable (hl : l.Pairwise (· < ·)) (hmono : ∀ a b, a ≤ b → target a ≤ target b)
  (hP : ∀ a ∈ l, target a < P)
include hl hmono hP

theorem gather_bucket : gather (fun r : Fin P => bucket target l r) = l := by
  apply eq_of_pairwise_lt_of_mem_iff _ hl
  · intro a
    rw [mem_gather]
    constructor
    · intro h
      obtain ⟨r, hr⟩ := h
      exact (mem_bucket.mp hr).1
    · intro ha
      exact ⟨⟨target a, hP a ha⟩, mem_bucket.mpr ⟨ha, rfl⟩⟩
  · rw [gather, List.pairwise_flatten, List.pairwise_ofFn]
    constructor
    · intro block hblock
      obtain ⟨r, rfl⟩ := List.mem_ofFn.mp hblock
      exact bucket_pairwise hl r
    · -- A later rank's entries have a larger target, so they cannot be smaller.
      intro r s hrs a ha b hb
      have hta := (mem_bucket.mp ha).2
      have htb := (mem_bucket.mp hb).2
      by_contra hle
      have h := hmono b a (not_lt.mp hle)
      have hlt : (r : ℕ) < s := hrs
      omega

theorem displacement_add_lowerBound {a : α} (ha : a ∈ l) (r : Fin P) (hr : target a = r) :
    displacement (fun s : Fin P => (bucket target l s).length) r +
      lowerBound (bucket target l r) a = lowerBound l a := by
  have hsorted : (bucket target l r).Pairwise (· < ·) := bucket_pairwise hl r
  have hmem : a ∈ bucket target l r := mem_bucket.mpr ⟨ha, hr⟩
  have hget := getElem?_gather (fun s : Fin P => bucket target l s) r
    (lowerBound (bucket target l r) a) (lowerBound_lt_length hsorted hmem)
  rw [gather_bucket hl hmono hP, getElem?_lowerBound hsorted hmem] at hget
  obtain ⟨hlt, heq⟩ := List.getElem?_eq_some_iff.mp hget
  have hpos := lowerBound_getElem hl _ hlt
  rw [heq] at hpos
  exact hpos.symm

end Ordered

section Table

/-- `s * size + rank`, in int. -/
def tableIndex (size s rank : ℕ) : Except Fault ℕ := do
  let row ← intMul s size
  intAdd row rank

/-- `recvcounts[s] = all[s * size + rank]` for every s, where row s of the table is what rank s
has sent and the index is an int. -/
def recvcountsInt (all : Fin P → Fin P → ℕ) (rank : Fin P) : Except Fault (Fin P → ℕ) :=
  onRanks fun s => do
    let _ ← tableIndex P s rank
    return all s rank

/-- The indices of a table with P rows of P entries are ints. -/
def TableFits (P : ℕ) : Prop := P * P ≤ 2 ^ 31

instance (P : ℕ) : Decidable (TableFits P) := inferInstanceAs (Decidable (P * P ≤ 2 ^ 31))

theorem TableFits.lt_two_pow (h : TableFits P) : P < 2 ^ 16 := by
  unfold TableFits at h
  by_contra hle
  have hsquare := Nat.mul_le_mul (not_lt.mp hle) (not_lt.mp hle)
  omega

theorem tableIndex_eq (size s rank : ℕ) :
    tableIndex size s rank =
      if s * size + rank ≤ intMax then .ok (s * size + rank) else .error .overflow := by
  unfold tableIndex intMul
  by_cases hrow : s * size ≤ intMax
  · rw [if_pos hrow, ok_bind, intAdd]
  · rw [if_neg hrow, error_bind, if_neg (by omega)]

/-- The last entry of the table has the largest index. -/
theorem forall_index_le_iff :
    (∀ r s : Fin P, (s : ℕ) * P + r ≤ intMax) ↔ TableFits P := by
  unfold TableFits intMax
  constructor
  · intro h
    rcases Nat.eq_zero_or_pos P with rfl | hP
    · decide
    have hlast := h ⟨P - 1, by omega⟩ ⟨P - 1, by omega⟩
    have hrow := Nat.succ_mul (P - 1) P
    rw [Nat.succ_eq_add_one, Nat.sub_add_cancel hP] at hrow
    dsimp only at hlast
    omega
  · intro h r s
    have hrow := Nat.mul_le_mul_right P (Nat.succ_le_of_lt s.isLt)
    rw [Nat.succ_mul] at hrow
    have hr := r.isLt
    omega

theorem recvcountsInt_eq (all : Fin P → Fin P → ℕ) (rank : Fin P) :
    recvcountsInt all rank = if ∀ s : Fin P, (s : ℕ) * P + rank ≤ intMax
      then .ok fun s => all s rank else .error .overflow := by
  have hentry : ∀ s : Fin P, (do
      let _ ← tableIndex P s rank
      return all s rank) =
        if (s : ℕ) * P + rank ≤ intMax then .ok (all s rank) else .error .overflow := by
    intro s
    rw [tableIndex_eq]
    split_ifs <;> rfl
  unfold recvcountsInt
  rw [funext hentry]
  exact onRanks_ite _ _ _

/-- Every rank looks its counts up, or the last rank leaves the range of int. -/
theorem onRanks_recvcountsInt (all : Fin P → Fin P → Fin P → ℕ) :
    onRanks (fun r => recvcountsInt (all r) r) =
      if TableFits P then .ok fun r s => all r s r else .error .overflow := by
  rw [funext fun r => recvcountsInt_eq (all r) r, onRanks_ite]
  exact if_congr forall_index_le_iff rfl rfl

theorem onRanks_recvcountsInt_eq_ok_iff (all : Fin P → Fin P → Fin P → ℕ)
    (recvcounts : Fin P → Fin P → ℕ) :
    onRanks (fun r => recvcountsInt (all r) r) = .ok recvcounts ↔
      TableFits P ∧ recvcounts = fun r s => all r s r := by
  rw [onRanks_recvcountsInt]
  by_cases h : TableFits P
  · simp [h, eq_comm]
  · simp [h]

theorem exists_recvcountsInt_eq_error (h : ¬ TableFits P) :
    ∃ q : Fin P, ∀ all : Fin P → Fin P → ℕ, recvcountsInt all q = .error .overflow := by
  obtain ⟨q, hq⟩ := not_forall.mp (mt forall_index_le_iff.mp h)
  refine ⟨q, fun all => ?_⟩
  rw [recvcountsInt_eq, if_neg hq]

end Table

end PatternSearch.Bucketing
