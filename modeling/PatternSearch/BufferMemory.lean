import PatternSearch.DeviceBuffer
import PatternSearch.UniqueOwners

/-!
The blocks behind device buffers. A buffer that lives stands for some bytes: those of its block,
or none. The methods of one buffer keep every live block with one owner, whatever the runtime
answers, and change no other buffer.
-/

namespace PatternSearch.BufferMemory

open Machine Bytes Methods UniqueOwners DeviceBuffer

section Invariant

variable {I : Type} [DecidableEq I]

/-- What the buffers are to their users: a name in use stands for some bytes. -/
abbrev Values (I : Type) := I → Option (List Byte)

def holds (w : World I) (x : I) : Option Addr := (w.buffers x).bind DeviceBufferImpl.ptr

def seen (w : World I) : I → Option (List Byte) := view w.rt.blocks (holds w)

/-- The values of the buffers; a buffer without a block has no bytes. -/
def values (w : World I) : Values I := fun x => (w.buffers x).map fun _ => (seen w x).getD []

def put (w : World I) (rt : Runtime) (x : I) (c : Option DeviceBufferImpl) : World I :=
  { rt, buffers := Function.update w.buffers x c }

/-- The size a buffer keeps is the one of its block, and it has a block unless it is empty. -/
structure Fits (b : DeviceBufferImpl) (block : Option (List Byte)) : Prop where
  length : (block.getD []).length = b.bytes
  null : b.ptr = none ↔ b.bytes = 0

/-- Every live block belongs to one buffer, apart from those that cudaFree kept, and each of
these has its line on stderr. -/
structure Sound (w : World I) : Prop where
  owned : Owned w.rt.blocks (holds w) w.rt.kept
  fits : ∀ {x b}, w.buffers x = some b → Fits b (seen w x)
  reported : w.rt.kept.length ≤ w.rt.stderr.length

variable {w : World I} {x y : I} {b : DeviceBufferImpl} {d : Driver}

theorem fits_new : Fits .new none where
  length := rfl
  null := ⟨fun _ => rfl, fun _ => rfl⟩

omit [DecidableEq I] in
theorem values_eq (hx : w.buffers x = some b) : values w x = some ((seen w x).getD []) := by
  rw [values, hx, Option.map_some]

omit [DecidableEq I] in
theorem values_eq_none_iff : values w x = none ↔ w.buffers x = none := Option.map_eq_none_iff

omit [DecidableEq I] in
theorem alive_of_values (hx : values w x ≠ none) : ∃ b, w.buffers x = some b :=
  Option.ne_none_iff_exists'.mp fun hno => hx (values_eq_none_iff.mpr hno)

theorem put_buffers (w : World I) (rt : Runtime) (x : I) (c : Option DeviceBufferImpl) :
    (put w rt x c).buffers = Function.update w.buffers x c := rfl

theorem put_rt (w : World I) (rt : Runtime) (x : I) (c : Option DeviceBufferImpl) :
    (put w rt x c).rt = rt := rfl

theorem holds_put (w : World I) (rt : Runtime) (x : I) (c : Option DeviceBufferImpl) :
    holds (put w rt x c) = Function.update (holds w) x (c.bind DeviceBufferImpl.ptr) := by
  funext k
  by_cases hk : k = x
  · subst hk
    simp only [holds, put, Function.update_self]
  · simp only [holds, put, Function.update_of_ne hk]

theorem put_put (w : World I) (rt rt' : Runtime) (x : I) (c c' : Option DeviceBufferImpl) :
    put (put w rt x c) rt' x c' = put w rt' x c' := by
  unfold put
  rw [Function.update_idem]

/-- A buffer and the block behind it change together, and no other buffer notices. -/
theorem Sound.change (hs : Sound w) {rt : Runtime} {c : Option DeviceBufferImpl}
    {o : Option (List Byte)}
    (howned : Owned rt.blocks (Function.update (holds w) x (c.bind DeviceBufferImpl.ptr)) rt.kept)
    (hview : view rt.blocks (Function.update (holds w) x (c.bind DeviceBufferImpl.ptr)) =
      Function.update (seen w) x o)
    (hfits : ∀ b, c = some b → Fits b o) (hreported : rt.kept.length ≤ rt.stderr.length) :
    Sound (put w rt x c) ∧
      values (put w rt x c) = Function.update (values w) x (c.map fun _ => o.getD []) := by
  have hseen : seen (put w rt x c) = Function.update (seen w) x o := by
    rw [seen, holds_put]
    exact hview
  constructor
  · refine ⟨?_, fun {k b} hk => ?_, hreported⟩
    · rw [holds_put]
      exact howned
    · rw [put_buffers] at hk
      rw [hseen]
      by_cases hkx : k = x
      · subst hkx
        rw [Function.update_self] at hk ⊢
        exact hfits b hk
      · rw [Function.update_of_ne hkx] at hk ⊢
        exact hs.fits hk
  · funext k
    by_cases hkx : k = x
    · subst hkx
      simp only [values, put_buffers, hseen, Function.update_self]
    · simp only [values, put_buffers, hseen, Function.update_of_ne hkx]

end Invariant

section Methods

variable {I : Type} [DecidableEq I] {w : World I} {x y : I} {b : DeviceBufferImpl}

omit [DecidableEq I] in
theorem ptr_eq_of_alive (hx : w.buffers x = some b) : holds w x = b.ptr := by
  rw [holds, hx, Option.bind_some]

/-- A buffer without a block is as new. -/
theorem eq_new_of_null {o : Option (List Byte)} (hfits : Fits b o) (hnull : b.ptr = none) :
    b = .new := by
  obtain ⟨ptr, bytes⟩ := b
  obtain rfl : ptr = none := hnull
  obtain rfl : bytes = 0 := hfits.null.mp rfl
  rfl

omit [DecidableEq I] in
/-- A buffer that is not empty has a live block of its size. -/
theorem block_of_nonempty (hs : Sound w) (hx : w.buffers x = some b) (hne : b.bytes ≠ 0) :
    ∃ a block, b.ptr = some a ∧ w.rt.blocks a = some block ∧ block.length = b.bytes ∧
      seen w x = some block := by
  have hfits := hs.fits hx
  have hsome : b.ptr ≠ none := fun hnull => hne (hfits.null.mp hnull)
  obtain ⟨a, ha⟩ := Option.ne_none_iff_exists'.mp hsome
  have hheld : holds w x = some a := (ptr_eq_of_alive hx).trans ha
  obtain ⟨block, hblock⟩ := Option.ne_none_iff_exists'.mp (hs.owned.live hheld)
  have hseen : seen w x = some block := (view_of_held hheld).trans hblock
  have hlen := hfits.length
  rw [hseen] at hlen
  exact ⟨a, block, ha, hblock, hlen, hseen⟩

/-- The holder's block gets other bytes, as many as before. -/
theorem Sound.store (hs : Sound w) (hx : w.buffers x = some b) {a : Addr} (ha : b.ptr = some a)
    {v : List Byte} (hlen : v.length = b.bytes) :
    Sound (put w (w.rt.store a v) x (some b)) ∧
      values (put w (w.rt.store a v) x (some b)) = Function.update (values w) x (some v) := by
  have hheld : holds w x = some a := (ptr_eq_of_alive hx).trans ha
  have hsame : Function.update (holds w) x ((some b).bind DeviceBufferImpl.ptr) = holds w := by
    rw [Option.bind_some, ← ptr_eq_of_alive hx]
    exact Function.update_eq_self ..
  refine hs.change (o := some v) ?_ ?_ ?_ hs.reported
  · rw [hsame]
    exact hs.owned.store hheld v
  · rw [hsame]
    exact hs.owned.view_store hheld v
  · rintro b' hb'
    obtain rfl := Option.some.inj hb'
    exact ⟨hlen, (hs.fits hx).null⟩

/-- Where no block is held, a buffer may come to life as new, or end. -/
theorem Sound.renew (hs : Sound w) (hheld : holds w x = none) {c : Option DeviceBufferImpl}
    (hc : ∀ b, c = some b → b = .new) :
    Sound (put w w.rt x c) ∧
      values (put w w.rt x c) = Function.update (values w) x (c.map fun _ => []) := by
  have hnone : c.bind DeviceBufferImpl.ptr = none := by
    cases c with
    | none => rfl
    | some b =>
      obtain rfl := hc b rfl
      rfl
  refine hs.change (o := none) ?_ ?_ ?_ hs.reported
  · rw [hnone, ← hheld, Function.update_eq_self]
    exact hs.owned
  · rw [hnone]
    exact view_update_holds none
  · intro b hb
    rw [hc b hb]
    exact fits_new

variable (d : Driver)

theorem length_report (rt : Runtime) (text : String) :
    (rt.report (some text)).stderr.length = rt.stderr.length + 1 := List.length_append

/-- A live block is freed, with or without an error, or stays and there is an error. -/
theorem cudaFree_cases {a : Addr} {rt : Runtime} (ha : rt.blocks a ≠ none) :
    (∃ err, cudaFree d a rt =
      .ok (err, { rt with blocks := Function.update rt.blocks a none })) ∨
    ∃ text, cudaFree d a rt = .ok (some text, { rt with kept := a :: rt.kept }) := by
  obtain ⟨block, hblock⟩ := Option.ne_none_iff_exists'.mp ha
  unfold cudaFree
  rw [hblock]
  rcases d.free rt a with - | ⟨text, kept⟩
  · exact .inl ⟨none, rfl⟩
  · cases kept with
    | true => exact .inr ⟨text, rfl⟩
    | false => exact .inl ⟨some text, rfl⟩

theorem call_deallocate {a : Addr} {rt rt' : Runtime} {err : Option String}
    (hptr : b.ptr = some a) (hfree : cudaFree d a rt = .ok (err, rt')) :
    call (DeviceBufferImpl.deallocate d) (rt, b) = (.ok (), (rt'.report err, .new)) := by
  obtain ⟨ptr, bytes⟩ := b
  obtain rfl : ptr = some a := hptr
  have hcall : call (DeviceBufferImpl.deallocate d) (rt, ⟨some a, bytes⟩) =
      call (do
        let freed ← compute (cudaFree d a rt)
        set (freed.2.report freed.1, DeviceBufferImpl.new)) (rt, ⟨some a, bytes⟩) := rfl
  rw [hcall, hfree]
  rfl

/-- `deallocate` always succeeds, whatever cudaFree answers, and leaves a buffer as new. -/
theorem deallocate_spec (hs : Sound w) (hx : w.buffers x = some b) :
    ∃ rt, call (DeviceBufferImpl.deallocate d) (w.rt, b) = (.ok (), (rt, .new)) ∧
      Sound (put w rt x (some .new)) ∧
      values (put w rt x (some .new)) = Function.update (values w) x (some []) := by
  have hheld := ptr_eq_of_alive hx
  have hnew : ∀ b', some DeviceBufferImpl.new = some b' → b' = .new := by
    rintro b' hb'
    exact (Option.some.inj hb').symm
  cases hptr : b.ptr with
  | none =>
    obtain rfl := eq_new_of_null (hs.fits hx) hptr
    exact ⟨w.rt, rfl, hs.renew hheld hnew⟩
  | some a =>
    rw [hptr] at hheld
    have hfits : ∀ b', some DeviceBufferImpl.new = some b' → Fits b' none := by
      rintro b' hb'
      rw [hnew b' hb']
      exact fits_new
    rcases cudaFree_cases d (hs.owned.live hheld) with ⟨err, hfree⟩ | ⟨text, hfree⟩
    · refine ⟨_, call_deallocate d hptr hfree, ?_⟩
      have howned := hs.owned.release hheld
      have hview := hs.owned.view_release hheld
      cases err with
      | none => exact hs.change howned hview hfits hs.reported
      | some text =>
        refine hs.change howned hview hfits ?_
        rw [length_report]
        exact Nat.le_succ_of_le hs.reported
    · refine ⟨_, call_deallocate d hptr hfree, ?_⟩
      refine hs.change (o := none) (hs.owned.lose hheld) (view_update_holds none) hfits ?_
      rw [length_report]
      exact Nat.succ_le_succ hs.reported

theorem call_allocate {numBytes : ℕ} (hsize : numBytes ≠ 0) (rt : Runtime) :
    call (DeviceBufferImpl.allocate d numBytes) (rt, .new) =
      match d.malloc rt numBytes with
      | .error text => (.error (cudaError "DeviceBufferImpl::allocate" text), (rt, .new))
      | .ok (a, contents) =>
        (.ok (), (rt.store a ((List.range numBytes).map contents),
          { ptr := some a, bytes := numBytes })) := by
  have hcall : call (DeviceBufferImpl.allocate d numBytes) (rt, .new) =
      call (match d.malloc rt numBytes with
        | .error text => check (some text) "DeviceBufferImpl::allocate"
        | .ok (a, contents) => do
          set (rt.store a ((List.range numBytes).map contents),
            { DeviceBufferImpl.new with ptr := some a })
          check none "DeviceBufferImpl::allocate"
          update fun s => (s.1, { s.2 with bytes := numBytes })) (rt, .new) := by
    unfold DeviceBufferImpl.allocate
    rw [if_neg hsize]
    rfl
  rw [hcall]
  cases d.malloc rt numBytes with
  | error text => rfl
  | ok made => rfl

/-- `allocate` on a new buffer: a block of the size with anything in it, or the exception and
nothing changed. -/
theorem allocate_spec (hs : Sound w) (hx : w.buffers x = some .new) (numBytes : ℕ) :
    (∃ rt b v, call (DeviceBufferImpl.allocate d numBytes) (w.rt, .new) = (.ok (), (rt, b)) ∧
      v.length = numBytes ∧ Sound (put w rt x (some b)) ∧
      values (put w rt x (some b)) = Function.update (values w) x (some v)) ∨
    numBytes ≠ 0 ∧ ∃ text, call (DeviceBufferImpl.allocate d numBytes) (w.rt, .new) =
      (.error (cudaError "DeviceBufferImpl::allocate" text), (w.rt, .new)) := by
  have hheld : holds w x = none := ptr_eq_of_alive hx
  by_cases hzero : numBytes = 0
  · subst hzero
    refine .inl ⟨w.rt, .new, [], rfl, rfl, hs.renew hheld ?_⟩
    rintro b' hb'
    exact (Option.some.inj hb').symm
  · rw [call_allocate d hzero]
    cases hmalloc : d.malloc w.rt numBytes with
    | error text => exact .inr ⟨hzero, text, rfl⟩
    | ok made =>
      obtain ⟨a, contents⟩ := made
      have hfresh := d.malloc_fresh hmalloc
      have hlength : ((List.range numBytes).map contents).length = numBytes := by
        rw [List.length_map, List.length_range]
      have howned := hs.owned.acquire hheld hfresh ((List.range numBytes).map contents)
      have hview := hs.owned.view_acquire (i := x) hfresh ((List.range numBytes).map contents)
      refine .inl ⟨w.rt.store a ((List.range numBytes).map contents),
        { ptr := some a, bytes := numBytes }, _, rfl, hlength, ?_⟩
      refine hs.change (o := some ((List.range numBytes).map contents)) howned hview ?_ hs.reported
      rintro b' hb'
      obtain rfl := Option.some.inj hb'
      exact ⟨hlength, ⟨nofun, fun hno => absurd hno hzero⟩⟩

/-- A write inside a block that is not empty: the bytes arrive, or an error is reported and the
block holds as many unknown bytes. -/
theorem cudaWrite_spec (hs : Sound w) (hx : w.buffers x = some b) {data v : List Byte}
    (hv : values w x = some v) (hsize : data.length ≤ v.length) (hne : b.bytes ≠ 0) :
    ∃ rt v', cudaWrite d b.ptr data w.rt = .ok (none, rt) ∧ v' = data ++ v.drop data.length ∧
        Sound (put w rt x (some b)) ∧
        values (put w rt x (some b)) = Function.update (values w) x (some v') ∨
      ∃ text, cudaWrite d b.ptr data w.rt = .ok (some text, rt) ∧ v'.length = v.length ∧
        Sound (put w rt x (some b)) ∧
        values (put w rt x (some b)) = Function.update (values w) x (some v') := by
  obtain ⟨a, block, ha, hblock, hlen, hseen⟩ := block_of_nonempty hs hx hne
  have hvalue : v = block := by
    rw [values_eq hx, hseen] at hv
    exact (Option.some.inj hv).symm
  subst hvalue
  unfold cudaWrite
  rw [ha]
  simp only [hblock, if_neg (not_lt.mpr hsize)]
  rcases d.transfer w.rt a with - | ⟨text, contents⟩
  · have hwritten : (data ++ v.drop data.length).length = b.bytes := by
      rw [List.length_append, List.length_drop, hlen]
      omega
    exact ⟨_, _, .inl ⟨rfl, rfl, hs.store hx ha hwritten⟩⟩
  · have hkept : ((List.range v.length).map contents).length = v.length := by
      rw [List.length_map, List.length_range]
    exact ⟨_, _, .inr ⟨text, rfl, hkept, hs.store hx ha (hkept.trans hlen)⟩⟩

end Methods

end PatternSearch.BufferMemory
