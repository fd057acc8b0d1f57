import PatternSearch.BufferMemory
import PatternSearch.SelectorReuse

/-!
Device buffers are values to their users. Whatever the runtime answers and in whatever order
buffers are moved, resized and destroyed, no block is used after it was freed, freed twice or
reachable through two buffers, and none outlives its buffer unless cudaFree kept it.
-/

namespace PatternSearch.BufferValues

open Machine Bytes Methods UniqueOwners DeviceBuffer BufferMemory

section Operations

variable {I : Type} [DecidableEq I]

/-- What a user has to see to, in terms of the values alone. -/
def Allowed (V : Values I) : Op I → Prop
  | .construct x => V x = none
  | .constructCount x _ _ => V x = none
  | .moveConstruct x y => V x = none ∧ V y ≠ none
  | .moveAssign x y => V x ≠ none ∧ V y ≠ none
  | .destroy x => V x ≠ none
  | .resize x _ _ => V x ≠ none
  | .copyFromHost x width count src =>
    ∃ v, V x = some v ∧ bytesOf width count ≤ v.length ∧ bytesOf width count ≤ src.length
  | .copyToHost x width count => ∃ v, V x = some v ∧ bytesOf width count ≤ v.length
  | .zero x => V x ≠ none
  | .kernel x data => ∃ v, V x = some v ∧ data.length = v.length

/-- One operation on values: what it returns or throws, and the values after it. -/
inductive ValueStep (V : Values I) : Op I → Except Fault (List Byte) → Values I → Prop
  | construct {x} : ValueStep V (.construct x) (.ok []) (Function.update V x (some []))
  | constructCount {x width count v} (h : v.length = bytesOf width count) :
      ValueStep V (.constructCount x width count) (.ok []) (Function.update V x (some v))
  | constructFails {x width count text} (h : bytesOf width count ≠ 0) :
      ValueStep V (.constructCount x width count)
        (.error (cudaError "DeviceBufferImpl::allocate" text)) V
  | moveConstruct {x y v} (h : V y = some v) :
      ValueStep V (.moveConstruct x y) (.ok [])
        (Function.update (Function.update V y (some [])) x (some v))
  | moveSelf {x} : ValueStep V (.moveAssign x x) (.ok []) V
  | moveAssign {x y v} (hne : x ≠ y) (h : V y = some v) :
      ValueStep V (.moveAssign x y) (.ok [])
        (Function.update (Function.update V y (some [])) x (some v))
  | destroy {x} : ValueStep V (.destroy x) (.ok []) (Function.update V x none)
  | resizeSame {x width count v} (h : V x = some v) (hsame : bytesOf width count = v.length) :
      ValueStep V (.resize x width count) (.ok []) V
  | resize {x width count v v'} (h : V x = some v) (hother : bytesOf width count ≠ v.length)
      (hlen : v'.length = bytesOf width count) :
      ValueStep V (.resize x width count) (.ok []) (Function.update V x (some v'))
  | resizeFails {x width count v text} (h : V x = some v)
      (hother : bytesOf width count ≠ v.length) (hsize : bytesOf width count ≠ 0) :
      ValueStep V (.resize x width count) (.error (cudaError "DeviceBufferImpl::allocate" text))
        (Function.update V x (some []))
  | copyFromHost {x width count src v} (h : V x = some v) :
      ValueStep V (.copyFromHost x width count src) (.ok [])
        (Function.update V x
          (some (src.take (bytesOf width count) ++ v.drop (bytesOf width count))))
  | copyFromHostFails {x width count src v v' text} (h : V x = some v)
      (hlen : v'.length = v.length) :
      ValueStep V (.copyFromHost x width count src)
        (.error (cudaError "DeviceBufferImpl::copy_from_host" text))
        (Function.update V x (some v'))
  | copyToHost {x width count v} (h : V x = some v) :
      ValueStep V (.copyToHost x width count) (.ok (v.take (bytesOf width count))) V
  | copyToHostFails {x width count text} :
      ValueStep V (.copyToHost x width count)
        (.error (cudaError "DeviceBufferImpl::copy_to_host" text)) V
  | zero {x v} (h : V x = some v) :
      ValueStep V (.zero x) (.ok []) (Function.update V x (some (List.replicate v.length 0)))
  | zeroFails {x v v' text} (h : V x = some v) (hlen : v'.length = v.length) :
      ValueStep V (.zero x) (.error (cudaError "DeviceBufferImpl::zero" text))
        (Function.update V x (some v'))
  | kernel {x data} :
      ValueStep V (.kernel x data) (.ok []) (Function.update V x (some data))

end Operations

section Steps

variable {I : Type} [DecidableEq I] {w : World I} {x y : I} {b : DeviceBufferImpl}
  {width count : ℕ} {v : List Byte} (d : Driver)

/-- The operation does to the values what it may do to values, and keeps the memory sound. -/
def Simulated (w : World I) (op : Op I) : Prop :=
  ∃ outcome w', call (exec d op) w = (outcome, w') ∧
    ValueStep (values w) op outcome (values w') ∧ Sound w'

theorem call_get_bind {σ β : Type} (s : σ) (f : σ → MethodM σ β) :
    call (get >>= f) s = call (f s) s := rfl

theorem call_onBuffer {α : Type} (hx : w.buffers x = some b) (m : BufferM α) :
    call (onBuffer x m) w =
      ((call m (w.rt, b)).1, put w (call m (w.rt, b)).2.1 x (some (call m (w.rt, b)).2.2)) := by
  unfold onBuffer
  rw [call_get_bind]
  simp only [hx]
  rfl

/-- An operation that is one method of a buffer and returns nothing. -/
theorem call_method {m : BufferM Unit} (hx : w.buffers x = some b) {outcome : Except Fault Unit}
    {rt : Runtime} {b' : DeviceBufferImpl} (hm : call m (w.rt, b) = (outcome, (rt, b'))) :
    call (do onBuffer x m; return ([] : List Byte)) w =
      (outcome.map fun _ => [], put w rt x (some b')) := by
  rw [call_bind, call_onBuffer hx, hm]
  cases outcome with
  | error e => rfl
  | ok u => rfl

theorem construct_step (hs : Sound w) (hx : values w x = none) :
    Simulated d w (.construct x) := by
  have hdead := values_eq_none_iff.mp hx
  have hheld : holds w x = none := by rw [holds, hdead, Option.bind_none]
  have hnew : ∀ b', some DeviceBufferImpl.new = some b' → b' = .new := by
    rintro b' hb'
    exact (Option.some.inj hb').symm
  obtain ⟨hsound, hvalues⟩ := hs.renew hheld hnew
  refine ⟨.ok [], put w w.rt x (some .new), rfl, ?_, hsound⟩
  rw [hvalues]
  exact .construct

theorem destroy_step (hs : Sound w) (hx : values w x ≠ none) : Simulated d w (.destroy x) := by
  obtain ⟨b, hb⟩ := alive_of_values hx
  obtain ⟨rt, hcall, hsound, hvalues⟩ := deallocate_spec d hs hb
  have hheld : holds (put w rt x (some .new)) x = none := by
    rw [holds_put, Function.update_self]
    rfl
  obtain ⟨hsound', hvalues'⟩ := hsound.renew hheld (c := none) nofun
  rw [put_rt] at hsound' hvalues'
  refine ⟨.ok [], put (put w rt x (some .new)) rt x none, ?_, ?_, hsound'⟩
  · have hexec : call (exec d (.destroy x)) w =
        call (onBuffer x (DeviceBufferImpl.deallocate d) >>= fun _ => do
          update fun w => { w with buffers := Function.update w.buffers x none }
          return []) w := rfl
    rw [hexec, call_bind, call_onBuffer hb, hcall]
    rfl
  · rw [hvalues', hvalues, Function.update_idem]
    exact .destroy

/-- The constructor that throws leaves no trace: its member has no block yet. -/
theorem constructCount_step (hs : Sound w) (hx : values w x = none) :
    Simulated d w (.constructCount x width count) := by
  have hdead := values_eq_none_iff.mp hx
  have hheld : holds w x = none := by rw [holds, hdead, Option.bind_none]
  have hnew : ∀ b', some DeviceBufferImpl.new = some b' → b' = .new := by
    rintro b' hb'
    exact (Option.some.inj hb').symm
  obtain ⟨hsound, hvalues⟩ := hs.renew hheld hnew
  have halive : (put w w.rt x (some .new)).buffers x = some .new := Function.update_self ..
  rcases allocate_spec d hsound halive (bytesOf width count) with
    ⟨rt, b, v, hcall, hlen, hsound', hvalues'⟩ | ⟨hsize, text, hcall⟩
  · rw [put_rt] at hcall
    rw [put_put] at hsound' hvalues'
    refine ⟨.ok [], put w rt x (some b), ?_, ?_, hsound'⟩
    · unfold exec constructCount
      rw [call_bind, call_get_bind, hcall]
      rfl
    · rw [hvalues', hvalues, Function.update_idem]
      exact .constructCount hlen
  · rw [put_rt] at hcall
    refine ⟨.error (cudaError "DeviceBufferImpl::allocate" text), w, ?_,
      .constructFails hsize, hs⟩
    unfold exec constructCount
    rw [call_bind, call_get_bind, hcall]
    rfl

/-- `ptr_(other.ptr_), bytes_(other.bytes_)` for a buffer without a block. -/
theorem takeOver_spec (hs : Sound w) (hheld : holds w x = none) (hne : x ≠ y)
    (hy : values w y = some v) :
    ∃ w', call (takeOver x y) w = (.ok (), w') ∧ Sound w' ∧
      values w' = Function.update (Function.update (values w) y (some [])) x (some v) := by
  obtain ⟨other, hother⟩ := alive_of_values (hy ▸ Option.some_ne_none v)
  have hptr := ptr_eq_of_alive hother
  have hvalue : (seen w y).getD [] = v := by
    rw [values_eq hother] at hy
    exact Option.some.inj hy
  have hholds : holds (put (put w w.rt y (some .new)) w.rt x (some other)) =
      Function.update (Function.update (holds w) y none) x (holds w y) := by
    rw [holds_put, holds_put, hptr]
    rfl
  have hseen : seen (put (put w w.rt y (some .new)) w.rt x (some other)) =
      Function.update (Function.update (seen w) y none) x (seen w y) := by
    rw [seen, hholds]
    exact Owned.view_pass
  refine ⟨put (put w w.rt y (some .new)) w.rt x (some other), ?_, ⟨?_, ?_, hs.reported⟩, ?_⟩
  · unfold takeOver
    rw [call_get_bind, hother]
    rfl
  · rw [hholds]
    exact hs.owned.pass hheld
  · intro k b hk
    rw [hseen]
    rw [put_buffers, put_buffers] at hk
    by_cases hkx : k = x
    · subst hkx
      rw [Function.update_self] at hk ⊢
      obtain rfl := Option.some.inj hk
      exact hs.fits hother
    · rw [Function.update_of_ne hkx] at hk ⊢
      by_cases hky : k = y
      · subst hky
        rw [Function.update_self] at hk ⊢
        obtain rfl := Option.some.inj hk
        exact fits_new
      · rw [Function.update_of_ne hky] at hk ⊢
        exact hs.fits hk
  · funext k
    rw [values, hseen, put_buffers, put_buffers]
    by_cases hkx : k = x
    · subst hkx
      simp only [Function.update_self, Option.map_some, hvalue]
    · by_cases hky : k = y
      · subst hky
        simp only [Function.update_self, Function.update_of_ne hkx, Option.map_some,
          Option.getD_none]
      · simp only [Function.update_of_ne hkx, Function.update_of_ne hky, values]

theorem moveConstruct_step (hs : Sound w) (hx : values w x = none) (hy : values w y ≠ none) :
    Simulated d w (.moveConstruct x y) := by
  obtain ⟨v, hv⟩ := Option.ne_none_iff_exists'.mp hy
  have hheld : holds w x = none := by rw [holds, values_eq_none_iff.mp hx, Option.bind_none]
  have hne : x ≠ y := by
    rintro rfl
    exact hy hx
  obtain ⟨w', hcall, hsound, hvalues⟩ := takeOver_spec hs hheld hne hv
  refine ⟨.ok [], w', ?_, ?_, hsound⟩
  · unfold exec
    rw [call_bind, hcall]
    rfl
  · rw [hvalues]
    exact .moveConstruct hv

/-- The target frees its own block first; a buffer assigned to itself keeps it. -/
theorem moveAssign_step (hs : Sound w) (hx : values w x ≠ none) (hy : values w y ≠ none) :
    Simulated d w (.moveAssign x y) := by
  by_cases hne : x = y
  · subst hne
    refine ⟨.ok [], w, ?_, .moveSelf, hs⟩
    have hself : moveAssign d x x = pure () := if_neg (not_not.mpr rfl)
    have hexec : exec d (.moveAssign x x) = (moveAssign d x x >>= fun _ => return []) := rfl
    rw [hexec, hself]
    rfl
  · obtain ⟨v, hv⟩ := Option.ne_none_iff_exists'.mp hy
    obtain ⟨b, hb⟩ := alive_of_values hx
    obtain ⟨rt, hfree, hsound, hvalues⟩ := deallocate_spec d hs hb
    have hheld : holds (put w rt x (some .new)) x = none := by
      rw [holds_put, Function.update_self]
      rfl
    have hv' : values (put w rt x (some .new)) y = some v := by
      rw [hvalues, Function.update_of_ne (Ne.symm hne), hv]
    obtain ⟨w', hcall, hsound', hvalues'⟩ := takeOver_spec hsound hheld hne hv'
    refine ⟨.ok [], w', ?_, ?_, hsound'⟩
    · have hother : moveAssign d x y =
          (onBuffer x (DeviceBufferImpl.deallocate d) >>= fun _ => takeOver x y) := if_pos hne
      have hexec : exec d (.moveAssign x y) = (moveAssign d x y >>= fun _ => return []) := rfl
      rw [hexec, hother, call_bind, call_bind, call_onBuffer hb, hfree]
      simp only [hcall]
      rfl
    · rw [hvalues', hvalues, Function.update_comm (Ne.symm hne), Function.update_idem]
      rw [Function.update_comm hne]
      exact .moveAssign hne hv

omit [DecidableEq I] in
/-- The size a buffer keeps is the length of its value. -/
theorem bytes_eq (hs : Sound w) (hx : w.buffers x = some b) (hv : values w x = some v) :
    b.bytes = v.length := by
  rw [values_eq hx] at hv
  rw [← Option.some.inj hv]
  exact ((hs.fits hx).length).symm

theorem put_self (hx : w.buffers x = some b) : put w w.rt x (some b) = w := by
  have hsame : Function.update w.buffers x (some b) = w.buffers := by
    rw [← hx, Function.update_eq_self]
  rw [put, hsame]

/-- A method that throws nothing and changes nothing. -/
theorem exec_idle {m : BufferM Unit} {op : Op I} (hx : w.buffers x = some b)
    (hop : exec d op = (do onBuffer x m; return [])) (hm : call m (w.rt, b) = (.ok (), (w.rt, b))) :
    call (exec d op) w = (.ok [], w) := by
  rw [hop, call_method hx hm, put_self hx]
  rfl

theorem resize_step (hs : Sound w) (hx : values w x ≠ none) :
    Simulated d w (.resize x width count) := by
  obtain ⟨v, hv⟩ := Option.ne_none_iff_exists'.mp hx
  obtain ⟨b, hb⟩ := alive_of_values hx
  have hbytes := bytes_eq hs hb hv
  have hop : exec d (.resize x width count) =
      (do onBuffer x (resize d width count); return []) := rfl
  by_cases hsame : bytesOf width count = b.bytes
  · have hidle : call (resize d width count) (w.rt, b) = (.ok (), (w.rt, b)) := by
      unfold resize
      rw [call_get_bind, if_pos hsame]
      rfl
    exact ⟨.ok [], w, exec_idle d hb hop hidle, .resizeSame hv (hsame.trans hbytes), hs⟩
  · obtain ⟨rt, hfree, hsound, hvalues⟩ := deallocate_spec d hs hb
    have hother : bytesOf width count ≠ v.length := hbytes ▸ hsame
    have hresize : call (resize d width count) (w.rt, b) =
        call (DeviceBufferImpl.allocate d (bytesOf width count)) (rt, .new) := by
      have hfull : call (resize d width count) (w.rt, b) =
          call (DeviceBufferImpl.deallocate d >>= fun _ =>
            DeviceBufferImpl.allocate d (bytesOf width count)) (w.rt, b) := by
        unfold resize
        rw [call_get_bind, if_neg hsame]
      rw [hfull, call_bind, hfree]
    have halive : (put w rt x (some .new)).buffers x = some .new := Function.update_self ..
    rcases allocate_spec d hsound halive (bytesOf width count) with
      ⟨rt', b', v', hcall, hlen, hsound', hvalues'⟩ | ⟨hsize, text, hcall⟩
    · rw [put_rt] at hcall
      rw [put_put] at hsound' hvalues'
      refine ⟨.ok [], put w rt' x (some b'), ?_, ?_, hsound'⟩
      · rw [hop, call_method hb (hresize.trans hcall)]
        rfl
      · rw [hvalues', hvalues, Function.update_idem]
        exact .resize hv hother hlen
    · rw [put_rt] at hcall
      refine ⟨.error (cudaError "DeviceBufferImpl::allocate" text), put w rt x (some .new), ?_, ?_,
        hsound⟩
      · rw [hop, call_method hb (hresize.trans hcall)]
        rfl
      · rw [hvalues]
        exact .resizeFails hv hother hsize

/-- The two methods that write to the device. -/
theorem write_spec (hs : Sound w) (hb : w.buffers x = some b) (hv : values w x = some v)
    (hne : b.bytes ≠ 0) {data : List Byte} (hsize : data.length ≤ v.length) {what : String}
    {m : BufferM Unit}
    (hm : call m (w.rt, b) = call (do
      let written ← compute (cudaWrite d b.ptr data w.rt)
      set (written.2, b)
      check written.1 what) (w.rt, b)) :
    ∃ outcome rt v', call m (w.rt, b) = (outcome, (rt, b)) ∧ Sound (put w rt x (some b)) ∧
      values (put w rt x (some b)) = Function.update (values w) x (some v') ∧
      (outcome = .ok () ∧ v' = data ++ v.drop data.length ∨
        ∃ text, outcome = .error (cudaError what text) ∧ v'.length = v.length) := by
  obtain ⟨rt, v', ⟨hwrite, hnew, hsound, hvalues⟩ | ⟨text, hwrite, hlen, hsound, hvalues⟩⟩ :=
    cudaWrite_spec d hs hb hv hsize hne
  · refine ⟨.ok (), rt, v', ?_, hsound, hvalues, .inl ⟨rfl, hnew⟩⟩
    rw [hm, hwrite]
    rfl
  · refine ⟨.error (cudaError what text), rt, v', ?_, hsound, hvalues, .inr ⟨text, rfl, hlen⟩⟩
    rw [hm, hwrite]
    rfl

theorem copyFromHost_step {src : List Byte} (hs : Sound w) (hv : values w x = some v)
    (hsize : bytesOf width count ≤ v.length) (hsrc : bytesOf width count ≤ src.length) :
    Simulated d w (.copyFromHost x width count src) := by
  obtain ⟨b, hb⟩ := alive_of_values (hv ▸ Option.some_ne_none v)
  have hbytes := bytes_eq hs hb hv
  have hop : exec d (.copyFromHost x width count src) =
      (do onBuffer x (DeviceBufferImpl.copyFromHost d src (bytesOf width count)); return []) := rfl
  by_cases hzero : bytesOf width count = 0
  · have hidle : call (DeviceBufferImpl.copyFromHost d src (bytesOf width count)) (w.rt, b) =
        (.ok (), (w.rt, b)) := by
      unfold DeviceBufferImpl.copyFromHost
      rw [if_pos hzero]
      rfl
    have hstep : ValueStep (values w) (.copyFromHost x width count src) _ _ := .copyFromHost hv
    rw [hzero, List.take_zero, List.drop_zero, List.nil_append, ← hv,
      Function.update_eq_self] at hstep
    exact ⟨.ok [], w, exec_idle d hb hop hidle, hstep, hs⟩
  · have hlength : (src.take (bytesOf width count)).length = bytesOf width count :=
      List.length_take_of_le hsrc
    have hm : call (DeviceBufferImpl.copyFromHost d src (bytesOf width count)) (w.rt, b) =
        call (do
          let written ← compute (cudaWrite d b.ptr (src.take (bytesOf width count)) w.rt)
          set (written.2, b)
          check written.1 "DeviceBufferImpl::copy_from_host") (w.rt, b) := by
      unfold DeviceBufferImpl.copyFromHost
      rw [if_neg hzero, call_get_bind, if_neg (not_lt.mpr hsrc)]
    obtain ⟨outcome, rt, v', hcall, hsound, hvalues, ⟨rfl, rfl⟩ | ⟨text, rfl, hlen⟩⟩ :=
      write_spec d hs hb hv (by omega) (hlength.trans_le hsize) hm
    · refine ⟨.ok [], put w rt x (some b), ?_, ?_, hsound⟩
      · rw [hop, call_method hb hcall]
        rfl
      · rw [hvalues, hlength]
        exact .copyFromHost hv
    · refine ⟨.error (cudaError "DeviceBufferImpl::copy_from_host" text), put w rt x (some b),
        ?_, ?_, hsound⟩
      · rw [hop, call_method hb hcall]
        rfl
      · rw [hvalues]
        exact .copyFromHostFails hv hlen

theorem zero_step (hs : Sound w) (hx : values w x ≠ none) : Simulated d w (.zero x) := by
  obtain ⟨v, hv⟩ := Option.ne_none_iff_exists'.mp hx
  obtain ⟨b, hb⟩ := alive_of_values hx
  have hbytes := bytes_eq hs hb hv
  have hop : exec d (.zero x) = (do onBuffer x (DeviceBufferImpl.zero d); return []) := rfl
  by_cases hzero : b.bytes = 0
  · have hidle : call (DeviceBufferImpl.zero d) (w.rt, b) = (.ok (), (w.rt, b)) := by
      unfold DeviceBufferImpl.zero
      rw [call_get_bind, if_pos hzero]
      rfl
    have hstep : ValueStep (values w) (.zero x) _ _ := .zero hv
    have hempty : List.replicate v.length (0 : Byte) = v := by
      rw [← hbytes, hzero, List.eq_nil_of_length_eq_zero (hbytes.symm.trans hzero)]
      rfl
    rw [hempty, ← hv, Function.update_eq_self] at hstep
    exact ⟨.ok [], w, exec_idle d hb hop hidle, hstep, hs⟩
  · have hm : call (DeviceBufferImpl.zero d) (w.rt, b) = call (do
        let written ← compute (cudaWrite d b.ptr (List.replicate b.bytes 0) w.rt)
        set (written.2, b)
        check written.1 "DeviceBufferImpl::zero") (w.rt, b) := by
      unfold DeviceBufferImpl.zero
      rw [call_get_bind, if_neg hzero]
    have hlength : (List.replicate b.bytes (0 : Byte)).length = v.length := by
      rw [List.length_replicate, hbytes]
    obtain ⟨outcome, rt, v', hcall, hsound, hvalues, ⟨rfl, rfl⟩ | ⟨text, rfl, hlen⟩⟩ :=
      write_spec d hs hb hv hzero hlength.le hm
    · refine ⟨.ok [], put w rt x (some b), ?_, ?_, hsound⟩
      · rw [hop, call_method hb hcall]
        rfl
      · rw [hvalues, hlength, List.drop_length, List.append_nil, hbytes]
        exact .zero hv
    · refine ⟨.error (cudaError "DeviceBufferImpl::zero" text), put w rt x (some b), ?_, ?_,
        hsound⟩
      · rw [hop, call_method hb hcall]
        rfl
      · rw [hvalues]
        exact .zeroFails hv hlen

theorem copyToHost_step (hs : Sound w) (hv : values w x = some v)
    (hsize : bytesOf width count ≤ v.length) : Simulated d w (.copyToHost x width count) := by
  obtain ⟨b, hb⟩ := alive_of_values (hv ▸ Option.some_ne_none v)
  have hbytes := bytes_eq hs hb hv
  have hop : exec d (.copyToHost x width count) =
      onBuffer x (DeviceBufferImpl.copyToHost d (bytesOf width count)) := rfl
  by_cases hzero : bytesOf width count = 0
  · have hidle : call (DeviceBufferImpl.copyToHost d (bytesOf width count)) (w.rt, b) =
        (.ok [], (w.rt, b)) := by
      unfold DeviceBufferImpl.copyToHost
      rw [if_pos hzero]
      rfl
    have hstep : ValueStep (values w) (.copyToHost x width count) _ _ := .copyToHost hv
    rw [hzero, List.take_zero] at hstep
    refine ⟨.ok [], w, ?_, hstep, hs⟩
    rw [hop, call_onBuffer hb, hidle, put_self hb]
  · obtain ⟨a, block, ha, hblock, hlen, hseen⟩ := block_of_nonempty hs hb (by omega)
    have hvalue : v = block := by
      rw [values_eq hb, hseen] at hv
      exact (Option.some.inj hv).symm
    subst hvalue
    have hstart : ∀ read outcome, cudaRead d b.ptr (bytesOf width count) w.rt = .ok read →
        (read = .ok (v.take (bytesOf width count)) ∧ outcome = .ok (v.take (bytesOf width count)) ∨
          ∃ text, read = .error text ∧
            outcome = .error (cudaError "DeviceBufferImpl::copy_to_host" text)) →
        call (exec d (.copyToHost x width count)) w = (outcome, w) := by
      intro read outcome hread hcases
      have hcall : call (DeviceBufferImpl.copyToHost d (bytesOf width count)) (w.rt, b) =
          (outcome, (w.rt, b)) := by
        unfold DeviceBufferImpl.copyToHost
        refine (congrArg (fun m => call m (w.rt, b)) (if_neg hzero)).trans ?_
        simp only [call_get_bind, hread]
        rcases hcases with ⟨rfl, rfl⟩ | ⟨text, rfl, rfl⟩
        · rfl
        · rfl
      rw [hop, call_onBuffer hb, hcall, put_self hb]
    cases hanswer : d.transfer w.rt a with
    | none =>
      have hread : cudaRead d b.ptr (bytesOf width count) w.rt =
          .ok (.ok (v.take (bytesOf width count))) := by
        unfold cudaRead
        rw [ha]
        simp only [hblock, if_neg (not_lt.mpr hsize), hanswer]
      exact ⟨_, w, hstart _ _ hread (.inl ⟨rfl, rfl⟩), .copyToHost hv, hs⟩
    | some answer =>
      have hread : cudaRead d b.ptr (bytesOf width count) w.rt = .ok (.error answer.1) := by
        unfold cudaRead
        rw [ha]
        simp only [hblock, if_neg (not_lt.mpr hsize), hanswer]
      exact ⟨_, w, hstart _ _ hread (.inr ⟨answer.1, rfl, rfl⟩), .copyToHostFails, hs⟩

theorem kernel_step {data : List Byte} (hs : Sound w) (hv : values w x = some v)
    (hlen : data.length = v.length) : Simulated d w (.kernel x data) := by
  obtain ⟨b, hb⟩ := alive_of_values (hv ▸ Option.some_ne_none v)
  have hbytes := bytes_eq hs hb hv
  have hop : exec d (.kernel x data) = (do onBuffer x (runKernel data); return []) := rfl
  by_cases hzero : b.bytes = 0
  · have hnull := (hs.fits hb).null.mpr hzero
    have hempty : data = [] :=
      List.eq_nil_of_length_eq_zero (hlen.trans (hbytes.symm.trans hzero))
    subst hempty
    have hidle : call (runKernel []) (w.rt, b) = (.ok (), (w.rt, b)) := by
      obtain rfl := eq_new_of_null (hs.fits hb) hnull
      rfl
    have hstep : ValueStep (values w) (.kernel x []) _ _ := .kernel
    have hnil : v = [] := List.eq_nil_of_length_eq_zero hlen.symm
    rw [← hnil, ← hv, Function.update_eq_self, hnil] at hstep
    exact ⟨.ok [], w, exec_idle d hb hop hidle, hstep, hs⟩
  · obtain ⟨a, block, ha, hblock, hblocklen, -⟩ := block_of_nonempty hs hb hzero
    obtain ⟨hsound, hvalues⟩ := hs.store hb ha (hlen.trans hbytes.symm)
    have hcall : call (runKernel data) (w.rt, b) = (.ok (), (w.rt.store a data, b)) := by
      have hsame : block.length = data.length := by omega
      unfold runKernel
      rw [call_get_bind]
      simp only [ha, hblock, hsame, ne_eq, not_true_eq_false, if_false]
      rfl
    refine ⟨.ok [], put w (w.rt.store a data) x (some b), ?_, ?_, hsound⟩
    · rw [hop, call_method hb hcall]
      rfl
    · rw [hvalues]
      exact .kernel

/-- One operation that the values allow, in a sound memory. -/
theorem step_of_sound (hs : Sound w) {op : Op I} (hop : Allowed (values w) op) :
    Simulated d w op := by
  cases op with
  | construct x => exact construct_step d hs hop
  | constructCount x width count => exact constructCount_step d hs hop
  | moveConstruct x y => exact moveConstruct_step d hs hop.1 hop.2
  | moveAssign x y => exact moveAssign_step d hs hop.1 hop.2
  | destroy x => exact destroy_step d hs hop
  | resize x width count => exact resize_step d hs hop
  | copyFromHost x width count src =>
    obtain ⟨v, hv, hsize, hsrc⟩ := hop
    exact copyFromHost_step d hs hv hsize hsrc
  | copyToHost x width count =>
    obtain ⟨v, hv, hsize⟩ := hop
    exact copyToHost_step d hs hv hsize
  | zero x => exact zero_step d hs hop
  | kernel x data =>
    obtain ⟨v, hv, hlen⟩ := hop
    exact kernel_step d hs hv hlen

end Steps

section Runs

variable {I : Type} [DecidableEq I] {w : World I}

/-- Before the first buffer. -/
def World.start : World I := { rt := .new, buffers := fun _ => none }

/-- The worlds a program can get to that only does what the values allow, each operation with
any answers of the runtime. -/
inductive Reached : World I → Prop
  | start : Reached World.start
  | step {w w' : World I} {op : Op I} {outcome : Except Fault (List Byte)} (d : Driver)
      (h : Reached w) (hop : Allowed (values w) op) (hcall : call (exec d op) w = (outcome, w')) :
      Reached w'

theorem Reached.after (h : Reached w) (d : Driver) (op : Op I) (hop : Allowed (values w) op) :
    Reached (call (exec d op) w).2 :=
  .step d h hop rfl

omit [DecidableEq I] in
theorem sound_start : Sound (World.start : World I) where
  owned := owned_nothing
  fits := nofun
  reported := le_rfl

theorem sound_of_reached (h : Reached w) : Sound w := by
  induction h with
  | start => exact sound_start
  | step d h hop hcall ih =>
    obtain ⟨outcome', w', hcall', -, hsound⟩ := step_of_sound d ih hop
    rw [hcall] at hcall'
    obtain ⟨-, rfl⟩ := Prod.mk.inj hcall'
    exact hsound

/-- Buffers are values in every program that does to them what it may do to values, whatever
the runtime answers: each operation runs into no undefined behaviour, returns or throws what it
may on values and changes no other value. Sizes are those of the blocks, a block belongs to one
buffer or was kept by a cudaFree that is on stderr, and without such a line nothing is left once
all buffers are gone. -/
theorem buffers_are_values (h : Reached w) :
    (∀ d op, Allowed (values w) op → ∃ outcome w',
      call (exec d op) w = (outcome, w') ∧ ValueStep (values w) op outcome (values w')) ∧
    (∀ x b, w.buffers x = some b →
      ∃ v, values w x = some v ∧ v.length = b.bytes ∧ (b.ptr = none ↔ b.bytes = 0)) ∧
    (∀ a, w.rt.blocks a ≠ none → (∃! x, holds w x = some a) ∨ a ∈ w.rt.kept) ∧
    w.rt.kept.length ≤ w.rt.stderr.length ∧
    ((∀ x, w.buffers x = none) → w.rt.stderr = [] → ∀ a, w.rt.blocks a = none) := by
  have hs := sound_of_reached h
  have hknown : ∀ a, w.rt.blocks a ≠ none → (∃! x, holds w x = some a) ∨ a ∈ w.rt.kept := by
    intro a ha
    refine (hs.owned.known ha).imp_left ?_
    rintro ⟨x, hx⟩
    exact ⟨x, hx, fun y hy => hs.owned.once hy hx⟩
  refine ⟨fun d op hop => ?_, fun x b hb => ?_, hknown, hs.reported, fun hgone hquiet a => ?_⟩
  · obtain ⟨outcome, w', hcall, hstep, -⟩ := step_of_sound d hs hop
    exact ⟨outcome, w', hcall, hstep⟩
  · have hfits := hs.fits hb
    exact ⟨_, values_eq hb, hfits.length, hfits.null⟩
  · by_contra ha
    have hkept : w.rt.kept = [] := by
      have hreported := hs.reported
      rw [hquiet] at hreported
      exact List.eq_nil_of_length_eq_zero (Nat.le_zero.mp hreported)
    rcases hknown a ha with ⟨x, hx, -⟩ | hlost
    · rw [holds, hgone x] at hx
      cases hx
    · rw [hkept] at hlost
      cases hlost

section Typed

open SelectorObject

variable {α : Type} (c : Codec α) {x : I} {buf : List α}

/-- The entries of a buffer of a type. -/
def Reads (w : World I) (x : I) (entries : List α) : Prop :=
  values w x = some (c.encodeAll entries)

/-- What `SelectorObject` says about a member on lists of entries: after `resize` and
`copy_from_host`, if neither throws, the member is the mirror of the host array. -/
theorem mirror_of_calls (hs : Sound w) (hx : Reads c w x buf) {src : List α} (hsrc : src ≠ [])
    (hfit : src.length * c.width < 2 ^ 64) (d d' : Driver) :
    ∃ outcome w', call (exec d (.resize x c.width src.length)) w = (outcome, w') ∧
      (outcome = .ok [] → ∃ outcome' w'',
        call (exec d' (.copyFromHost x c.width src.length (c.encodeAll src))) w' =
          (outcome', w'') ∧
        (outcome' = .ok [] → ∀ mem member word, ∃ next,
          mirror mem member word buf src = .ok next ∧ Reads c w'' x next)) := by
  have hbytes : bytesOf c.width src.length = (c.encodeAll src).length := by
    rw [bytesOf, Nat.mod_eq_of_lt hfit, c.length_encodeAll]
  have halive : values w x ≠ none := hx ▸ Option.some_ne_none _
  obtain ⟨outcome, w', hcall, hstep, hsound⟩ := resize_step d hs halive
  refine ⟨outcome, w', hcall, ?_⟩
  rintro rfl
  obtain ⟨v, hv, hlen⟩ : ∃ v, values w' x = some v ∧ v.length = bytesOf c.width src.length := by
    generalize values w' = V at hstep
    cases hstep with
    | resizeSame h hsame => exact ⟨_, h, hsame.symm⟩
    | resize h hother hlen => exact ⟨_, Function.update_self .., hlen⟩
  obtain ⟨outcome', w'', hcall', hstep', -⟩ :=
    copyFromHost_step d' hsound hv hlen.ge hbytes.le
  refine ⟨outcome', w'', hcall', ?_⟩
  rintro rfl mem member word
  refine ⟨src, ?_, ?_⟩
  · rw [SelectorReuse.mirror_eq_ok, if_neg hsrc]
  · unfold Reads
    generalize values w'' = V at hstep' ⊢
    cases hstep' with
    | copyFromHost h =>
      rw [hv] at h
      obtain rfl := Option.some.inj h
      rw [Function.update_self, hbytes, List.take_length, ← hbytes, ← hlen, List.drop_length,
        List.append_nil]

end Typed

/-- A runtime with room for one block. -/
def oneBlock : Driver where
  malloc rt _ :=
    match rt.blocks 0 with
    | none => .ok (0, fun _ => 0)
    | some _ => .error "out of memory"
  malloc_fresh {rt size a contents} h := by
    cases hblock : rt.blocks 0 with
    | none =>
      simp only [hblock, Except.ok.injEq, Prod.mk.injEq] at h
      rw [← h.1, hblock]
    | some block =>
      simp only [hblock] at h
      cases h
  free _ _ := none
  transfer _ _ := none

/-- The same runtime, except that cudaFree fails and keeps the block. -/
def keepsBlocks : Driver :=
  { oneBlock with free := fun _ _ => some ("driver shutting down", true) }

def afterAll (d : Driver) (ops : List (Op Bool)) (w : World Bool) : World Bool :=
  ops.foldl (fun w op => (call (exec d op) w).2) w

/-- Two words, moved from the first buffer to the second. -/
def movedWords : World Bool :=
  afterAll oneBlock [.constructCount true 8 2, .construct false, .moveAssign false true]
    World.start

/-- Both buffers are destroyed. -/
def emptied (d : Driver) : World Bool := afterAll d [.destroy false, .destroy true] movedWords

theorem reached_movedWords : Reached movedWords := by
  have hwords := Reached.start.after oneBlock (.constructCount true 8 2) rfl
  have hpair := hwords.after oneBlock (.construct false) rfl
  exact hpair.after oneBlock (.moveAssign false true) ⟨nofun, nofun⟩

theorem reached_emptied_oneBlock : Reached (emptied oneBlock) := by
  have hfirst := reached_movedWords.after oneBlock (.destroy false) nofun
  exact hfirst.after oneBlock (.destroy true) nofun

theorem reached_emptied_keepsBlocks : Reached (emptied keepsBlocks) := by
  have hfirst := reached_movedWords.after keepsBlocks (.destroy false) nofun
  exact hfirst.after keepsBlocks (.destroy true) nofun

/-- After the move the block has one owner. Where cudaFree fails the destructor keeps the block
and says so, and where it does not nothing is left. -/
theorem buffers_are_values_moved_words :
    (∃! x, holds movedWords x = some 0) ∧
    (∃ outcome w', call (exec keepsBlocks (.destroy false)) movedWords = (outcome, w') ∧
      ValueStep (values movedWords) (.destroy false) outcome (values w')) ∧
    (0 ∈ (emptied keepsBlocks).rt.kept ∧
      (emptied keepsBlocks).rt.kept.length ≤ (emptied keepsBlocks).rt.stderr.length) ∧
    ∀ a, (emptied oneBlock).rt.blocks a = none := by
  obtain ⟨hsteps, -, hknown, -⟩ := buffers_are_values reached_movedWords
  obtain ⟨-, -, hknown', hreported, -⟩ := buffers_are_values reached_emptied_keepsBlocks
  have hgone : ∀ x, (emptied oneBlock).buffers x = none := by
    intro x
    cases x with
    | false => rfl
    | true => rfl
  have hempty : ∀ x, (emptied keepsBlocks).buffers x = none := by
    intro x
    cases x with
    | false => rfl
    | true => rfl
  refine ⟨(hknown 0 nofun).resolve_right List.not_mem_nil, hsteps keepsBlocks _ nofun,
    ⟨(hknown' 0 nofun).resolve_left ?_, hreported⟩,
    (buffers_are_values reached_emptied_oneBlock).2.2.2.2 hgone rfl⟩
  rintro ⟨x, hx, -⟩
  rw [holds, hempty x] at hx
  cases hx

end Runs

end PatternSearch.BufferValues
