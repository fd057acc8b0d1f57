import PatternSearch.Dumps
import PatternSearch.Methods

/-!
Dumping on a stream that may fail. The file may not be created, a write may take only the
beginning of its bytes, the flush may fail, and closing the stream may leave any part of what
it took. What lies at the path in the end is nothing new, the whole dump, or a beginning of it,
and a later job never mistakes a beginning for a dump.
-/

namespace PatternSearch.TornDumps

open Machine Methods Csr Bytes PatternStats PatchFile PatchFileWrite Dumps

section Model

/-- The answers of the C library: what fopen reports, how many bytes an fwrite takes with the
error it reports otherwise, whether fflush succeeds, and how many of the bytes taken are in the
file when a stream is closed without a flush. -/
structure Stdio where
  fopen : Option String
  fwrite : List Byte → List Byte → ℕ × String
  fflush : List Byte → Bool
  fclose : List Byte → ℕ

variable (lib : Stdio)

/-- The stream is the bytes it has taken. -/
def Stdio.writeExact (path : String) (bytes : List Byte) : MethodM (List Byte) Unit := do
  let out ← get
  let taken := min (lib.fwrite out bytes).1 bytes.length
  set (out ++ bytes.take taken)
  if bytes ≠ [] ∧ taken ≠ bytes.length then
    throw (fail path ("write failed: " ++ (lib.fwrite out bytes).2))

/-- The writes of `write_patch_file_impl`. -/
def Stdio.writeSections (path : String) (patches : List (List Hash))
    (coords : Option (List (List (Point Double)))) : MethodM (List Byte) Unit := do
  let offsets := offsetsOf patches
  let totalK := offsets.getD patches.length 0
  lib.writeExact path (if coords.isSome then kMagicV2 else kMagicV1)
  lib.writeExact path (Codec.word.encodeAll [Fin.ofNat (2 ^ 64) patches.length, totalK, 0])
  lib.writeExact path (Codec.word.encodeAll offsets)
  patches.forM fun p => lib.writeExact path (Codec.word.encodeAll p)
  (coords.getD []).forM fun c => lib.writeExact path (pointCodec.encodeAll c)

/-- The flush and the end of the stream, which is closed however the function is left. -/
def Stdio.close (path : String) :
    Except Fault Unit × List Byte → Except Fault Unit × List Byte
  | (.error e, out) => (.error e, out.take (lib.fclose out))
  | (.ok (), out) =>
    if lib.fflush out then (.ok (), out)
    else (.error (fail path "flush failed"), out.take (lib.fclose out))

/-- `write_patch_file_impl` on what is at the path. -/
def Stdio.writePatchFileImpl (path : String) (patches : List (List Hash))
    (coords : Option (List (List (Point Double)))) : MethodM (Option (List Byte)) Unit := do
  compute (coords.elim (.ok ()) (checkShape path patches))
  compute (lib.fopen.elim (.ok ()) fun text => .error (fail path ("cannot create: " ++ text)))
  let closed := lib.close path (call (lib.writeSections path patches coords) [])
  set (some closed.2)
  compute closed.1

end Model

section Appends

variable {path : String} {m m' : MethodM (List Byte) Unit} {bytes bytes' : List Byte}

/-- A method of the stream writes these bytes, or only a beginning of them and throws. -/
def Appends (path : String) (m : MethodM (List Byte) Unit) (bytes : List Byte) : Prop :=
  ∀ out, call m out = (.ok (), out ++ bytes) ∨ ∃ text part, part <+: bytes ∧
    call m out = (.error (fail path ("write failed: " ++ text)), out ++ part)

theorem appends_pure : Appends path (pure ()) [] := fun out => .inl (by rw [List.append_nil]; rfl)

theorem Appends.bind (h : Appends path m bytes) (h' : Appends path m' bytes') :
    Appends path (m >>= fun _ => m') (bytes ++ bytes') := by
  intro out
  rw [call_bind]
  rcases h out with hall | ⟨text, part, hpart, hsome⟩
  · rw [hall, ← List.append_assoc]
    rcases h' (out ++ bytes) with hall' | ⟨text, part, hpart, hsome⟩
    · exact .inl hall'
    · refine .inr ⟨text, bytes ++ part, (List.prefix_append_right_inj bytes).mpr hpart, ?_⟩
      rw [← List.append_assoc]
      exact hsome
  · rw [hsome]
    exact .inr ⟨text, part, hpart.trans (List.prefix_append bytes bytes'), rfl⟩

theorem Appends.forM {α : Type} {f : α → MethodM (List Byte) Unit} {plan : α → List Byte}
    (h : ∀ x, Appends path (f x) (plan x)) (l : List α) :
    Appends path (l.forM f) (l.flatMap plan) := by
  induction l with
  | nil => exact appends_pure
  | cons x l ih => exact (h x).bind ih

theorem call_writeExact (lib : Stdio) (path : String) (out bytes : List Byte) :
    call (lib.writeExact path bytes) out =
      (if bytes ≠ [] ∧ min (lib.fwrite out bytes).1 bytes.length ≠ bytes.length then
        .error (fail path ("write failed: " ++ (lib.fwrite out bytes).2)) else .ok (),
        out ++ bytes.take (min (lib.fwrite out bytes).1 bytes.length)) := by
  have hend : call (lib.writeExact path bytes) out =
      call (if bytes ≠ [] ∧ min (lib.fwrite out bytes).1 bytes.length ≠ bytes.length then
        throw (fail path ("write failed: " ++ (lib.fwrite out bytes).2)) else pure ())
        (out ++ bytes.take (min (lib.fwrite out bytes).1 bytes.length)) := rfl
  rw [hend]
  split_ifs with hshort
  · rfl
  · rfl

theorem appends_writeExact (lib : Stdio) (path : String) (bytes : List Byte) :
    Appends path (lib.writeExact path bytes) bytes := by
  intro out
  rw [call_writeExact]
  split_ifs with hshort
  · exact .inr ⟨_, _, List.take_prefix _ bytes, rfl⟩
  · left
    have htaken : min (lib.fwrite out bytes).1 bytes.length = bytes.length := by
      by_contra hne
      refine hshort ⟨?_, hne⟩
      rintro rfl
      exact hne (Nat.min_zero _)
    rw [htaken, List.take_length]

theorem flatMap_encodeAll {α : Type} (c : Codec α) (l : List (List α)) :
    l.flatMap c.encodeAll = c.encodeAll l.flatten := by
  induction l with
  | nil => rfl
  | cons a l ih => rw [List.flatMap_cons, List.flatten_cons, c.encodeAll_append, ih]

/-- The whole dump is planned. -/
theorem appends_writeSections (lib : Stdio) (path : String) (patches : List (List Hash))
    (coords : Option (List (List (Point Double)))) :
    Appends path (lib.writeSections path patches coords) (layout patches coords) := by
  unfold Stdio.writeSections layout
  rw [← flatMap_encodeAll, ← flatMap_encodeAll]
  refine (appends_writeExact lib path _).bind ?_
  refine (appends_writeExact lib path _).bind ?_
  refine (appends_writeExact lib path _).bind ?_
  refine (Appends.forM (fun p => appends_writeExact lib path _) patches).bind ?_
  exact Appends.forM (fun c => appends_writeExact lib path _) (coords.getD [])

/-- What is in the file after the stream is closed. -/
theorem Appends.close (h : Appends path m bytes) (lib : Stdio) :
    lib.close path (call m []) = (.ok (), bytes) ∨
      ∃ e part, part <+: bytes ∧ lib.close path (call m []) = (.error e, part) := by
  rcases h [] with hall | ⟨text, part, hpart, hsome⟩
  · have hclose : lib.close path (call m []) = if lib.fflush bytes then (.ok (), bytes)
        else (.error (fail path "flush failed"), bytes.take (lib.fclose bytes)) := by
      rw [hall]
      rfl
    rw [hclose]
    split_ifs with hflush
    · exact .inl rfl
    · exact .inr ⟨_, _, List.take_prefix _ _, rfl⟩
  · rw [hsome]
    exact .inr ⟨_, _, (List.take_prefix _ part).trans hpart, rfl⟩

end Appends

section Dump

variable {C : Type}

/-- What a dump can come to. -/
theorem call_writePatchFileImpl (lib : Stdio) (path : String) (patches : List (List Hash))
    (coords : Option (List (List (Point Double)))) (prior : Option (List Byte)) :
    (∃ e, call (lib.writePatchFileImpl path patches coords) prior = (.error e, prior)) ∨
    (∀ cs, coords = some cs → SameShape patches cs) ∧
      (call (lib.writePatchFileImpl path patches coords) prior =
        (.ok (), some (layout patches coords)) ∨
      ∃ e part, part <+: layout patches coords ∧
        call (lib.writePatchFileImpl path patches coords) prior = (.error e, some part)) := by
  cases hcheck : (coords.elim (.ok ()) (checkShape path patches) : Except Fault Unit) with
  | error e =>
    left
    refine ⟨e, ?_⟩
    unfold Stdio.writePatchFileImpl
    rw [call_bind, hcheck]
    rfl
  | ok _ =>
    have hshape : ∀ cs, coords = some cs → SameShape patches cs := by
      rintro cs rfl
      exact (checkShape_eq_ok_iff patches cs).mp hcheck
    cases hopen : lib.fopen with
    | some text =>
      left
      refine ⟨fail path ("cannot create: " ++ text), ?_⟩
      unfold Stdio.writePatchFileImpl
      rw [call_bind, hcheck, hopen]
      rfl
    | none =>
      right
      have hcall : call (lib.writePatchFileImpl path patches coords) prior =
          ((lib.close path (call (lib.writeSections path patches coords) [])).1,
            some (lib.close path (call (lib.writeSections path patches coords) [])).2) := by
        unfold Stdio.writePatchFileImpl
        rw [call_bind, hcheck, hopen]
        rfl
      refine ⟨hshape, ?_⟩
      rw [hcall]
      rcases (appends_writeSections lib path patches coords).close lib with
        hclosed | ⟨e, part, hpart, hclosed⟩
      · rw [hclosed]
        exact .inl rfl
      · rw [hclosed]
        exact .inr ⟨e, part, hpart, rfl⟩

/-- Dumping under any failures, over anything that was at the path. Either the path is as it was,
or all of the dump is there and every driver does on it what it does on the patches in memory,
or some of it is missing, the dump has thrown, and no job of any driver returns anything. -/
theorem dump_under_any_failure [LinearOrder C] [Zero C] (lib : Stdio) (path : String)
    (patches : List (List Hash)) (coords : Option (List (List (Point Double))))
    (hsize : (layout patches coords).length < 2 ^ 62) (prior : Option (List Byte)) :
    (∃ e, call (lib.writePatchFileImpl path patches coords) prior = (.error e, prior)) ∨
    ∃ outcome file, call (lib.writePatchFileImpl path patches coords) prior =
        (outcome, some file) ∧
      (file = layout patches coords ∧ StandsFor C path file patches coords ∨
        file ≠ layout patches coords ∧ (∃ e, outcome = .error e) ∧ Unusable C path file) := by
  rcases call_writePatchFileImpl lib path patches coords prior with
    hkept | ⟨hshape, hall | ⟨e, part, hpart, hcall⟩⟩
  · exact .inl hkept
  · have hsmall : (layout patches coords).length < 2 ^ 63 := by omega
    exact .inr ⟨_, _, hall, .inl ⟨rfl, standsFor_layout hshape hsmall path⟩⟩
  · refine .inr ⟨_, _, hcall, ?_⟩
    by_cases hcut : part = layout patches coords
    · subst hcut
      have hsmall : (layout patches coords).length < 2 ^ 63 := by omega
      exact .inl ⟨rfl, standsFor_layout hshape hsmall path⟩
    · exact .inr ⟨hcut, ⟨e, rfl⟩, unusable_of_cut hshape hsize hpart hcut path⟩

/-- A disk with room for 40 bytes. -/
def fullDisk : Stdio where
  fopen := none
  fwrite out bytes := (min (40 - out.length) bytes.length, "No space left on device")
  fflush _ := true
  fclose out := out.length

/-- Two patches, of whose offsets only the first still fits. -/
theorem dump_under_any_failure_full_disk :
    ∃ e file, call (fullDisk.writePatchFileImpl "p" [[3, 3], [5]] none) none =
        (.error e, some file) ∧ Unusable ℕ "p" file := by
  have hcall : call (fullDisk.writePatchFileImpl "p" [[3, 3], [5]] none) none =
      (.error (fail "p" "write failed: No space left on device"),
        some ((layout [[3, 3], [5]] none).take 40)) := by rfl
  rcases dump_under_any_failure (C := ℕ) fullDisk "p" [[3, 3], [5]] none (by decide) none with
    ⟨e, hkept⟩ | ⟨outcome, file, hfile, hends⟩
  · rw [hcall] at hkept
    cases hkept
  · rw [hcall] at hfile
    obtain ⟨rfl, hsome⟩ := Prod.mk.inj hfile
    obtain rfl := Option.some.inj hsome
    rcases hends with ⟨hall, -⟩ | ⟨-, -, hunusable⟩
    · exact absurd hall (by decide)
    · exact ⟨_, _, hcall, hunusable⟩

end Dump

section Unfailing

/-- Nothing fails until the file would reach 2 ^ 63 bytes. -/
def unfailing : Stdio where
  fopen := none
  fwrite out bytes := if out.length + bytes.length < 2 ^ 63 then (bytes.length, "")
    else (0, "File too large")
  fflush _ := true
  fclose out := out.length

variable {path : String}

/-- A method of the stream against a computation on the bytes. -/
def Mirrors (m : MethodM (List Byte) Unit) (f : List Byte → Except Fault (List Byte)) : Prop :=
  ∀ out, returned m out = (f out).map fun out => ((), out)

theorem Mirrors.bind {m m' : MethodM (List Byte) Unit}
    {f f' : List Byte → Except Fault (List Byte)} (h : Mirrors m f) (h' : Mirrors m' f') :
    Mirrors (m >>= fun _ => m') fun out => f out >>= f' := by
  intro out
  show returned (m >>= fun _ => m') out = (f out >>= f').map fun out => ((), out)
  rw [returned_bind, h out]
  cases f out with
  | error e => rfl
  | ok mid => exact h' mid

theorem Mirrors.forM {α : Type} {m : α → MethodM (List Byte) Unit}
    {f : List Byte → α → Except Fault (List Byte)} (h : ∀ x, Mirrors (m x) fun out => f out x)
    (l : List α) : Mirrors (l.forM m) fun out => l.foldlM f out := by
  induction l with
  | nil => exact fun out => rfl
  | cons x l ih =>
    simp only [List.foldlM_cons]
    exact (h x).bind ih

theorem Mirrors.map_call {m : MethodM (List Byte) Unit}
    {f : List Byte → Except Fault (List Byte)} (h : Mirrors m f) (out : List Byte) :
    (call m out).1.map (fun _ => ((), some (call m out).2)) =
      (f out).map fun file => ((), some file) := by
  have hout := h out
  unfold returned outcome after at hout
  cases hcall : call m out with
  | mk result written =>
    rw [hcall] at hout
    cases result with
    | error e =>
      cases hf : f out with
      | error e' =>
        rw [hf] at hout
        obtain rfl := Except.error.inj hout
        rfl
      | ok file =>
        rw [hf] at hout
        cases hout
    | ok _ =>
      cases hf : f out with
      | error e' =>
        rw [hf] at hout
        cases hout
      | ok file =>
        rw [hf] at hout
        obtain rfl : written = file := congrArg Prod.snd (Except.ok.inj hout)
        rfl

theorem mirrors_writeExact (bytes : List Byte) :
    Mirrors (unfailing.writeExact path bytes) fun out => writeExact path out bytes := by
  intro out
  show returned (unfailing.writeExact path bytes) out =
    (writeExact path out bytes).map fun out => ((), out)
  unfold returned outcome after
  rw [call_writeExact]
  by_cases hfit : out.length + bytes.length < 2 ^ 63
  · have hanswer : unfailing.fwrite out bytes = (bytes.length, "") := if_pos hfit
    have hplain : writeExact path out bytes = .ok (out ++ bytes) :=
      if_neg fun h => absurd h.2 (not_le.mpr hfit)
    rw [hanswer, hplain, Nat.min_self, List.take_length, if_neg fun h => h.2 rfl]
    rfl
  · have hanswer : unfailing.fwrite out bytes = (0, "File too large") := if_neg hfit
    rw [hanswer, Nat.zero_min, List.take_zero]
    by_cases hempty : bytes = []
    · have hplain : writeExact path out bytes = .ok (out ++ []) :=
        (if_neg fun h => h.1 hempty).trans (by rw [hempty])
      rw [hplain, if_neg fun h => h.1 hempty]
      rfl
    · have hplain : writeExact path out bytes = .error (fail path "write failed: File too large") :=
        if_pos ⟨hempty, not_lt.mp hfit⟩
      have hshort : 0 ≠ bytes.length := (List.length_pos_iff.mpr hempty).ne
      rw [hplain, if_pos ⟨hempty, hshort⟩]
      rfl

/-- Without failures the dump is the one of the plain writer. -/
theorem writePatchFileImpl_unfailing (patches : List (List Hash))
    (coords : Option (List (List (Point Double)))) (prior : Option (List Byte)) :
    returned (unfailing.writePatchFileImpl path patches coords) prior =
      (writePatchFileImpl path patches coords).map fun file => ((), some file) := by
  have hsections : Mirrors (unfailing.writeSections path patches coords) (fun out => do
      let out ← writeExact path out (if coords.isSome then kMagicV2 else kMagicV1)
      let out ← writeExact path out (Codec.word.encodeAll
        [Fin.ofNat (2 ^ 64) patches.length, (offsetsOf patches).getD patches.length 0, 0])
      let out ← writeExact path out (Codec.word.encodeAll (offsetsOf patches))
      let out ← patches.foldlM (fun out p => writeExact path out (Codec.word.encodeAll p)) out
      (coords.getD []).foldlM (fun out c => writeExact path out (pointCodec.encodeAll c)) out) := by
    refine (mirrors_writeExact _).bind ?_
    refine (mirrors_writeExact _).bind ?_
    refine (mirrors_writeExact _).bind ?_
    refine (Mirrors.forM (fun p => mirrors_writeExact _) patches).bind ?_
    exact Mirrors.forM (fun c => mirrors_writeExact _) (coords.getD [])
  unfold Stdio.writePatchFileImpl writePatchFileImpl
  rw [returned_compute_bind]
  cases (coords.elim (.ok ()) (checkShape path patches) : Except Fault Unit) with
  | error e => rfl
  | ok _ =>
    have hclosed : ∀ written, call (unfailing.writeSections path patches coords) [] = written →
        returned (compute (unfailing.fopen.elim (.ok ()) fun text =>
          .error (fail path ("cannot create: " ++ text))) >>= fun _ => do
            let closed := unfailing.close path
              (call (unfailing.writeSections path patches coords) [])
            set (some closed.2)
            compute closed.1) prior = written.1.map fun _ => ((), some written.2) := by
      rintro ⟨outcome, out⟩ hcall
      rw [hcall]
      cases outcome with
      | error e => rfl
      | ok _ => rfl
    exact (hclosed _ rfl).trans (hsections.map_call [])

end Unfailing

end PatternSearch.TornDumps
