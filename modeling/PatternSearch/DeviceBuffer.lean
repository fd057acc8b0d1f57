import PatternSearch.Bytes
import PatternSearch.Methods

/-!
The owner of a block of device memory, on a runtime that may refuse any call and leaves
anything in a new block, and what programs do with such owners: they construct, move, resize,
fill, read and destroy them.
-/

namespace PatternSearch.DeviceBuffer

open Machine Bytes Methods

section Runtime

abbrev Addr := ℕ

/-- The device memory as the CUDA runtime keeps it, and the lines on stderr. -/
structure Runtime where
  blocks : Addr → Option (List Byte)
  /-- The blocks that a failing cudaFree left allocated. -/
  kept : List Addr
  stderr : List String

def Runtime.new : Runtime := { blocks := fun _ => none, kept := [], stderr := [] }

def Runtime.store (rt : Runtime) (a : Addr) (block : List Byte) : Runtime :=
  { rt with blocks := Function.update rt.blocks a (some block) }

/-- The line of `deallocate` about a cudaFree that failed. -/
def Runtime.report (rt : Runtime) : Option String → Runtime
  | none => rt
  | some text =>
    { rt with
      stderr := rt.stderr ++
        ["DeviceBufferImpl::deallocate cudaFree failed: " ++ text ++ "\n"] }

/-- The answers of the runtime to one call. An error comes with its text; what a failing
transfer has written to the block is not known, nor whether a failing free has freed it. -/
structure Driver where
  malloc : Runtime → ℕ → Except String (Addr × (ℕ → Byte))
  malloc_fresh : ∀ {rt size a contents}, malloc rt size = .ok (a, contents) → rt.blocks a = none
  free : Runtime → Addr → Option (String × Bool)
  transfer : Runtime → Addr → Option (String × (ℕ → Byte))

variable (d : Driver)

/-- cudaFree of a live block. -/
def cudaFree (a : Addr) (rt : Runtime) : Except Fault (Option String × Runtime) :=
  match rt.blocks a with
  | none => .error .contract
  | some _ =>
    match d.free rt a with
    | none => .ok (none, { rt with blocks := Function.update rt.blocks a none })
    | some (text, true) => .ok (some text, { rt with kept := a :: rt.kept })
    | some (text, false) => .ok (some text, { rt with blocks := Function.update rt.blocks a none })

/-- cudaMemcpy to the device, and cudaMemset, with the bytes to write. -/
def cudaWrite (ptr : Option Addr) (data : List Byte) (rt : Runtime) :
    Except Fault (Option String × Runtime) :=
  match ptr with
  | none => .error .contract
  | some a =>
    match rt.blocks a with
    | none => .error .contract
    | some block =>
      if block.length < data.length then .error .outOfBounds
      else
        match d.transfer rt a with
        | none => .ok (none, rt.store a (data ++ block.drop data.length))
        | some (text, contents) =>
          .ok (some text, rt.store a ((List.range block.length).map contents))

/-- cudaMemcpy to the host. -/
def cudaRead (ptr : Option Addr) (size : ℕ) (rt : Runtime) :
    Except Fault (Except String (List Byte)) :=
  match ptr with
  | none => .error .contract
  | some a =>
    match rt.blocks a with
    | none => .error .contract
    | some block =>
      if block.length < size then .error .outOfBounds
      else
        match d.transfer rt a with
        | none => .ok (.ok (block.take size))
        | some (text, _) => .ok (.error text)

end Runtime

section Impl

structure DeviceBufferImpl where
  ptr : Option Addr
  bytes : ℕ

def DeviceBufferImpl.new : DeviceBufferImpl := { ptr := none, bytes := 0 }

/-- A method of one buffer, which calls the runtime. -/
abbrev BufferM := MethodM (Runtime × DeviceBufferImpl)

/-- The exception of `check`. -/
def cudaError (what text : String) : Fault :=
  .throws (.runtimeError ("CUDA error in " ++ what ++ ": " ++ text))

def check (err : Option String) (what : String) : BufferM Unit :=
  match err with
  | none => pure ()
  | some text => compute (.error (cudaError what text))

namespace DeviceBufferImpl

variable (d : Driver)

def allocate (numBytes : ℕ) : BufferM Unit := do
  if numBytes = 0 then
    update fun s => (s.1, .new)
  else
    let s ← get
    match d.malloc s.1 numBytes with
    | .error text => check (some text) "DeviceBufferImpl::allocate"
    | .ok (a, contents) =>
      set (s.1.store a ((List.range numBytes).map contents), { s.2 with ptr := some a })
      check none "DeviceBufferImpl::allocate"
      update fun s => (s.1, { s.2 with bytes := numBytes })

def deallocate : BufferM Unit := do
  let s ← get
  match s.2.ptr with
  | none => pure ()
  | some a => do
    let freed ← compute (cudaFree d a s.1)
    set (freed.2.report freed.1, DeviceBufferImpl.new)

def copyFromHost (src : List Byte) (numBytes : ℕ) : BufferM Unit := do
  if numBytes = 0 then return
  let s ← get
  if src.length < numBytes then compute (.error .outOfBounds)
  let written ← compute (cudaWrite d s.2.ptr (src.take numBytes) s.1)
  set (written.2, s.2)
  check written.1 "DeviceBufferImpl::copy_from_host"

def copyToHost (numBytes : ℕ) : BufferM (List Byte) := do
  if numBytes = 0 then return []
  let s ← get
  match ← compute (cudaRead d s.2.ptr numBytes s.1) with
  | .ok data => return data
  | .error text =>
    check (some text) "DeviceBufferImpl::copy_to_host"
    return []

def zero : BufferM Unit := do
  let s ← get
  if s.2.bytes = 0 then return
  let written ← compute (cudaWrite d s.2.ptr (List.replicate s.2.bytes 0) s.1)
  set (written.2, s.2)
  check written.1 "DeviceBufferImpl::zero"

end DeviceBufferImpl

end Impl

section World

/-- The buffers that live, by name, and the runtime they share. -/
structure World (I : Type) where
  rt : Runtime
  buffers : I → Option DeviceBufferImpl

/-- `count * sizeof(T)` in size_t. -/
def bytesOf (width count : ℕ) : ℕ := count * width % 2 ^ 64

/-- What a program does with buffers. The width is sizeof(T); a kernel that is handed the
pointer of `data()` writes the block. -/
inductive Op (I : Type)
  | construct (x : I)
  | constructCount (x : I) (width count : ℕ)
  | moveConstruct (x y : I)
  | moveAssign (x y : I)
  | destroy (x : I)
  | resize (x : I) (width count : ℕ)
  | copyFromHost (x : I) (width count : ℕ) (src : List Byte)
  | copyToHost (x : I) (width count : ℕ)
  | zero (x : I)
  | kernel (x : I) (data : List Byte)

variable {I : Type} [DecidableEq I] (d : Driver)

/-- `DeviceBuffer::resize`. -/
def resize (width count : ℕ) : BufferM Unit := do
  let newBytes := bytesOf width count
  let s ← get
  if newBytes = s.2.bytes then return
  DeviceBufferImpl.deallocate d
  DeviceBufferImpl.allocate d newBytes

/-- A kernel that writes the whole block. -/
def runKernel (data : List Byte) : BufferM Unit := do
  let s ← get
  match s.2.ptr with
  | none => if data ≠ [] then compute (.error .outOfBounds)
  | some a =>
    match s.1.blocks a with
    | none => compute (.error .contract)
    | some block =>
      if block.length ≠ data.length then compute (.error .outOfBounds)
      set (s.1.store a data, s.2)

/-- A method of a buffer in its lifetime. -/
def onBuffer {α : Type} (x : I) (m : BufferM α) : MethodM (World I) α := do
  let w ← get
  match w.buffers x with
  | none => compute (.error .contract)
  | some b =>
    within (fun w => (w.rt, b))
      (fun s w => { w with rt := s.1, buffers := Function.update w.buffers x (some s.2) }) m

/-- The constructor with a count. Where it throws, the member it has built is destroyed. -/
def constructCount (x : I) (width count : ℕ) : MethodM (World I) Unit := do
  let w ← get
  match call (DeviceBufferImpl.allocate d (bytesOf width count)) (w.rt, .new) with
  | (.ok _, s) => set { rt := s.1, buffers := Function.update w.buffers x (some s.2) : World I }
  | (.error e, s) => do
    let unwound := call (DeviceBufferImpl.deallocate d) s
    set { w with rt := unwound.2.1 }
    compute unwound.1
    compute (.error e)

/-- `ptr_(other.ptr_), bytes_(other.bytes_)`, and the other is empty from then on. -/
def takeOver (x y : I) : MethodM (World I) Unit := do
  let w ← get
  match w.buffers y with
  | none => compute (.error .contract)
  | some other =>
    set { w with
      buffers := Function.update (Function.update w.buffers y (some .new)) x (some other) }

/-- The move assignment does nothing on the buffer itself. -/
def moveAssign (x y : I) : MethodM (World I) Unit := do
  if x ≠ y then
    onBuffer x (DeviceBufferImpl.deallocate d)
    takeOver x y

def exec : Op I → MethodM (World I) (List Byte)
  | .construct x => do
    update fun w => { w with buffers := Function.update w.buffers x (some .new) }
    return []
  | .constructCount x width count => do
    constructCount d x width count
    return []
  | .moveConstruct x y => do
    takeOver x y
    return []
  | .moveAssign x y => do
    moveAssign d x y
    return []
  | .destroy x => do
    onBuffer x (DeviceBufferImpl.deallocate d)
    update fun w => { w with buffers := Function.update w.buffers x none }
    return []
  | .resize x width count => do
    onBuffer x (resize d width count)
    return []
  | .copyFromHost x width count src => do
    onBuffer x (DeviceBufferImpl.copyFromHost d src (bytesOf width count))
    return []
  | .copyToHost x width count =>
    onBuffer x (DeviceBufferImpl.copyToHost d (bytesOf width count))
  | .zero x => do
    onBuffer x (DeviceBufferImpl.zero d)
    return []
  | .kernel x data => do
    onBuffer x (runKernel data)
    return []

end World

end PatternSearch.DeviceBuffer
