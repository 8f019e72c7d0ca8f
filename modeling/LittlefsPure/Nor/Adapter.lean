import LittlefsPure.Nor.Cells
import LittlefsPure.Logic.Program

/-!
# The aligning adapter

`nor.rs`: a `Storage` over another one.  It keeps one program window of the device in
RAM, merges what is programmed into it, and hands the inner device only whole windows.

The inner device is any `Storage`, over states and errors of its own.  Each call that
the adapter makes of it is recorded as an event.

## Why the inner device is a parameter

The adapter is generic over its inner `Storage`, and what it promises must not depend on which one
it is.  So the device is a record of functions over a state and an error type of its own, and what
is assumed of it is said where it is needed: that it is a NOR device, or that it reads what it
holds, or nothing.  The calls it receives are events, since half of what the adapter promises
concerns them: whole windows, on the grid, inside the device.
-/

namespace LittlefsPure.Nor

open Logic

/-- A `Storage` implementation: what each call returns, and the state it leaves. -/
structure Storage (σ ε : Type) where
  read : ℕ → ℕ → ℕ → σ → Except ε (List Byte) × σ
  readDevice : ℕ → ℕ → ℕ → σ → Except ε (List Byte) × σ
  program : ℕ → ℕ → List Byte → σ → Except ε Unit × σ
  erase : ℕ → σ → Except ε Unit × σ
  sync : σ → Except ε Unit × σ
  /-- What a read that fails leaves of the buffer it was given; by default the buffer. -/
  spill : ℕ → ℕ → List Byte → σ → List Byte := fun _ _ buf _ => buf

/-- How a call of the adapter ends early. -/
inductive Fault (ε : Type) where
  /-- The inner device reports an error. -/
  | device (e : ε)
  /-- The `expect` of `flush`: a dirty window without a block. -/
  | noTarget
  deriving DecidableEq

/-- `MAX_PROG_SIZE`. -/
def maxProgSize : ℕ := 512

/-- `NorAlignedStorage`. -/
structure NorAlignedStorage (σ : Type) where
  inner : σ
  cachedBlock : Option ℕ
  cachedOff : ℕ
  cache : List Byte
  dirty : Bool

/-- A call of the adapter. -/
abbrev Adapter (σ ε α : Type) : Type := Program (NorAlignedStorage σ) (Fault ε) Request α

section Adapter

variable {σ ε α : Type}

/-- Make a call of the inner device. -/
def call (r : Request) (f : σ → Except ε α × σ) : Adapter σ ε α := fun s =>
  ⟨(f s.inner).1.mapError .device, { s with inner := (f s.inner).2 }, [r]⟩

variable (dev : Storage σ ε) (g : Geometry)

namespace NorAlignedStorage

/-- `new`. -/
def new (inner : σ) : Option (NorAlignedStorage σ) :=
  if g.progSize = 0 ∨ maxProgSize < g.progSize then none
  else if g.blockSize % g.progSize ≠ 0 then none
  else some ⟨inner, none, 0, List.replicate maxProgSize 0xFF, false⟩

/-- `flush`. -/
def flush : Adapter σ ε Unit := do
  let s ← get
  if !s.dirty then pure ()
  else
    match s.cachedBlock with
    | none => throw .noTarget
    | some block =>
        -- the window is given up before the program, so that a failure is not retried
        modify fun s => { s with dirty := false }
        let window := s.cache.take g.progSize
        match ← Program.attempt (call (.program block s.cachedOff window)
          (dev.program block s.cachedOff window)) with
        | .ok () => pure ()
        | .error e =>
            modify fun s => { s with cachedBlock := none }
            throw e

/-- `into_inner`. -/
def intoInner : Adapter σ ε σ := do
  flush dev g
  return (← get).inner

/-- `load_window`. -/
def loadWindow (block windowOff : ℕ) : Adapter σ ε Unit := do
  let s ← get
  if s.cachedBlock = some block ∧ s.cachedOff = windowOff then pure ()
  else
    flush dev g
    let s ← get
    match ← Program.attempt (call (.read block windowOff g.progSize)
      (dev.read block windowOff g.progSize)) with
    | .ok bytes =>
        modify fun s => { s with
          cache := bytes ++ s.cache.drop g.progSize
          cachedBlock := some block
          cachedOff := windowOff
          dirty := false }
    | .error e =>
        -- the read went into the cache, which keeps its tag
        modify fun s' => { s' with
          cache := dev.spill block windowOff (s.cache.take g.progSize) s.inner ++
            s.cache.drop g.progSize }
        throw e

/-- The window over the bytes of a read. -/
def splice (s : NorAlignedStorage σ) (block off : ℕ) (buf : List Byte) : List Byte :=
  if s.cachedBlock = some block then
    let cacheStart := s.cachedOff
    let cacheEnd := cacheStart + g.progSize
    let readEnd := off + buf.length
    let overlapStart := max off cacheStart
    let overlapEnd := min readEnd cacheEnd
    if overlapStart < overlapEnd then
      buf.take (overlapStart - off) ++
        (s.cache.drop (overlapStart - cacheStart)).take (overlapEnd - overlapStart) ++
        buf.drop (overlapEnd - off)
    else buf
  else buf

/-- `read`. -/
def read (block off len : ℕ) : Adapter σ ε (List Byte) := do
  let buf ← call (.read block off len) (dev.read block off len)
  return splice g (← get) block off buf

/-- The pending bytes that a read would meet. -/
def Pending (s : NorAlignedStorage σ) (block off len : ℕ) : Prop :=
  s.dirty = true ∧ s.cachedBlock = some block ∧
    off < s.cachedOff + g.progSize ∧ s.cachedOff < off + len

instance (s : NorAlignedStorage σ) (block off len : ℕ) : Decidable (Pending g s block off len) :=
  inferInstanceAs (Decidable (_ ∧ _))

/-- `read_device`. -/
def readDevice (block off len : ℕ) : Adapter σ ε (List Byte) := do
  let s ← get
  if Pending g s block off len then flush dev g
  call (.readDevice block off len) (dev.readDevice block off len)

/-- The bytes of a program in the window. -/
def merge (cache : List Byte) (within : ℕ) (bytes : List Byte) : List Byte :=
  cache.mapIdx fun i x =>
    if within ≤ i ∧ i < within + bytes.length then x &&& bytes.getD (i - within) 0xFF else x

/-- The loop of `program`, which has written the first `written` bytes. -/
def programLoop (block off : ℕ) (data : List Byte) : ℕ → ℕ → Adapter σ ε Unit
  | 0, _ => pure ()
  | fuel + 1, written =>
      if written < data.length then do
        let curOff := off + written
        let windowOff := curOff / g.progSize * g.progSize
        let within := curOff - windowOff
        loadWindow dev g block windowOff
        let taken := min (g.progSize - within) (data.length - written)
        modify fun s => { s with
          cache := merge s.cache within ((data.drop written).take taken)
          dirty := true }
        programLoop block off data fuel (written + taken)
      else pure ()

/-- `program`.  A turn of the loop writes at least one byte. -/
def program (block off : ℕ) (data : List Byte) : Adapter σ ε Unit :=
  programLoop dev g block off data data.length 0

/-- `erase`. -/
def erase (block : ℕ) : Adapter σ ε Unit := do
  modify fun s =>
    if s.cachedBlock = some block then { s with cachedBlock := none, dirty := false } else s
  call (.erase block) (dev.erase block)

/-- `sync`. -/
def sync : Adapter σ ε Unit := do
  flush dev g
  call .sync dev.sync

/-- A call of the `Storage` interface; a call that reads returns its bytes. -/
def exec : Request → Adapter σ ε (List Byte)
  | .read block off len => read dev g block off len
  | .readDevice block off len => readDevice dev g block off len
  | .program block off data => do
      program dev g block off data
      return []
  | .erase block => do
      erase dev block
      return []
  | .sync => do
      sync dev g
      return []

/-- A sequence of calls, up to the first that fails. -/
def execAll : List Request → Adapter σ ε (List (List Byte))
  | [] => return []
  | r :: rs => do
      let bytes ← exec dev g r
      let more ← execAll rs
      return bytes :: more

end NorAlignedStorage

end Adapter

end LittlefsPure.Nor
