import LittlefsPure.Disk.Alloc
import LittlefsPure.Fs.WriteOp
import LittlefsPure.Logic.Program

/-!
# The running filesystem

The state of an `Fs` handle with its device, and the calls the filesystem makes to
the device and to the allocator.  Everything above is written in `FsM`, the
programs over this state that may fail and that record what they do.

Two fields are not in the source.  `script` says how the next erases and programs
turn out: each call takes the head of the list, and a call that finds the list
empty succeeds, so the empty script is a fault-free device.  `unpublished` keeps
account of the blocks that are programmed before something durable names them; it
is written at the points where that changes and read only by the events.
-/

namespace LittlefsPure

/-! ## Superblock and pending move -/

/-- `DISK_VERSION`. -/
def diskVersion : ℕ := 0x00020001

/-- `MAGIC`, the bytes of "littlefs". -/
def magic : Body := .bytes [0x6c, 0x69, 0x74, 0x74, 0x6c, 0x65, 0x66, 0x73]

/-- `ROOT_BLOCK_PAIR`. -/
def rootBlockPair : BlockPair := ⟨0, 1⟩

/-- `Superblock`. -/
structure Superblock where
  version : ℕ
  blockSize : ℕ
  blockCount : ℕ
  nameMax : ℕ
  fileMax : ℕ
  attrMax : ℕ
  deriving DecidableEq, Repr

namespace Superblock

/-- `to_bytes`. -/
def toBody (sb : Superblock) : Body :=
  .words [sb.version, sb.blockSize, sb.blockCount, sb.nameMax, sb.fileMax, sb.attrMax]

/-- `from_bytes`, on a body of 24 bytes. -/
def ofBody (b : Body) : Superblock :=
  ⟨b.word 0, b.word 1, b.word 2, b.word 3, b.word 4, b.word 5⟩

/-- The magic and the geometry `from_pair` finds in a tag list, the latest geometry
winning. -/
def scanTags : List TagEntry → Bool × Option Superblock → Bool × Option Superblock
  | [], found => found
  | t :: ts, (magicSeen, decoded) =>
      if t.tagType = .superblock ∧ t.body = magic then scanTags ts (true, decoded)
      else if t.tagType = .inlineStruct ∧ t.id = 0 ∧ t.body.length = 24 then
        scanTags ts (magicSeen, some (ofBody t.body))
      else scanTags ts (magicSeen, decoded)

/-- `from_pair`. -/
def fromPair (p : MetadataPair) : Except Error Superblock :=
  match scanTags p.reader.tags (false, none) with
  | (false, _) => .error .notLittleFs
  | (true, none) => .error .corrupt
  | (true, some sb) =>
      if sb.version / 0x10000 ≠ diskVersion / 0x10000 ∨
          diskVersion % 0x10000 < sb.version % 0x10000 then
        .error (.unsupportedVersion sb.version)
      else .ok sb

end Superblock

/-- `PendingMove`: the source of a rename whose destination commit is running. -/
structure PendingMove where
  curPair : BlockPair
  curId : ℕ
  delta : MoveBody
  deriving DecidableEq, Repr

/-- `Inflight`: blocks in use that nothing durable names yet, and the coordinates
of a chain in the same position. -/
structure Inflight where
  blocks : List ℕ := []
  chain : Option (ℕ × ℕ) := none
  deriving DecidableEq, Repr

/-- The arguments of `apply_op_to_pair_inner`. -/
structure CommitRequest where
  pair : BlockPair
  op : WriteOp := .noop
  extraMove : Option MoveBody := none
  extraRelocate : Option RelocateBody := none
  newTail : Option TailLink := none
  inflight : Inflight := {}

/-- The blocks of an operation that are programmed and that nothing durable names. -/
structure Unpublished where
  blocks : List ℕ := []
  /-- Those of them that the operation no longer tells the allocator about. -/
  exposed : List ℕ := []
  /-- The head and size of the chain the operation has built. -/
  chain : Option (ℕ × ℕ) := none
  deriving DecidableEq, Repr

/-! ## Device outcomes and events -/

/-- How far a failing device call got. -/
inductive Effect where
  | nothing
  /-- The call stopped after `n` bytes. -/
  | torn (n : ℕ)
  | landed
  deriving DecidableEq, Repr

/-- The outcome of one erase or program. -/
inductive Outcome where
  | done
  /-- The device reports an error. -/
  | failed (effect : Effect)
  /-- The device reports success but the cells read back differently; `readable`
  when the difference is in padding that no reader looks at. -/
  | miswritten (readable : Bool)
  deriving DecidableEq, Repr

/-- What a program call and the read back behind it found. -/
inductive Report where
  | verified
  | failed
  | mismatch
  deriving DecidableEq, Repr

/-- One allocator call. -/
structure AllocCall where
  device : Device
  root : BlockPair
  singleBuf : Bool
  cache : Option Bitmap
  excluded : List ℕ
  chain : Option (ℕ × ℕ)
  want : ℕ
  deriving DecidableEq, Repr

/-- What a run does, as far as the statements about runs need it. -/
inductive Event where
  /-- The allocator handed out blocks. -/
  | alloc (call : AllocCall) (unpublished : Unpublished) (blocks : List ℕ)
  /-- A block was erased; `before` is the device the call found. -/
  | erase (before : Device) (block : ℕ) (unpublished : Unpublished)
  /-- A block was programmed. -/
  | program (before : Device) (block : ℕ)
  /-- Plain bytes are about to be programmed. -/
  | programBytes (before : Device) (block off : ℕ) (data : List Byte)
  /-- A commit appends `tags` to a log whose live slots are `slots`. -/
  | append (l : MetadataLog) (slots : Roster Slot) (op : WriteOp)
  /-- A log is rebuilt from the entries with index in `[lo, hi)`. -/
  | rebuild (source : MetadataLog) (slots : Roster Slot) (op : WriteOp) (lo hi : ℕ)
  /-- A commit starts on a pair. -/
  | commit (device : Device) (root : BlockPair) (request : CommitRequest)
      (unpublished : Unpublished)
  /-- An existing chain is about to be extended or cut. -/
  | resume (device : Device) (root : BlockPair) (head size : ℕ) (unpublished : Unpublished)

/-- An `Fs` handle with its device. -/
structure Fs where
  device : Device
  superblock : Superblock
  root : BlockPair
  usedCache : Option Bitmap
  pendingMove : Option PendingMove
  script : List Outcome
  unpublished : Unpublished

/-- Operations on a filesystem: they change it, may fail, and record events. -/
abbrev FsM := Logic.Program Fs Error Event

namespace FsM

export Logic.Program (lift note attempt)

/-- Run a read of the device. -/
def query {α : Type} (f : Device → Except Error α) : FsM α :=
  Logic.Program.query fun s => f s.device

/-- Drop the allocator cache. -/
def invalidateAllocCache : FsM Unit := modify fun s => { s with usedCache := none }

/-- Take the outcome of the next device call from the script. -/
def nextOutcome : FsM Outcome := do
  let s ← get
  match s.script with
  | [] => pure .done
  | o :: rest =>
      set { s with script := rest }
      pure o

/-! ### Unpublished blocks -/

/-- Rewrite the account of the unpublished blocks. -/
def account (f : Unpublished → Unpublished) : FsM Unit :=
  modify fun s => { s with unpublished := f s.unpublished }

/-- Blocks are programmed. -/
def hold (blocks : List ℕ) : FsM Unit := account fun u => { u with blocks := u.blocks ++ blocks }

/-- Blocks are given up. -/
def release (blocks : List ℕ) : FsM Unit :=
  account fun u => { u with
    blocks := u.blocks.filter (· ∉ blocks), exposed := u.exposed.filter (· ∉ blocks) }

/-- Unpublished blocks drop out of what the operation tells the allocator. -/
def expose (blocks : List ℕ) : FsM Unit :=
  account fun u => { u with exposed := u.exposed ++ blocks.filter (· ∈ u.blocks) }

/-- The operation has built a chain; what it exposed on the way is given up. -/
def holdChain (head size : ℕ) : FsM Unit :=
  account fun u => ⟨u.blocks.filter (· ∉ u.exposed), [], some (head, size)⟩

/-- Everything is published, or given up at the end of an operation. -/
def settle : FsM Unit := account fun _ => {}

end FsM

open FsM

/-! ## Device calls -/

variable (g : Geometry)

/-- What an interrupted erase leaves of a block. -/
def Block.tornErase (n : ℕ) (b : Block) : Block := .raw (b.bytes.take n)

/-- `&` of two byte strings, the second over the first: programming clears bits. -/
def andBytes : List Byte → List Byte → List Byte
  | [], ys => ys
  | xs, [] => xs
  | x :: xs, y :: ys => (x &&& y) :: andBytes xs ys

/-- The bytes of a block after programming `data` at `off`. -/
def programAt (bytes : List Byte) (off : ℕ) (data : List Byte) : List Byte :=
  bytes.take off ++ List.replicate (off - bytes.length) 0xFF ++ andBytes (bytes.drop off) data

/-- A byte below the offset of a program keeps its value. -/
theorem getD_programAt {bytes data : List Byte} {off p : ℕ} (h : p < off) :
    (programAt bytes off data).getD p 0xFF = bytes.getD p 0xFF :=
  Block.getD_padded _ h

/-- Replace the content of a block. -/
def putBlock (addr : ℕ) (b : Block) : FsM Unit :=
  modify fun s => { s with device := s.device.write addr b }

/-- `Storage::erase`; the result is `is_ok`. -/
def eraseBlock (addr : ℕ) : FsM Bool := do
  let s ← get
  if addr < s.device.blocks.length then
    note (.erase s.device addr s.unpublished)
    match ← nextOutcome with
    | .done => putBlock addr .erased; pure true
    | .failed .nothing => pure false
    | .failed (.torn n) => putBlock addr ((s.device.get addr).tornErase n); pure false
    | .failed .landed => putBlock addr .erased; pure false
    | .miswritten _ => putBlock addr .erased; pure true
  else pure false

/-- The content a program leaves behind, for each outcome: `before` when nothing
landed, `torn` when the call stopped midway, `after` when all of it did. -/
def landProgram (addr : ℕ) (torn : ℕ → Block) (after : Block) : Outcome → FsM Report
  | .done => do putBlock addr after; pure .verified
  | .failed .nothing => pure .failed
  | .failed (.torn n) => do putBlock addr (torn n); pure .failed
  | .failed .landed => do putBlock addr after; pure .failed
  | .miswritten true => do putBlock addr after; pure .mismatch
  | .miswritten false => do putBlock addr (torn 0); pure .mismatch

/-- `Storage::program` with the read back of `verify_programmed`. -/
def programBlock (addr : ℕ) (torn : ℕ → Block) (after : Block) : FsM Report := do
  let s ← get
  if addr < s.device.blocks.length then
    note (.program s.device addr)
    landProgram addr torn after (← nextOutcome)
  else pure .failed

/-- Program a whole metadata log onto an erased block.  A torn program leaves no
verified commit. -/
def programLog (addr : ℕ) (l : MetadataLog) : FsM Report :=
  programBlock addr (fun _ => .log ⟨l.revision, [], false⟩) (.log l)

/-- Program one more commit behind a log.  A torn program leaves the log as it was,
with a dirty window behind it. -/
def programAppend (addr : ℕ) (l l' : MetadataLog) : FsM Report :=
  programBlock addr (fun _ => .log { l with erased := false }) (.log l')

/-- Program plain bytes at an offset. -/
def programBytes (addr off : ℕ) (data : List Byte) : FsM Report := do
  let s ← get
  let bytes := (s.device.get addr).bytes
  note (.programBytes s.device addr off data)
  programBlock addr (fun n => .raw (programAt bytes off (data.take n)))
    (.raw (programAt bytes off data))

/-- Erase a block and program a log onto it, verified. -/
def eraseAndProgramLog (addr : ℕ) (l : MetadataLog) : FsM Bool := do
  if ← eraseBlock addr then
    pure ((← programLog addr l) == .verified)
  else pure false

/-- Erase a block and program bytes onto it, verified. -/
def eraseAndProgramBytes (addr : ℕ) (data : List Byte) : FsM Bool := do
  if ← eraseBlock addr then
    pure ((← programBytes addr 0 data) == .verified)
  else pure false

/-! ## Allocation -/

/-- `alloc_blocks_cached` and `alloc_one_block_cached_single_buf` on the handle's
cache. -/
def allocBlocks (singleBuf : Bool) (excluded : List ℕ) (chain : Option (ℕ × ℕ)) (want : ℕ) :
    FsM (List ℕ) := do
  let s ← get
  let call : AllocCall :=
    ⟨s.device, s.root, singleBuf, s.usedCache, excluded, chain, want⟩
  let (cache, result) :=
    Alloc.allocCached g s.device s.root singleBuf s.usedCache excluded chain want
  set { s with usedCache := cache }
  let blocks ← lift result
  note (.alloc call s.unpublished blocks)
  pure blocks

/-- One block from the single-buffer allocator. -/
def allocOneBlock (excluded : List ℕ) (chain : Option (ℕ × ℕ)) : FsM ℕ := do
  let blocks ← allocBlocks g true excluded chain 1
  pure (blocks.getD 0 noBlock)

/-! ## Fetching pairs -/

/-- `read_pair_blocks` and `MetadataPair::parse`. -/
def fetchPair (p : BlockPair) : FsM MetadataPair := query fun d => d.fetch g p

end LittlefsPure
