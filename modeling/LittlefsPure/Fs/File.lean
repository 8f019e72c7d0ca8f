import LittlefsPure.Fs.Operations

/-!
# File handles

`file.rs`.  An open file caches the pair and the id its entry had at open, a
cursor, and the head and size its content has so far; `sync` commits the last two
to the entry.  The handle borrows the filesystem, so nothing else runs while it is
open, and its operations act on the pair of the filesystem and the handle.

## Why a failing call returns its handle

In the source a method that fails has changed the fields it had assigned by then.  A program of
this model that fails returns nothing, so the methods of a handle that may fail half way return the
handle together with the result.  What an error leaves in the handle is then visible, and it is
what one of the results is about.
-/

namespace LittlefsPure

open FsM

/-- `OpenOptions`. -/
structure OpenOptions where
  read : Bool := false
  write : Bool := false
  append : Bool := false
  create : Bool := false
  truncate : Bool := false
  deriving DecidableEq, Repr

/-- `writable`. -/
def OpenOptions.writable (o : OpenOptions) : Bool := o.write || o.append

/-- `SeekFrom`. -/
inductive SeekFrom where
  | start (pos : ℕ)
  | current (delta : ℤ)
  | stop (delta : ℤ)
  deriving DecidableEq, Repr

/-- `File`. -/
structure File where
  parent : BlockPair
  id : ℕ
  pos : ℕ
  headBlock : ℕ
  size : ℕ
  dirty : Bool
  options : OpenOptions
  deriving DecidableEq, Repr

variable (g : Geometry) (depth : ℕ)

/-- `create_empty_entry_for_file`. -/
def createEmptyEntryForFile (parent : BlockPair) (name : List Byte) : FsM (BlockPair × ℕ) := do
  writeInlineToPair g depth parent name []
  match ← query fun d => seekEntryInChain g d parent (nameBody name) with
  | .found pair id _ => pure (pair, id)
  | .absent .. => throw .corrupt

/-- The pair, id, head and size `open` starts from. -/
def openEntry (parent owner : BlockPair) (name : List Byte) (options : OpenOptions) :
    FsM (BlockPair × ℕ × ℕ × ℕ) := do
  match ← query fun d => appendLayout g d owner name with
  | none =>
      if options.create then do
        let (pair, id) ← createEmptyEntryForFile g depth parent name
        pure (pair, id, noBlock, 0)
      else throw .notFound
  | some (.inline content, id) =>
      if options.truncate then pure (owner, id, noBlock, content.length) else throw .outOfRange
  | some (.ctz head size, id) => pure (owner, id, head, size)

/-- `Fs::open`. -/
def openFile (path : Path) (options : OpenOptions) : FsM File :=
  if !options.read && !options.writable then throw .invalidPath
  else if (options.create || options.truncate) && !options.writable then throw .invalidPath
  else do
    let (parent, leaf) ← parentOf g path
    let owner ← query fun d => ownerOf g d parent leaf
    let (pair, id, head, size) ← openEntry g depth parent owner leaf options
    let (head, size, dirty) :=
      if options.truncate then (noBlock, 0, true) else (head, size, false)
    pure ⟨pair, id, if options.append then size else 0, head, size, dirty, options⟩

namespace File

/-- `seek`. -/
def seek (f : File) (target : SeekFrom) : Except Error File :=
  let newPos : ℤ := match target with
    | .start p => p
    | .current d => f.pos + d
    | .stop d => f.size + d
  if 0 ≤ newPos ∧ newPos ≤ 0xFFFFFFFF then .ok { f with pos := newPos.toNat }
  else .error .outOfRange

/-- `read`: at most `len` bytes from the cursor on. -/
def read (f : File) (len : ℕ) : FsM (File × List Byte) :=
  if !f.options.read then throw .invalidPath
  else if len = 0 ∨ f.size ≤ f.pos ∨ f.headBlock = noBlock then pure (f, [])
  else do
    let take := min len (f.size - f.pos)
    let bytes ← query fun d => Ctz.readCtzAt g d f.headBlock f.size f.pos take
    pure ({ f with pos := f.pos + take }, bytes)

/-- Take back what a failed chain operation had programmed: the handle stays with the
chain it had. -/
def keepAccount {α : Type} (m : FsM α) : FsM (Except Error α) := do
  let s ← get
  let result ← attempt m
  if result.toBool then pure result
  else do
    account fun _ => s.unpublished
    pure result

/-- Take back what a failed commit had programmed.  The handle stays with its chain, which is in
flight still unless a commit that landed before the failure has published it. -/
def keepUnpublished {α : Type} (m : FsM α) : FsM (Except Error α) := do
  let s ← get
  let result ← attempt m
  if result.toBool then pure result
  else do
    account fun u => if u.chain = none then {} else s.unpublished
    pure result

/-- `stream_ctz_extend` on a handle's chain. -/
def tryExtend (head size : ℕ) (data : List Byte) : FsM (Except Error (ℕ × ℕ)) :=
  keepAccount (streamCtzExtend g head size data)

/-- `write`.  The handle comes back in either case: an append moves the cursor to
the end before anything can fail. -/
def write (f : File) (data : List Byte) : FsM (File × Except Error Unit) :=
  if !f.options.writable then pure (f, .error .invalidPath)
  else if data = [] then pure (f, .ok ())
  else
    let f := if f.options.append then { f with pos := f.size } else f
    if f.pos ≠ f.size then pure (f, .error .outOfRange)
    else do
      match ← tryExtend g f.headBlock f.size data with
      | .ok (head, size) =>
          pure ({ f with headBlock := head, size := size, pos := size, dirty := true }, .ok ())
      | .error e => pure (f, .error e)

/-- The zero-extension loop of `set_len`, in chunks of `ZERO_CHUNK`: the head and size
reached, and whether all chunks were written. -/
def zeroExtend : ℕ → ℕ → ℕ → ℕ → FsM ((ℕ × ℕ) × Except Error Unit)
  | 0, head, size, _ => pure ((head, size), .ok ())
  | fuel + 1, head, size, remaining =>
      if remaining = 0 then pure ((head, size), .ok ())
      else do
        let chunk := min remaining 1024
        match ← tryExtend g head size (List.replicate chunk 0) with
        | .ok (head, size) => zeroExtend fuel head size (remaining - chunk)
        | .error e => pure ((head, size), .error e)

/-- `set_len`.  A zero extension that fails midway leaves the handle at the size it
reached, with the cursor at the old end. -/
def setLen (f : File) (newSize : ℕ) : FsM (File × Except Error Unit) :=
  if !f.options.writable then pure (f, .error .invalidPath)
  else if newSize = f.size then pure (f, .ok ())
  else if newSize < f.size then
    if newSize = 0 then do
      settle
      pure ({ f with headBlock := noBlock, size := 0, pos := 0, dirty := true }, .ok ())
    else do
      match ← keepAccount (shrinkCtzHead g f.headBlock f.size newSize) with
      | .ok head =>
          pure ({ f with headBlock := head, size := newSize, pos := min f.pos newSize,
                         dirty := true }, .ok ())
      | .error e => pure (f, .error e)
  else do
    let ((head, size), result) ←
      zeroExtend g (newSize - f.size) f.headBlock f.size (newSize - f.size)
    match result with
    | .ok () =>
        pure ({ f with headBlock := head, size := size, pos := min f.pos size, dirty := true },
          .ok ())
    | .error e => pure ({ f with headBlock := head, size := size, pos := f.size }, .error e)

/-- `sync`. -/
def sync (f : File) : FsM File :=
  if !f.dirty then pure f
  else do
    if f.headBlock = noBlock then
      applyOpToPair g depth f.parent (.update f.id (.bytes []))
    else commitUpdateCtz g depth f.parent f.id f.headBlock f.size
    invalidateAllocCache
    pure { f with dirty := false }

end File

end LittlefsPure
