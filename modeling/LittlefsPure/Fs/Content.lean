import LittlefsPure.Fs.Commit

/-!
# File content

Writing CTZ chains: `try_build_ctz_chain`, `stream_ctz_extend` and
`shrink_ctz_head`.  A worn block, one whose erase or program fails or whose
content does not read back, is excluded and the work is done again on another
one, a bounded number of times.

## Why the retries are in the model

A block wears out in the middle of a write, and what follows is not the same write again: the
blocks that were programmed before it are kept excluded, another one is allocated, and the
pointers of those behind it name the new block.  Half of the claims one can make about these
functions concern what is left behind by the attempts that failed, so the loops are modelled with
their bounds and their lists of excluded blocks.
-/

namespace LittlefsPure

open FsM

variable (g : Geometry)

/-- `MAX_CTZ_WRITE_BLOCKS`. -/
def maxCtzWriteBlocks : ℕ := 256

/-! ## A new chain -/

/-- The bytes of chain block `i`: its skip pointers, then content. -/
def chainImage (chain : List ℕ) (i : ℕ) (content : List Byte) : List Byte :=
  ((List.range (Ctz.skipPointersInBlock i)).flatMap fun k => le32 (chain.getD (i - 2 ^ k) 0)) ++
    content.take (g.blockSize - 4 * Ctz.skipPointersInBlock i)

/-- The loop of `try_build_ctz_chain`: `todo` are the blocks from index `i` on.  The
result is the block that turned out to be worn, if any; the chain is then given up. -/
def buildChainFrom (chain : List ℕ) : List ℕ → ℕ → List Byte → FsM (Option ℕ)
  | [], _, _ => pure none
  | block :: todo, i, content => do
      if ← eraseAndProgramBytes block (chainImage g chain i content) then
        hold [block]
        buildChainFrom chain todo (i + 1)
          (content.drop (g.blockSize - 4 * Ctz.skipPointersInBlock i))
      else
        release chain
        pure (some block)

/-- `try_build_ctz_chain`. -/
def tryBuildCtzChain (chain : List ℕ) (content : List Byte) : FsM (Option ℕ) :=
  buildChainFrom g chain chain 0 content

/-- The allocate-and-build loop of `write_ctz_to_pair`; `left` retries remain. -/
def allocChain (content : List Byte) (totalBlocks : ℕ) : ℕ → List ℕ → FsM (List ℕ)
  | 0, excluded => do
      let chain ← allocBlocks g false excluded none totalBlocks
      match ← tryBuildCtzChain g chain content with
      | none =>
          holdChain (chain.getD (totalBlocks - 1) noBlock) content.length
          pure chain
      | some _ => throw .io
  | left + 1, excluded => do
      let chain ← allocBlocks g false excluded none totalBlocks
      match ← tryBuildCtzChain g chain content with
      | none =>
          holdChain (chain.getD (totalBlocks - 1) noBlock) content.length
          pure chain
      | some bad =>
          invalidateAllocCache
          allocChain content totalBlocks left (excluded ++ [bad])

/-! ## Extending a chain -/

/-- Record that an existing chain is about to be changed. -/
def noteResume (head size : ℕ) : FsM Unit := do
  let s ← get
  note (.resume s.device s.root head size s.unpublished)

/-- The rebuilt tail of the copy-on-write branch of `stream_ctz_extend`: the committed
bytes of the old tail up to `off`, then the fill. -/
def rebuildTail (head off : ℕ) (fill : List Byte) (excludeChain : Option (ℕ × ℕ)) :
    ℕ → List ℕ → FsM ℕ
  | left, excluded => do
      let blocks ← allocBlocks g false excluded excludeChain 1
      let fresh := blocks.getD 0 noBlock
      let old ← query fun d => d.read head
      if ← eraseAndProgramBytes fresh (old.slice 0 off ++ fill) then
        hold [fresh]
        expose [head]
        pure fresh
      else
        match left with
        | 0 => throw .io
        | left + 1 => do
            invalidateAllocCache
            rebuildTail head off fill excludeChain left (excluded ++ [fresh])

/-- The tail plan of `stream_ctz_extend`: the block that is the tail afterwards, the
in-place fill left for later, and the bytes it consumes. -/
def planTail (head oldSize : ℕ) (data : List Byte) :
    FsM (ℕ × Option (ℕ × List Byte) × ℕ) := do
  let nOld := Ctz.blockCount oldSize g.blockSize
  if nOld = 0 then pure (head, none, 0)
  else
    let tailIdx := nOld - 1
    let header := 4 * Ctz.skipPointersInBlock tailIdx
    let tailCap := Ctz.contentBytesInBlock tailIdx g.blockSize
    let bytesUsed := (Ctz.blockIndexAtOffset (oldSize - 1) g.blockSize).2 + 1 - header
    let fill := min (tailCap - bytesUsed) data.length
    if fill = 0 then pure (head, none, 0)
    else
      let off := header + bytesUsed
      let tail ← query fun d => d.read head
      if (tail.slice off fill).all (· == 0xFF) then pure (head, some (off, data.take fill), fill)
      else
        let fresh ← rebuildTail g head off (data.take fill) (some (head, oldSize))
          maxBadBlockRetries []
        pure (fresh, none, fill)

/-- The skip pointers of new block `i` of an extended chain: new blocks by position,
earlier ones by a descent from the tail. -/
def extendPointers (newBlocks : List ℕ) (tailAddr nOld i : ℕ) : List ℕ → FsM (List Byte)
  | [] => pure []
  | k :: ks => do
      if i < 2 ^ k then throw .corrupt
      else
        let target := i - 2 ^ k
        let phys ← query fun d =>
          if nOld ≤ target then .ok (newBlocks.getD (target - nOld) 0)
          else Ctz.seekBlock g d tailAddr (nOld - 1) target
        let more ← extendPointers newBlocks tailAddr nOld i ks
        pure (le32 phys ++ more)

/-- The write loop over the new blocks of an extended chain.  The result is the block
that turned out to be worn, if any. -/
def extendBlocksFrom (newBlocks : List ℕ) (tailAddr nOld : ℕ) :
    List ℕ → ℕ → List Byte → FsM (Option ℕ)
  | [], _, _ => pure none
  | block :: todo, i, content => do
      let pointers ← extendPointers g newBlocks tailAddr nOld i
        (List.range (Ctz.skipPointersInBlock i))
      let capacity := g.blockSize - 4 * Ctz.skipPointersInBlock i
      if ← eraseAndProgramBytes block (pointers ++ content.take capacity) then
        hold [block]
        extendBlocksFrom newBlocks tailAddr nOld todo (i + 1) (content.drop capacity)
      else
        release newBlocks
        pure (some block)

/-- The allocate-and-write loop of `stream_ctz_extend`. -/
def extendChain (tailAddr nOld newCount : ℕ) (content : List Byte)
    (excludeChain : Option (ℕ × ℕ)) : ℕ → List ℕ → FsM (List ℕ)
  | left, excluded => do
      let newBlocks ← allocBlocks g false excluded excludeChain newCount
      match ← extendBlocksFrom g newBlocks tailAddr nOld newBlocks nOld content with
      | none => pure newBlocks
      | some bad =>
          match left with
          | 0 => throw .io
          | left + 1 => do
              invalidateAllocCache
              extendChain tailAddr nOld newCount content excludeChain left (excluded ++ [bad])

/-- The head of the extended chain: the tail when all of the data went into it, else
the last of `newCount` new blocks. -/
def appendBlocks (tailAddr oldSize newCount : ℕ) (content : List Byte) : FsM ℕ :=
  if content = [] then pure tailAddr
  else do
    let nOld := Ctz.blockCount oldSize g.blockSize
    let newBlocks ← extendChain g tailAddr nOld newCount content
      (if 0 < nOld then some (tailAddr, oldSize) else none) maxBadBlockRetries []
    pure (newBlocks.getD (newCount - 1) noBlock)

/-- The deferred fill of `stream_ctz_extend`, into the tail as it was. -/
def fillTail (head : ℕ) : Option (ℕ × List Byte) → FsM Unit
  | some (off, fill) => do
      let report ← programBytes head off fill
      if report == .verified then pure () else throw .io
  | none => pure ()

/-- `stream_ctz_extend`: the new head and size of a chain with `data` appended. -/
def streamCtzExtend (head oldSize : ℕ) (data : List Byte) : FsM (ℕ × ℕ) := do
  let nOld := Ctz.blockCount oldSize g.blockSize
  let newTotal := oldSize + data.length
  let newN := Ctz.blockCount newTotal g.blockSize
  if maxCtzWriteBlocks < nOld then throw .outOfRange
  else if maxCtzWriteBlocks < newN then throw .outOfRange
  else
    let _ ← lift (if 0 < nOld then Ctz.requireInBounds g head else .ok head)
    noteResume head oldSize
    let (tailAddr, deferredFill, consumed) ← planTail g head oldSize data
    let newHead ← appendBlocks g tailAddr oldSize (newN - nOld) (data.drop consumed)
    fillTail head deferredFill
    holdChain newHead newTotal
    pure (newHead, newTotal)

/-! ## Shrinking a chain -/

/-- The relocation loop of `shrink_ctz_head`. -/
def shrinkTail (oldTail keep : ℕ) : ℕ → List ℕ → FsM ℕ
  | left, excluded => do
      let blocks ← allocBlocks g false excluded none 1
      let candidate := blocks.getD 0 noBlock
      let old ← query fun d => d.read oldTail
      if ← eraseAndProgramBytes candidate (old.slice 0 keep) then
        hold [candidate]
        pure candidate
      else
        match left with
        | 0 => throw .io
        | left + 1 => do
            invalidateAllocCache
            shrinkTail oldTail keep left (excluded ++ [candidate])

/-- `shrink_ctz_head`: the head of a chain cut down to `newSize` bytes. -/
def shrinkCtzHead (head oldSize newSize : ℕ) : FsM ℕ := do
  let nOld := Ctz.blockCount oldSize g.blockSize
  if Ctz.maxCtzBlocks < nOld then throw .outOfRange
  else
    noteResume head oldSize
    let chain ← query fun d => Ctz.collectChainBlocks g d head nOld nOld
    let (tailIdx, absOff) := Ctz.blockIndexAtOffset (newSize - 1) g.blockSize
    let header := 4 * Ctz.skipPointersInBlock tailIdx
    let tailCap := Ctz.contentBytesInBlock tailIdx g.blockSize
    let bytesUsed := absOff + 1 - header
    let oldTail := chain.getD tailIdx noBlock
    if bytesUsed = tailCap then
      release (chain.drop (tailIdx + 1))
      holdChain oldTail newSize
      pure oldTail
    else
      let newTail ← shrinkTail g oldTail (header + bytesUsed) maxBadBlockRetries chain
      release (chain.drop tailIdx)
      holdChain newTail newSize
      pure newTail

/-- `commit_update_ctz`. -/
def commitUpdateCtz (depth : ℕ) (pair : BlockPair) (id head size : ℕ) : FsM Unit :=
  applyOpToPairInner g depth
    { pair := pair, op := .updateCtz id head size, inflight := ⟨[], some (head, size)⟩ }

end LittlefsPure
