import LittlefsPure.Disk.Device

/-!
# CTZ skip lists

`ctz.rs`: file content too long for a metadata block lies in a chain of blocks,
each of which begins with pointers to earlier ones.  The index arithmetic and the
three traversals of the source are here; `walk_ctz_chain`, which marks a chain in
a bitmap, is in `Disk.Alloc`.

## Why the functions are over the natural numbers

The source computes in `u32` without checks.  Here the same expressions stand over the natural
numbers, and `Chain.Exact` and `Chain.Sizes` relate them to the words: where no operation of the
source wraps, both compute the same.  The conditions on which that holds are part of the results
that use them, so they are stated there and not in the definitions.
-/

namespace LittlefsPure
namespace Ctz

/-- The number of trailing zero bits, for a positive number. -/
def trailingZeros : ℕ → ℕ → ℕ
  | 0, _ => 0
  | fuel + 1, n => if n % 2 = 1 then 0 else trailingZeros fuel (n / 2) + 1

/-- `skip_pointers_in_block`. -/
def skipPointersInBlock (index : ℕ) : ℕ :=
  if index = 0 then 0 else trailingZeros 32 index + 1

/-- `content_bytes_in_block`. -/
def contentBytesInBlock (index blockSize : ℕ) : ℕ := blockSize - 4 * skipPointersInBlock index

/-- `popcount`. -/
def popcount : ℕ → ℕ → ℕ
  | 0, _ => 0
  | fuel + 1, n => n % 2 + popcount fuel (n / 2)

/-- `block_index_at_offset`. -/
def blockIndexAtOffset (offset blockSize : ℕ) : ℕ × ℕ :=
  let b := blockSize - 2 * 4
  let i := offset / b
  if i = 0 then (0, offset)
  else
    let i := (offset - 4 * (popcount 32 (i - 1) + 2)) / b
    (i, offset - b * i - 4 * popcount 32 i)

/-- `block_count`. -/
def blockCount (size blockSize : ℕ) : ℕ :=
  if size = 0 then 0 else (blockIndexAtOffset (size - 1) blockSize).1 + 1

/-- `MAX_CTZ_BLOCKS`. -/
def maxCtzBlocks : ℕ := 256

/-- `require_in_bounds`. -/
def requireInBounds (g : Geometry) (b : ℕ) : Except Error ℕ :=
  if b < g.blockCount then .ok b else .error .corrupt

/-- The loop of `collect_chain_blocks_buffered` from the block `head` at `index` down:
the blocks of indices `0 .. index`, in order. -/
def collectFrom (g : Geometry) (d : Device) : ℕ → ℕ → ℕ → Except Error (List ℕ)
  | 0, _, _ => .error .corrupt
  | fuel + 1, head, index => do
      let head ← requireInBounds g head
      if index = 0 then pure [head]
      else
        let b ← d.read head
        if index % 2 = 0 then
          let ptr0 ← requireInBounds g (b.word 0)
          let rest ← collectFrom g d fuel (b.word 1) (index - 2)
          pure (rest ++ [ptr0, head])
        else
          let rest ← collectFrom g d fuel (b.word 0) (index - 1)
          pure (rest ++ [head])

/-- `collect_chain_blocks_buffered` with an output of `capacity` blocks. -/
def collectChainBlocks (g : Geometry) (d : Device) (head totalBlocks capacity : ℕ) :
    Except Error (List ℕ) :=
  if totalBlocks = 0 then .ok []
  else if capacity < totalBlocks then .error .outOfRange
  else collectFrom g d totalBlocks head (totalBlocks - 1)

/-- The loop of `seek_block_buffered`. -/
def seekFrom (g : Geometry) (d : Device) (target : ℕ) : ℕ → ℕ → ℕ → Except Error ℕ
  | 0, cur, _ => .ok cur
  | fuel + 1, cur, idx =>
      if target < idx then do
        let k := min (Nat.log2 (idx - target)) (trailingZeros 32 idx)
        let b ← d.read cur
        let cur ← requireInBounds g (b.word k)
        seekFrom g d target fuel cur (idx - 2 ^ k)
      else .ok cur

/-- `seek_block_buffered`. -/
def seekBlock (g : Geometry) (d : Device) (head fromIndex targetIndex : ℕ) : Except Error ℕ :=
  if fromIndex < targetIndex then .error .outOfRange
  else do
    let cur ← requireInBounds g head
    seekFrom g d targetIndex fromIndex cur fromIndex

/-- The forward read of `read_ctz_at`: from block `i`, whose content starts at
logical offset `logicalOff`, the `want` bytes that follow `startOff`. -/
def readBlocks (g : Geometry) (d : Device) (startOff : ℕ) :
    List ℕ → ℕ → ℕ → ℕ → Except Error (List Byte)
  | [], _, _, _ => .ok []
  | blk :: rest, i, logicalOff, want =>
      if want = 0 then .ok []
      else
        let header := 4 * skipPointersInBlock i
        let contentMax := g.blockSize - header
        let logicalEnd := logicalOff + contentMax
        if logicalEnd ≤ startOff then readBlocks g d startOff rest (i + 1) logicalEnd want
        else do
          let skip := startOff - logicalOff
          let take := min (contentMax - skip) want
          let b ← d.read blk
          let more ← readBlocks g d startOff rest (i + 1) logicalEnd (want - take)
          pure (b.slice (header + skip) take ++ more)

/-- `read_ctz_at`: up to `outLen` bytes of a chain from `startOff` on. -/
def readCtzAt (g : Geometry) (d : Device) (head size startOff outLen : ℕ) :
    Except Error (List Byte) :=
  if g.blockSize < Geometry.blockSizeMin then .error .geometryMismatch
  else if size = 0 ∨ outLen = 0 ∨ size ≤ startOff then .ok []
  else
    let totalBlocks := blockCount size g.blockSize
    if maxCtzBlocks < totalBlocks then .error .outOfRange
    else do
      let blocks ← collectChainBlocks g d head totalBlocks maxCtzBlocks
      let stop := min size (startOff + outLen)
      readBlocks g d startOff blocks 0 0 (stop - startOff)

end Ctz
end LittlefsPure
