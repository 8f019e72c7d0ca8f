import LittlefsPure.Disk.Ctz
import LittlefsPure.Disk.Dir

/-!
# The block allocator

`alloc.rs`.  A block is handed out when a walk over everything the root reaches
has not marked it.  There are two walks.  `scanUsedBlocks` follows the live
entries and the live tail of each pair.  `scanUsedWithSingleBuf`, which has one
block buffer instead of two, cannot tell which half of a pair is active and
follows every tag of both halves, deleted and superseded ones included.

Both walks use the bitmap they fill as their visited set: a pair whose two blocks
are already marked is not queued.

## Why both walks are modelled as they are

The two walks differ in what they follow and agree in how they search, so the search is one
loop, `scanLoop`, with the visit of a pair as a parameter.  What a visit marks and which pairs it
queues is then the whole difference, and `Scan` proves what the search does for any visit.

The bitmap has `MAX_TRACKED_BLOCKS` bits, and a block beyond that reads as marked.  So the
allocator never hands out such a block, and the scan refuses a pair or a chain that has one.
-/

namespace LittlefsPure

/-- `MAX_TRACKED_BLOCKS`. -/
def maxTrackedBlocks : ℕ := 4096

/-- `MAX_QUEUED_PAIRS`. -/
def maxQueuedPairs : ℕ := 32

/-- `Bitmap`, as the list of the blocks whose bit is set. -/
structure Bitmap where
  marked : List ℕ
  deriving DecidableEq, Repr

namespace Bitmap

/-- `Bitmap::EMPTY`. -/
def empty : Bitmap := ⟨[]⟩

/-- `set`. -/
def set (m : Bitmap) (block : ℕ) : Except Error Bitmap :=
  if maxTrackedBlocks ≤ block then .error .outOfRange
  else .ok (if block ∈ m.marked then m else ⟨block :: m.marked⟩)

/-- `is_set`: a block past the cap reads as set. -/
def isSet (m : Bitmap) (block : ℕ) : Bool :=
  decide (maxTrackedBlocks ≤ block) || decide (block ∈ m.marked)

end Bitmap

namespace Alloc

/-- The loop of `walk_ctz_chain`, from the block `head` at `index` down. -/
def markChainFrom (g : Geometry) (d : Device) : ℕ → ℕ → ℕ → Bitmap → Except Error Bitmap
  | 0, _, _, _ => .error .corrupt
  | fuel + 1, head, index, used => do
      let head ← Ctz.requireInBounds g head
      let used ← used.set head
      if index = 0 then pure used
      else
        let b ← d.read head
        if index % 2 = 0 then
          let ptr0 ← Ctz.requireInBounds g (b.word 0)
          let used ← used.set ptr0
          markChainFrom g d fuel (b.word 1) (index - 2) used
        else markChainFrom g d fuel (b.word 0) (index - 1) used

/-- `walk_ctz_chain`. -/
def walkCtzChain (g : Geometry) (d : Device) (head size : ℕ) (used : Bitmap) :
    Except Error Bitmap :=
  if size = 0 then .ok used
  else
    let total := Ctz.blockCount size g.blockSize
    if g.blockCount < total then .error .corrupt
    else markChainFrom g d total head (total - 1) used

/-- Collect a child pair, unless both its blocks are marked or it is collected
already. -/
def collectChild (g : Geometry) (used : Bitmap) (children : List BlockPair) (child : BlockPair) :
    Except Error (List BlockPair) :=
  if !g.pairInBounds child then .error .corrupt
  else if (!used.isSet child.a || !used.isSet child.b) && !containsPair children child then
    if maxQueuedPairs ≤ children.length then .error .outOfRange
    else .ok (children ++ [child])
  else .ok children

/-- Queue the children of a pair.  `pending` are the queued pairs not yet visited,
`tail` the number of queue slots in use. -/
def enqueueChildren : List BlockPair → List BlockPair → ℕ → Except Error (List BlockPair × ℕ)
  | [], pending, tail => .ok (pending, tail)
  | child :: rest, pending, tail =>
      if containsPair pending child then enqueueChildren rest pending tail
      else if maxQueuedPairs ≤ tail then .error .outOfRange
      else enqueueChildren rest (pending ++ [child]) (tail + 1)

/-! ## The plain scan -/

/-- The live entries of a pair: chains are marked, child pairs collected. -/
def markLiveStructs (g : Geometry) (d : Device) :
    List LiveStruct → Bitmap → List BlockPair → Except Error (Bitmap × List BlockPair)
  | [], used, children => .ok (used, children)
  | .none :: rest, used, children => markLiveStructs g d rest used children
  | .ctz head size :: rest, used, children => do
      let used ← walkCtzChain g d head size used
      markLiveStructs g d rest used children
  | .dir child :: rest, used, children => do
      let children ← collectChild g used children child
      markLiveStructs g d rest used children

/-- One pair of the plain scan: its blocks marked, its children collected. -/
def scanPair (g : Geometry) (d : Device) (pair : BlockPair) (used : Bitmap) :
    Except Error (Bitmap × List BlockPair) := do
  let used ← used.set pair.a
  let used ← used.set pair.b
  let (a, b) ← d.readers g pair
  let parsed ← MetadataPair.parse pair a b
  let live ← gatherLiveStructs parsed.reader
  let (used, children) ← markLiveStructs g d live.live used []
  let children ← match parsed.reader.tail with
    | some t => collectChild g used children t
    | none => pure children
  pure (used, children)

/-- The breadth first loop both scans share: `visit` handles one pair. -/
def scanLoop (visit : BlockPair → Bitmap → Except Error (Bitmap × List BlockPair)) :
    ℕ → List BlockPair → ℕ → Bitmap → Except Error Bitmap
  | _, [], _, used => .ok used
  | 0, _ :: _, _, _ => .error .outOfRange
  | fuel + 1, pair :: pending, tail, used => do
      let (used, children) ← visit pair used
      let (pending, tail) ← enqueueChildren children pending tail
      scanLoop visit fuel pending tail used

/-- `scan_used_blocks`. -/
def scanUsedBlocks (g : Geometry) (d : Device) (root : BlockPair) (used : Bitmap) :
    Except Error Bitmap :=
  scanLoop (scanPair g d) maxQueuedPairs [root] 1 used

/-! ## The single-buffer scan -/

/-- The raw tags of one half: child pairs and chains are collected. -/
def collectRawTags (g : Geometry) (used : Bitmap) :
    List TagEntry → List BlockPair → List (ℕ × ℕ) →
      Except Error (List BlockPair × List (ℕ × ℕ))
  | [], children, chains => .ok (children, chains)
  | t :: ts, children, chains =>
      match t.tagType with
      | .dirStruct =>
          if t.body.length = 8 then do
            let children ← collectChild g used children t.body.pair
            collectRawTags g used ts children chains
          else collectRawTags g used ts children chains
      | .hardTail | .softTail =>
          if t.body.length = 8 ∧ t.body.pair.isNull = false then do
            let children ← collectChild g used children t.body.pair
            collectRawTags g used ts children chains
          else collectRawTags g used ts children chains
      | .ctzStruct =>
          if t.body.length = 8 then
            if maxQueuedPairs ≤ chains.length then .error .outOfRange
            else collectRawTags g used ts children (chains ++ [(t.body.word 0, t.body.word 1)])
          else collectRawTags g used ts children chains
      | _ => collectRawTags g used ts children chains

/-- Mark a list of chains. -/
def markChains (g : Geometry) (d : Device) :
    List (ℕ × ℕ) → Bitmap → Except Error Bitmap
  | [], used => .ok used
  | (head, size) :: rest, used => do
      let used ← walkCtzChain g d head size used
      markChains g d rest used

/-- One pair of the single-buffer scan. -/
def scanPairRaw (g : Geometry) (d : Device) (pair : BlockPair) (used : Bitmap) :
    Except Error (Bitmap × List BlockPair) := do
  let used ← used.set pair.a
  let used ← used.set pair.b
  let (a, b) ← d.readers g pair
  let (children, chains) ← collectRawTags g used a.tags [] []
  let (children, chains) ← collectRawTags g used b.tags children chains
  let used ← markChains g d chains used
  pure (used, children)

/-- `scan_used_with_single_buf`. -/
def scanUsedWithSingleBuf (g : Geometry) (d : Device) (root : BlockPair) (used : Bitmap) :
    Except Error Bitmap :=
  scanLoop (scanPairRaw g d) maxQueuedPairs [root] 1 used

/-! ## Handing out blocks -/

/-- Mark the excluded blocks; the sentinel is skipped.  The second component tells
whether every block could be marked. -/
def markExcluded : List ℕ → Bitmap → Bitmap × Bool
  | [], used => (used, true)
  | x :: rest, used =>
      if x = noBlock then markExcluded rest used
      else
        match used.set x with
        | .ok used => markExcluded rest used
        | .error _ => (used, false)

/-- The search loop of `take_free_blocks`, from block `b` on: `todo` blocks of the
device are left to look at, `want` blocks still to find.  The bitmap keeps its new
marks also when the request cannot be served. -/
def takeFreeFrom : ℕ → ℕ → ℕ → Bitmap → Bitmap × Option (List ℕ)
  | _, _, 0, used => (used, some [])
  | 0, _, _ + 1, used => (used, none)
  | todo + 1, b, want + 1, used =>
      if used.isSet b then takeFreeFrom todo (b + 1) (want + 1) used
      else
        let (used, more) := takeFreeFrom todo (b + 1) want ⟨b :: used.marked⟩
        (used, more.map (b :: ·))

/-- `take_free_blocks`. -/
def takeFreeBlocks (used : Bitmap) (excluded : List ℕ) (want blockCount : ℕ) :
    Bitmap × Option (List ℕ) :=
  match markExcluded excluded used with
  | (used, true) => takeFreeFrom blockCount 0 want used
  | (used, false) => (used, none)

/-- The scan a cached allocation falls back to, with the in-flight chain marked. -/
def rescan (g : Geometry) (d : Device) (root : BlockPair) (singleBuf : Bool)
    (excludeChain : Option (ℕ × ℕ)) : Except Error Bitmap := do
  let fresh ←
    if singleBuf then scanUsedWithSingleBuf g d root .empty else scanUsedBlocks g d root .empty
  match excludeChain with
  | some (head, size) => walkCtzChain g d head size fresh
  | none => pure fresh

/-- Serve a request from a fresh scan; `cache` is what the cache stays at when that
fails. -/
def allocFresh (g : Geometry) (d : Device) (root : BlockPair) (singleBuf : Bool)
    (cache : Option Bitmap) (excluded : List ℕ) (excludeChain : Option (ℕ × ℕ)) (want : ℕ) :
    Option Bitmap × Except Error (List ℕ) :=
  match rescan g d root singleBuf excludeChain with
  | .error e => (cache, .error e)
  | .ok fresh =>
      match takeFreeBlocks fresh excluded want g.blockCount with
      | (fresh, some out) => (some fresh, .ok out)
      | (_, none) => (cache, .error .outOfRange)

/-- The body `alloc_blocks_cached` and `alloc_one_block_cached_single_buf` share:
serve the request from the cache, else rescan.  The first component is the new
cache. -/
def allocCached (g : Geometry) (d : Device) (root : BlockPair) (singleBuf : Bool)
    (cache : Option Bitmap) (excluded : List ℕ) (excludeChain : Option (ℕ × ℕ)) (want : ℕ) :
    Option Bitmap × Except Error (List ℕ) :=
  match cache with
  | some bm =>
      match takeFreeBlocks bm excluded want g.blockCount with
      | (bm, some out) => (some bm, .ok out)
      | (bm, none) => allocFresh g d root singleBuf (some bm) excluded excludeChain want
  | none => allocFresh g d root singleBuf none excluded excludeChain want

end Alloc
end LittlefsPure
