import LittlefsPure.Fs.Walk
import LittlefsPure.Logic.Except

/-!
# The commit engine

`apply_op_to_pair_inner` and what it calls.  A commit is appended to the active
block of its pair when there is room; otherwise the pair is rebuilt.  A rebuild
may split the pair, write it to its alternate block, or move it to a fresh block,
and a pair that moved is announced to its parent and to its predecessor in the
thread, which are commits again.

The source's functions call each other in a cycle.  Here the three functions that
issue further commits take the commit function as their first argument, and
`applyOpToPairInner` closes the cycle with a bound on the depth.  The buffers of
the source are not modelled: a function that reads a log gets the log.
-/

namespace LittlefsPure

open FsM Logic

/-- `MAX_BAD_BLOCK_RETRIES`. -/
def maxBadBlockRetries : ℕ := 8

/-- A function that performs commits. -/
abbrev CommitFn := CommitRequest → FsM Unit

/-- What a commit reads of its pair before it writes. -/
structure PairView where
  pairAddr : BlockPair
  activeAddr : ℕ
  alternateAddr : ℕ
  /-- The active log. -/
  log : MetadataLog
  slots : Roster Slot

/-- A rebuild: the entries to write, the state deltas and the tail they go with. -/
structure Rebuild where
  /-- Where the attributes are read from. -/
  source : MetadataLog
  slots : Roster Slot
  op : WriteOp
  newRevision : ℕ
  moveState : Option MoveBody
  relocateState : Option RelocateBody
  tail : Option TailLink

/-- The number of entries a rebuild distributes. -/
def Rebuild.total (r : Rebuild) : ℕ := r.slots.count + if r.op.opAddsEntry then 1 else 0

/-- Replace one half of a pair. -/
def BlockPair.replace (p : BlockPair) (victim fresh : ℕ) : BlockPair :=
  ⟨if p.a = victim then fresh else p.a, if p.b = victim then fresh else p.b⟩

/-- Fold a delta into a state; a sum of zero is no state. -/
def foldState (zero : List ℕ) (state delta : Option (List ℕ)) : Option (List ℕ) :=
  match state, delta with
  | none, none => none
  | some a, none => some a
  | none, some b => some b
  | some a, some b => if xorWords a b = zero then none else some (xorWords a b)

variable (g : Geometry)

/-- `build_compact_commit` for the entries of a rebuild in `[lo, hi)`. -/
def Rebuild.build (r : Rebuild) (lo hi : ℕ) : Except Error MetadataLog :=
  buildCompactCommit g r.source r.newRevision r.slots r.op lo hi r.moveState r.relocateState r.tail

/-- A rebuild is the closed commit of the tags of its range, its state and its tail. -/
theorem Rebuild.build_eq_ok {g : Geometry} {r : Rebuild} {lo hi : ℕ} {l : MetadataLog}
    (h : r.build g lo hi = .ok l) :
    ∃ tags ts c fcrc, emitCompactRange r.source r.slots r.op lo hi = .ok tags ∧
      ts = tags ++ (moveStateTags r.moveState ++
        (relocateStateTags r.relocateState ++ rebuiltTailTags r.tail)) ∧
      Commit.finishPadded g ⟨4 + tagsSize ts, ts⟩ = .ok (c, fcrc) ∧
      l = ⟨r.newRevision, c.tags, fcrc⟩ := by
  obtain ⟨tags, htags, h⟩ := bind_eq_ok.1 h
  obtain ⟨c₁, hc₁, h⟩ := bind_eq_ok.1 h
  obtain ⟨⟨c₂, fcrc⟩, hc₂, h⟩ := bind_eq_ok.1 h
  cases h
  obtain ⟨rfl, -⟩ := Commit.addTags_eq_ok hc₁
  simp only [Commit.new, List.nil_append, List.append_assoc] at hc₂
  exact ⟨tags, _, c₂, fcrc, htags, rfl, hc₂, rfl⟩

/-- Build a range and record that it is about to be written. -/
def buildRange (r : Rebuild) (lo hi : ℕ) : FsM MetadataLog := do
  let l ← lift (r.build g lo hi)
  note (.rebuild r.source r.slots r.op lo hi)
  pure l

/-- A list of excluded blocks in an array of `capacity` slots. -/
def fitExcluded (capacity : ℕ) (blocks : List ℕ) : FsM Unit :=
  if capacity < blocks.length then throw .outOfRange else pure ()

/-! ## Relocation to a fresh block -/

/-- The capacity of the excluded set of `relocate_compact_to_fresh`. -/
def relocateExcludedCap : ℕ := 2 + 2 + maxQueuedPairs + 2 * maxSplitCuts + 2 * maxBadBlockRetries

/-- The block an attempt uses: the one handed in on the first, else a new one. -/
def freshOrSeed (seed : Option ℕ) (excluded : List ℕ) (chain : Option (ℕ × ℕ)) : FsM ℕ :=
  match seed with
  | some s => pure s
  | none => allocOneBlock g excluded chain

/-- The retry loop of `relocate_compact_to_fresh`; `left` attempts remain. -/
def relocateLoop (pairAddr : BlockPair) (victim : ℕ) (r : Rebuild) (lo hi : ℕ)
    (chain : Option (ℕ × ℕ)) : ℕ → List ℕ → Option ℕ → FsM BlockPair
  | 0, _, _ => throw .io
  | left + 1, excluded, seed => do
      let fresh ← freshOrSeed g seed excluded chain
      let newPair := pairAddr.replace victim fresh
      let r' := { r with
        relocateState :=
          foldState zeroRelocate r.relocateState (some (buildRelocateBody pairAddr newPair)) }
      let l ← buildRange g r' lo hi
      let ok ← eraseAndProgramLog fresh l
      invalidateAllocCache
      if ok then do
        hold [fresh]
        pure newPair
      else if left = 0 ∨ relocateExcludedCap ≤ excluded.length then throw .io
      else relocateLoop pairAddr victim r lo hi chain left (excluded ++ [fresh]) none

/-- `relocate_compact_to_fresh`. -/
def relocateCompactToFresh (pairAddr : BlockPair) (victim : ℕ) (r : Rebuild) (lo hi : ℕ)
    (inflight : Inflight) (seedFresh : Option ℕ) : FsM BlockPair := do
  let excluded := [pairAddr.a, pairAddr.b] ++ inflight.blocks
  fitExcluded relocateExcludedCap excluded
  relocateLoop g pairAddr victim r lo hi inflight.chain maxBadBlockRetries excluded seedFresh

/-! ## Splitting -/

/-- The capacity of the excluded set of `split_directory_pair`. -/
def splitExcludedCap : ℕ := 2 + maxQueuedPairs + 2 * maxSplitCuts + maxBadBlockRetries + 1

/-- Write a continuation on its first block and erase the second.  The result is the
block that turned out to be worn, if any. -/
def tryContinuation (ca cb : ℕ) (l : MetadataLog) : FsM (Option ℕ) := do
  if ← eraseAndProgramLog ca l then
    hold [ca]
    if ← eraseBlock cb then
      hold [cb]
      pure none
    else
      release [ca]
      pure (some cb)
  else pure (some ca)

/-- `program_split_continuation`: allocate and write one continuation.  The result is
the pair, the excluded set with the worn candidates met, and the attempts that
remain. -/
def programSplitContinuation (r : Rebuild) (lo hi : ℕ) (chain : Option (ℕ × ℕ)) :
    ℕ → List ℕ → FsM (BlockPair × List ℕ × ℕ)
  | 0, _ => throw .io
  | left + 1, excluded => do
      let ca ← allocOneBlock g excluded chain
      if splitExcludedCap ≤ excluded.length then throw .outOfRange
      else
        let cb ← allocOneBlock g (excluded ++ [ca]) chain
        let l ← buildRange g { r with newRevision := 1, moveState := none, relocateState := none }
          lo hi
        match ← tryContinuation ca cb l with
        | none => pure (⟨ca, cb⟩, excluded, left + 1)
        | some bad =>
            invalidateAllocCache
            if left = 0 ∨ splitExcludedCap ≤ excluded.length + 1 then throw .io
            else programSplitContinuation r lo hi chain left (excluded ++ [bad])

/-- The cut loop of `split_directory_pair`; at most `cuts` more cuts follow.  The
result is the first continuation of the chain, the end of the lower half, and the
excluded set. -/
def cutLoop (r : Rebuild) (chain : Option (ℕ × ℕ)) :
    ℕ → ℕ → ℕ → ℕ → List ℕ → FsM (BlockPair × ℕ × List ℕ)
  | 0, _, _, _, _ => throw .outOfRange
  | cuts + 1, cut, stop, left, excluded => do
      let (cont, excluded, left) ← programSplitContinuation g r cut stop chain left excluded
      if splitExcludedCap < excluded.length + 2 then throw .outOfRange
      else
        let excluded := excluded ++ [cont.a, cont.b]
        if cuts = 0 then pure (cont, cut, excluded)
        else
          let next ← lift (computeSplitIndex g r.source r.slots r.op 0 cut)
          if next = 0 then pure (cont, cut, excluded)
          else cutLoop { r with tail := some (cont, true) } chain cuts next cut left excluded

/-- `finish_split_lower_half`. -/
def finishSplitLowerHalf (v : PairView) (r : Rebuild) (split : ℕ) (cont : BlockPair)
    (excludedConts : List ℕ) (chain : Option (ℕ × ℕ)) : FsM (Option BlockPair) := do
  let r := { r with tail := some (cont, true) }
  let l ← buildRange g r 0 split
  if ← eraseAndProgramLog v.alternateAddr l then
    settle
    invalidateAllocCache
    pure none
  else
    let s ← get
    if v.pairAddr = s.root then throw .io
    else
      let newPair ← relocateCompactToFresh g v.pairAddr v.alternateAddr r 0 split
        ⟨excludedConts, chain⟩ none
      -- the caller goes on with the blocks it handed in, not with the continuations
      expose excludedConts
      invalidateAllocCache
      pure (some newPair)

/-- `split_directory_pair`. -/
def splitDirectoryPair (v : PairView) (r : Rebuild) (split maxCuts : ℕ) (inflight : Inflight) :
    FsM (Option BlockPair) := do
  let excluded := [v.activeAddr, v.alternateAddr] ++ inflight.blocks
  fitExcluded splitExcludedCap excluded
  let (cont, stop, excluded) ←
    cutLoop g r inflight.chain maxCuts split r.total maxBadBlockRetries excluded
  finishSplitLowerHalf g v r stop cont excluded inflight.chain

/-! ## Compaction -/

/-- The number of free blocks a scan leaves. -/
def freeCount (used : Bitmap) : ℕ :=
  ((List.range g.blockCount).filter fun b => !used.isSet b).length

/-- How many cuts `compact_and_program` allows a split, zero for none: the reachable
pairs bound them, and for the root also the free blocks. -/
def splitBudget (pairAddr : BlockPair) : FsM ℕ := do
  let s ← get
  let tree ← query fun d => collectLiveTreePairs g d s.root
  if maxQueuedPairs ≤ tree.length then pure 0
  else
    let maxCuts := min maxSplitCuts (maxQueuedPairs - tree.length)
    if pairAddr = s.root then
      let used ← query fun d => Alloc.scanUsedBlocks g d s.root .empty
      let free := freeCount g used
      let floor := g.blockCount / 8
      if free ≤ floor then pure 0 else pure (min maxCuts ((free - floor + 1) / 2))
    else pure maxCuts

/-- The capacity of the excluded set of `compact_and_program`. -/
def compactExcludedCap : ℕ := 2 + maxQueuedPairs

/-- The fresh block of a pair that is due to relocate, with the pair's new address. -/
def relocationTarget (v : PairView) (newRevision : ℕ) (inflight : Inflight) :
    FsM (Option (ℕ × BlockPair)) := do
  let s ← get
  if shouldRelocate v.pairAddr s.root newRevision g.blockCycles then
    let excluded := [v.activeAddr, v.alternateAddr] ++ inflight.blocks
    fitExcluded compactExcludedCap excluded
    let f ← allocOneBlock g excluded inflight.chain
    pure (some (f, v.pairAddr.replace v.alternateAddr f))
  else pure none

/-- The single-block part of `compact_and_program`: write the alternate, and the
fresh block too when the pair is due to relocate. -/
def compactSingle (commit : CommitFn) (v : PairView) (r : Rebuild) (inflight : Inflight) :
    FsM (Option BlockPair) := do
  let s ← get
  let fresh ← relocationTarget g v r.newRevision inflight
  let body := fresh.map fun f => buildRelocateBody v.pairAddr f.2
  let l ← buildRange g
    { r with relocateState := foldState zeroRelocate r.relocateState body } 0 r.total
  if ← eraseAndProgramLog v.alternateAddr l then
    settle
    match fresh with
    | none => pure none
    | some (f, newPair) =>
        if ← eraseAndProgramLog f l then
          hold [f]
          pure (some newPair)
        else
          commit { pair := v.pairAddr, extraRelocate := body, inflight := inflight }
          pure none
  else if v.pairAddr = s.root then throw .io
  else
    let newPair ← relocateCompactToFresh g v.pairAddr v.alternateAddr r 0 r.total inflight
      (fresh.map Prod.fst)
    pure (some newPair)

/-- `compact_and_program`.  `forcedVictim` tells that an append on the active block
failed. -/
def compactAndProgram (commit : CommitFn) (v : PairView) (r : Rebuild) (inflight : Inflight)
    (forcedVictim : Bool) : FsM (Option BlockPair) := do
  let s ← get
  if forcedVictim then
    if v.pairAddr = s.root then throw .io
    else
      let newPair ←
        relocateCompactToFresh g v.pairAddr v.activeAddr r 0 r.total inflight none
      pure (some newPair)
  else
    let split ← lift (computeSplitIndex g r.source r.slots r.op 0 r.total)
    let maxCuts ← (if 0 < split then splitBudget g v.pairAddr else pure 0)
    if 0 < maxCuts then
      match ← attempt (splitDirectoryPair g v r split maxCuts inflight) with
      | .ok moved => pure moved
      | .error .outOfRange =>
          account fun _ => s.unpublished
          compactSingle g commit v r inflight
      | .error e => throw e
    else compactSingle g commit v r inflight

/-! ## Announcing a move -/

/-- Follow a pair that moved in the coordinates of the pending rename. -/
def remapPendingMove (oldPair newPair : BlockPair) : FsM Unit :=
  modify fun s =>
    match s.pendingMove with
    | some pm => if pm.curPair = oldPair then
        { s with pendingMove := some { pm with curPair := newPair } } else s
    | none => s

/-- `propagate_relocation`. -/
def propagateRelocation (commit : CommitFn) (oldPair newPair : BlockPair) (inflight : Inflight) :
    FsM Unit := do
  let s ← get
  if oldPair = s.root then pure ()
  else
    remapPendingMove oldPair newPair
    let body := buildRelocateBody oldPair newPair
    let fresh := if oldPair.a = newPair.a then newPair.b else newPair.a
    let nextInflight : Inflight := ⟨inflight.blocks ++ [fresh], inflight.chain⟩
    fitExcluded maxQueuedPairs nextInflight.blocks
    let pred ← query fun d => findThreadPredecessor g d s.root oldPair
    let parent ← query fun d => findParentInTree g d s.root oldPair
    match parent with
    | some (parentPair, parentId) =>
        let parentTail : Option TailLink :=
          match pred with
          | some (p, hard) => if p = parentPair then some (newPair, hard) else none
          | none => none
        commit { pair := parentPair, op := .updateDirStruct parentId newPair,
                 extraRelocate := some body, newTail := parentTail, inflight := nextInflight }
        match pred with
        | some (p, hard) =>
            if p = parentPair then pure ()
            else commit { pair := p, newTail := some (newPair, hard) }
        | none => pure ()
    | none =>
        match pred with
        | some (p, hard) =>
            commit { pair := p, extraRelocate := some body, newTail := some (newPair, hard),
                     inflight := nextInflight }
        | none => throw .corrupt

/-! ## The commit -/

/-- The test `can_append`. -/
def canAppend (l : MetadataLog) (r : CommitRequest) : Bool :=
  let dsize := r.op.opDsizeOf + (if r.extraMove.isSome then 4 + 12 else 0) +
    (if r.extraRelocate.isSome then 4 + 16 else 0) + if r.newTail.isSome then 4 + 8 else 0
  let clearTail := match r.newTail with
    | some (p, _) => p.isNull
    | none => false
  l.erased && decide (l.committedEnd % g.progSize = 0) &&
    decide (l.committedEnd + dsize ≤ g.blockSize) && !clearTail

/-- The tags an in-place append writes before the closing checksum.  The state tags
carry the pair's new totals. -/
def appendTags (l : MetadataLog) (r : CommitRequest) : List TagEntry :=
  r.op.emitOp ++
    (r.extraMove.toList.map fun extra =>
      ⟨.moveState, idNone, .words (xorWords (scanPairMoveState l) extra)⟩) ++
    (r.extraRelocate.toList.map fun extra =>
      ⟨.relocateState, idNone, .words (xorWords (scanPairRelocateState l) extra)⟩) ++
    (r.newTail.toList.map tailTag)

/-- The log with the appended commit. -/
def buildAppend (l : MetadataLog) (r : CommitRequest) : Except Error MetadataLog := do
  let c ← Commit.newAppending g.blockSize l.committedEnd
  let c ← c.addTags g.blockSize (appendTags l r)
  let (c, fcrc) ← c.finishPadded g
  pure ⟨l.revision, l.tags ++ c.tags, fcrc⟩

/-- An append puts the closed commit of the tags of its request behind the log. -/
theorem buildAppend_eq_ok {g : Geometry} {l l' : MetadataLog} {r : CommitRequest}
    (h : buildAppend g l r = .ok l') :
    ∃ c fcrc,
      Commit.finishPadded g ⟨l.committedEnd + tagsSize (appendTags l r), appendTags l r⟩ =
        .ok (c, fcrc) ∧
      l' = ⟨l.revision, l.tags ++ c.tags, fcrc⟩ := by
  obtain ⟨c₀, hc₀, h⟩ := bind_eq_ok.1 h
  obtain ⟨c₁, hc₁, h⟩ := bind_eq_ok.1 h
  obtain ⟨⟨c₂, fcrc⟩, hc₂, h⟩ := bind_eq_ok.1 h
  cases h
  obtain ⟨rfl, -⟩ := Commit.addTags_eq_ok hc₁
  unfold Commit.newAppending at hc₀
  split_ifs at hc₀
  cases hc₀
  exact ⟨c₂, fcrc, hc₂, rfl⟩

/-- The rebuild a commit falls back to when it is not appended. -/
def rebuildOf (v : PairView) (source : MetadataLog) (r : CommitRequest) : Rebuild :=
  let net (zero existing : List ℕ) (extra : Option (List ℕ)) : Option (List ℕ) :=
    let sum := match extra with
      | some e => xorWords existing e
      | none => existing
    if sum = zero then none else some sum
  { source := source
    slots := v.slots
    op := r.op
    newRevision := (v.log.revision + 1) % 2 ^ 32
    moveState := net zeroMove (scanPairMoveState v.log) r.extraMove
    relocateState := net zeroRelocate (scanPairRelocateState v.log) r.extraRelocate
    tail := r.newTail.or v.log.tailLink }

/-- Try the in-place append.  The result tells whether it holds, and otherwise what
the active buffer is left with: the appended log when the device reported an error,
the device's own bytes when the read back differed. -/
def tryAppend (v : PairView) (r : CommitRequest) : FsM (Option MetadataLog) := do
  let l' ← lift (buildAppend g v.log r)
  note (.append v.log v.slots r.op)
  match ← programAppend v.activeAddr v.log l' with
  | .verified =>
      settle
      pure none
  | .failed => pure (some l')
  | .mismatch =>
      let s ← get
      pure (some ((s.device.get v.activeAddr).reader g))

/-- Rebuild a pair and announce the new address if it moved. -/
def rebuildPair (commit : CommitFn) (v : PairView) (source : MetadataLog) (r : CommitRequest)
    (forcedVictim : Bool) : FsM Unit := do
  let moved ← compactAndProgram g commit v (rebuildOf v source r) r.inflight forcedVictim
  match moved with
  | some newPair => propagateRelocation g commit v.pairAddr newPair r.inflight
  | none => pure ()

/-- The head of `apply_op_to_pair_inner`: fetch the pair and gather its slots. -/
def viewPair (p : BlockPair) : FsM PairView := do
  let pair ← fetchPair g p
  let slots ← lift (gatherLiveSlots pair.reader)
  pure ⟨p, pair.activeBlock, pair.alternateBlock, pair.reader, slots⟩

/-- One commit, with the function for the commits it causes. -/
def commitWith (commit : CommitFn) (r : CommitRequest) : FsM Unit := do
  let s ← get
  note (.commit s.device s.root r s.unpublished)
  let v ← viewPair g r.pair
  if canAppend g v.log r then
    match ← tryAppend g v r with
    | none => pure ()
    | some source => rebuildPair g commit v source r true
  else rebuildPair g commit v v.log r false

/-- `apply_op_to_pair_inner`, to a depth of nested commits. -/
def applyOpToPairInner : ℕ → CommitFn
  | 0, _ => throw .recursionLimit
  | depth + 1, r => commitWith g (applyOpToPairInner depth) r

/-- `apply_op_to_pair`. -/
def applyOpToPair (depth : ℕ) (pair : BlockPair) (op : WriteOp) : FsM Unit :=
  applyOpToPairInner g depth { pair := pair, op := op }

/-- `apply_op_to_pair_with_movestate`. -/
def applyOpToPairWithMovestate (depth : ℕ) (pair : BlockPair) (op : WriteOp)
    (extraMove : Option MoveBody) : FsM Unit :=
  applyOpToPairInner g depth { pair := pair, op := op, extraMove := extraMove }

end LittlefsPure
