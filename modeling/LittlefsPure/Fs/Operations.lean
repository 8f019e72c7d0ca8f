import LittlefsPure.Fs.Content

/-!
# The public operations

The path level operations of `fs.rs`, format and mount with its recovery.

## Why the recovery is here

A mount does not only read.  It finishes a rename that was cut off between its two commits, tells
the parent of a pair that moved, and takes orphans off the thread; each of these is a commit like
any other, with the same faults.  An operation ends with the allocator's cache dropped wherever the
source drops it, as the next allocation depends on that.
-/

namespace LittlefsPure

open FsM Logic

variable (g : Geometry) (depth : ℕ)

/-- `INLINE_MAX`. -/
def inlineMax : ℕ := 128

/-- The name of an entry as a tag body. -/
def nameBody (name : List Byte) : Body := .bytes name

/-- A new entry's id, from the live count of its pair. -/
def newEntryId (count : ℕ) : Except Error ℕ :=
  if 0xFFFF < count ∨ count = idNone then .error .outOfRange else .ok count

/-- The live count of a pair. -/
def liveCount (d : Device) (p : BlockPair) : Except Error ℕ := do
  let pair ← d.fetch g p
  let slots ← gatherLiveSlots pair.reader
  pure slots.count

/-! ## Writing files -/

/-- `write_inline_to_pair`. -/
def writeInlineToPair (pair : BlockPair) (name content : List Byte) : FsM Unit :=
  if name = [] ∨ nameMax < name.length ∨ 0x3FF < content.length then throw .invalidPath
  else do
    match ← query fun d => seekEntryInChain g d pair (nameBody name) with
    | .found owner id kind =>
        if kind ≠ .regularFile then throw .alreadyExists
        else applyOpToPair g depth owner (.update id (.bytes content))
    | .absent lastPair count =>
        let id ← lift (newEntryId count)
        applyOpToPair g depth lastPair (.create id (nameBody name) (.bytes content) [])

/-- The pair a file of that name is written to, with the id of an existing entry. -/
def fileTarget (pair : BlockPair) (name : List Byte) : FsM (BlockPair × Option ℕ) := do
  match ← query fun d => seekEntryInChain g d pair (nameBody name) with
  | .found owner id kind =>
      if kind ≠ .regularFile then throw .alreadyExists else pure (owner, some id)
  | .absent lastPair _ => pure (lastPair, none)

/-- The operation that gives an entry a chain. -/
def ctzOp (existing : Option ℕ) (count : ℕ) (name : List Byte) (head size : ℕ) :
    Except Error WriteOp :=
  match existing with
  | some id => .ok (.updateCtz id head size)
  | none => (newEntryId count).map fun id => .createCtz id (nameBody name) head size []

/-- `write_ctz_to_pair`. -/
def writeCtzToPair (pair : BlockPair) (name content : List Byte) : FsM Unit :=
  if name = [] ∨ nameMax < name.length then throw .invalidPath
  else do
    let (target, existing) ← fileTarget g pair name
    let totalBlocks := Ctz.blockCount content.length g.blockSize
    if totalBlocks = 0 then writeInlineToPair g depth pair name content
    else if maxCtzWriteBlocks < totalBlocks then throw .outOfRange
    else
      let chain ← allocChain g content totalBlocks maxBadBlockRetries []
      let count ← query fun d => liveCount g d target
      let head := chain.getD (totalBlocks - 1) noBlock
      let op ← lift (ctzOp existing count name head content.length)
      applyOpToPairInner g depth
        { pair := target, op := op, inflight := ⟨[], some (head, content.length)⟩ }

/-- The choice of `write_to_root` and `write_to_path` by size. -/
def writeToPair (pair : BlockPair) (name content : List Byte) : FsM Unit :=
  if content.length ≤ inlineMax then writeInlineToPair g depth pair name content
  else writeCtzToPair g depth pair name content

/-- `write_to_root`. -/
def writeToRoot (name content : List Byte) : FsM Unit := do
  let s ← get
  writeToPair g depth s.root name content

/-- `resolve_parent` on the handle. -/
def parentOf (path : Path) : FsM (BlockPair × List Byte) := do
  let s ← get
  query fun d => resolveParent g d s.root path

/-- `write_to_path`. -/
def writeToPath (path : Path) (content : List Byte) : FsM Unit := do
  let (parent, leaf) ← parentOf g path
  writeToPair g depth parent leaf content

/-! ## Reading -/

/-- A file's layout. -/
inductive Layout where
  | inline (content : List Byte)
  | ctz (head size : ℕ)
  deriving DecidableEq, Repr

/-- The bytes of an inline struct body. -/
def Body.inlineBytes : Body → List Byte
  | .bytes bs => bs
  | .words ws => ws.flatMap le32
  | .removed => []
  | .checksum n => List.replicate n 0xFF

/-- The layout of a resolved file. -/
def fileLayout (kind : EntryKind) (structType : TagType) (body : Body) : Except Error Layout :=
  if kind ≠ .regularFile then .error .alreadyExists
  else
    match structType with
    | .inlineStruct => .ok (.inline body.inlineBytes)
    | .ctzStruct =>
        if body.length = 8 then .ok (.ctz (body.word 0) (body.word 1)) else .error .outOfRange
    | _ => .error .corrupt

/-- The layout of the file at a path. -/
def layoutAt (d : Device) (root : BlockPair) (path : Path) : Except Error Layout := do
  let r ← resolve g d root path
  fileLayout r.entry.kind r.structType r.structBody

/-- The content of a layout from `off` on, at most `len` bytes. -/
def readLayout (d : Device) (l : Layout) (off len : ℕ) : Except Error (List Byte) :=
  match l with
  | .inline content => .ok ((content.drop off).take len)
  | .ctz head size => Ctz.readCtzAt g d head size off len

/-- `read_at_path`. -/
def readAtPath (d : Device) (root : BlockPair) (path : Path) (off len : ℕ) :
    Except Error (List Byte) := do
  let l ← layoutAt g d root path
  readLayout g d l off len

/-- The size of a layout. -/
def Layout.size : Layout → ℕ
  | .inline content => content.length
  | .ctz _ size => size

/-- `size_of`. -/
def sizeOf (d : Device) (root : BlockPair) (path : Path) : Except Error ℕ := do
  let l ← layoutAt g d root path
  pure l.size

/-! ## Truncating and appending -/

/-- The size `truncate_path` starts from: a missing file counts as empty. -/
def currentSize (d : Device) (root : BlockPair) (path : Path) : Except Error ℕ :=
  match sizeOf g d root path with
  | .error .notFound => .ok 0
  | r => r

/-- `truncate_path`, with a scratch buffer of `scratch` bytes. -/
def truncatePath (path : Path) (newSize scratch : ℕ) : FsM Unit := do
  invalidateAllocCache
  if scratch < newSize then throw .outOfRange
  else
    let s ← get
    let current ← query fun d => currentSize g d s.root path
    let copyLen := min newSize current
    let kept ← query fun d =>
      if 0 < copyLen then readAtPath g d s.root path 0 copyLen else .ok []
    writeToPath g depth path
      ((kept ++ List.replicate (copyLen - kept.length) 0) ++ List.replicate (newSize - current) 0)

/-- The pair of a chain that holds a name, or the last one when none does. -/
def ownerOf (d : Device) (parent : BlockPair) (name : List Byte) : Except Error BlockPair :=
  (seekEntryInChain g d parent (nameBody name)).map fun
    | .found pair _ _ => pair
    | .absent lastPair _ => lastPair

/-- The existing file `append_to_path` finds, with its id. -/
def appendLayout (d : Device) (owner : BlockPair) (name : List Byte) :
    Except Error (Option (Layout × ℕ)) := do
  let pair ← d.fetch g owner
  match ← lookupChecked pair.reader (nameBody name) with
  | none => pure none
  | some r => do
      let l ← fileLayout r.entry.kind r.structType r.structBody
      pure (some (l, r.entry.id))

/-- `append_to_path`, with a scratch buffer of `scratch` bytes. -/
def appendToPath (path : Path) (additional : List Byte) (scratch : ℕ) : FsM Unit :=
  if additional = [] then pure ()
  else do
    let (parent, leaf) ← parentOf g path
    let owner ← query fun d => ownerOf g d parent leaf
    match ← query fun d => appendLayout g d owner leaf with
    | none => writeToPath g depth path additional
    | some (.inline content, _) =>
        if 256 < content.length then throw .outOfRange
        else if scratch < content.length + additional.length then throw .outOfRange
        else writeToPath g depth path (content ++ additional)
    | some (.ctz head size, id) => do
        let (head, size) ← streamCtzExtend g head size additional
        commitUpdateCtz g depth owner id head size

/-! ## Directories -/

/-- The log of an empty directory. -/
def emptyDirLog (parentTail : Option TailLink) : Except Error MetadataLog := do
  let c ← Commit.new.addTags g.blockSize (parentTail.toList.map tailTag)
  let (c, fcrc) ← c.finishPadded g
  pure ⟨1, c.tags, fcrc⟩

theorem emptyDirLog_eq_ok {g : Geometry} {tail : Option TailLink} {l : MetadataLog}
    (h : emptyDirLog g tail = .ok l) :
    ∃ c fcrc, Commit.finishPadded g ⟨4 + tagsSize (tail.toList.map tailTag),
        tail.toList.map tailTag⟩ = .ok (c, fcrc) ∧ l = ⟨1, c.tags, fcrc⟩ := by
  obtain ⟨c₁, hc₁, h⟩ := bind_eq_ok.1 h
  obtain ⟨⟨c₂, fcrc⟩, hc₂, h⟩ := bind_eq_ok.1 h
  cases h
  obtain ⟨rfl, -⟩ := Commit.addTags_eq_ok hc₁
  exact ⟨c₂, fcrc, hc₂, rfl⟩

/-- Erase both blocks of a candidate and write the empty directory on the first.  The
result is the block that turned out to be worn, if any. -/
def tryDirPair (parentTail : Option TailLink) (candidate : BlockPair) : FsM (Option ℕ) := do
  if !(← eraseBlock candidate.a) then pure (some candidate.a)
  else if !(← eraseBlock candidate.b) then pure (some candidate.b)
  else
    let l ← lift (emptyDirLog g parentTail)
    let report ← programLog candidate.a l
    if report == .verified then
      hold [candidate.a, candidate.b]
      pure none
    else pure (some candidate.a)

/-- The candidate loop of `mkdir`: two blocks, both erased, the first holding an
empty log with the inherited tail. -/
def mkdirPair (parentTail : Option TailLink) : ℕ → List ℕ → FsM BlockPair
  | left, excluded => do
      let blocks ← allocBlocks g false excluded none 2
      let candidate : BlockPair := ⟨blocks.getD 0 noBlock, blocks.getD 1 noBlock⟩
      match ← tryDirPair g parentTail candidate with
      | none => pure candidate
      | some bad =>
          match left with
          | 0 => throw .io
          | left + 1 => do
              invalidateAllocCache
              mkdirPair parentTail left (excluded ++ [bad])

/-- `mkdir`. -/
def mkdir (path : Path) : FsM Unit := do
  let (parent, name) ← parentOf g path
  match ← query fun d => seekEntryInChain g d parent (nameBody name) with
  | .found .. => throw .alreadyExists
  | .absent target _ =>
      let s ← get
      let parentTail ← query fun d => do
        let pair ← d.fetch g target
        pure pair.reader.tailLink
      let tree ← query fun d => collectLiveTreePairs g d s.root
      if maxQueuedPairs < tree.length + 2 then throw .outOfRange
      else
        let newDir ← mkdirPair g parentTail maxBadBlockRetries []
        let count ← query fun d => liveCount g d target
        let id ← lift (newEntryId count)
        applyOpToPairInner g depth
          { pair := target, op := .createDir id (nameBody name) newDir [],
            newTail := some (newDir, false), inflight := ⟨[newDir.a, newDir.b], none⟩ }

/-- The chain walk of `unthread_and_steal`: the thread successor of the dropped
directory and the state totals of its pairs. -/
def stealFrom (d : Device) :
    ℕ → BlockPair → BrentTailWalk → Gstate → Except Error (Option BlockPair × Gstate)
  | 0, _, _, _ => .error .recursionLimit
  | fuel + 1, current, walk, stolen => do
      let p ← d.fetch g current
      let stolen := (stolen.xorBody (scanPairMoveState p.reader)).xorRelocateBody
        (scanPairRelocateState p.reader)
      if p.reader.isHardTail then
        match p.reader.tail with
        | some t => do
            let walk ← walk.advance t
            stealFrom d fuel t walk stolen
        | none => pure (none, stolen)
      else pure (p.reader.tail, stolen)

/-- A state delta, unless it is all zero. -/
def nonZero (zero state : List ℕ) : Option (List ℕ) := if state = zero then none else some state

/-- `unthread_and_steal`. -/
def unthreadAndSteal (predPair dropped : BlockPair) : FsM Unit := do
  let (successor, stolen) ←
    query fun d => stealFrom g d (chainFuel g) dropped (.new dropped) {}
  applyOpToPairInner g depth
    { pair := predPair
      extraMove := nonZero zeroMove stolen.move
      extraRelocate := nonZero zeroRelocate stolen.relocate
      newTail := some (successor.getD .none, false) }

/-- `remove_from_pair`. -/
def removeFromPair (firstPair : BlockPair) (name : List Byte) : FsM Unit := do
  invalidateAllocCache
  if name = [] then throw .invalidPath
  else
    match ← query fun d => seekEntryInChain g d firstPair (nameBody name) with
    | .found target id _ => applyOpToPair g depth target (.remove id)
    | .absent .. => throw .notFound

/-- `remove_from_root`. -/
def removeFromRoot (name : List Byte) : FsM Unit := do
  let s ← get
  removeFromPair g depth s.root name

/-- `remove_at_path`. -/
def removeAtPath (path : Path) : FsM Unit := do
  let (parent, leaf) ← parentOf g path
  match ← query fun d => seekEntryInChain g d parent (nameBody leaf) with
  | .found _ _ .directory => throw .alreadyExists
  | .found .. => removeFromPair g depth parent leaf
  | .absent .. => throw .notFound

/-- The pair of the directory an entry names, as `rmdir` decodes it. -/
def dirPairOf (d : Device) (owner : BlockPair) (name : List Byte) : Except Error BlockPair := do
  let pair ← d.fetch g owner
  match ← lookupChecked pair.reader (nameBody name) with
  | none => .error .notFound
  | some r =>
      if r.structType ≠ .dirStruct ∨ r.structBody.length ≠ 8 then .error .corrupt
      else pure r.structBody.pair

/-- `rmdir`. -/
def rmdir (path : Path) : FsM Unit := do
  let (parent, leaf) ← parentOf g path
  match ← query fun d => seekEntryInChain g d parent (nameBody leaf) with
  | .absent .. => throw .notFound
  | .found owner _ kind =>
      if kind ≠ .directory then throw .alreadyExists
      else
        let dirPair ← query fun d => dirPairOf g d owner leaf
        let entries ← query fun d => listPairChain g d dirPair
        if entries ≠ [] then throw .notEmpty
        else
          removeFromPair g depth parent leaf
          let s ← get
          match ← query fun d => findThreadPredecessor g d s.root dirPair with
          | some (pred, _) => unthreadAndSteal g depth pred dirPair
          | none => pure ()

/-! ## Attributes -/

/-- The owning pair and id of an existing entry. -/
def entryAt (path : Path) : FsM (BlockPair × ℕ) := do
  let (parent, leaf) ← parentOf g path
  match ← query fun d => seekEntryInChain g d parent (nameBody leaf) with
  | .found pair id _ => pure (pair, id)
  | .absent .. => throw .notFound

/-- `set_attr`. -/
def setAttr (path : Path) (attrId : ℕ) (value : List Byte) : FsM Unit :=
  if 0x3FF ≤ value.length then throw .outOfRange
  else do
    let (target, id) ← entryAt g path
    applyOpToPair g depth target (.setAttr id attrId (.bytes value))

/-- `remove_attr`. -/
def removeAttr (path : Path) (attrId : ℕ) : FsM Unit := do
  let (target, id) ← entryAt g path
  applyOpToPair g depth target (.removeAttr id attrId)

/-- `get_attr`: the value, empty when there is none. -/
def getAttr (path : Path) (attrId : ℕ) : FsM (List Byte) := do
  let (target, id) ← entryAt g path
  let pair ← fetchPair g target
  match attrGet pair.reader id attrId with
  | some body => pure body.inlineBytes
  | none => pure []

/-! ## Renaming -/

/-- The NAME tag type of a kind. -/
def EntryKind.nameType : EntryKind → TagType
  | .regularFile => .regularFile
  | .directory => .directory

/-- `rename_in_dir`. -/
def renameInDir (oldPath newPath : Path) : FsM Unit := do
  invalidateAllocCache
  let (oldParent, oldLeaf) ← parentOf g oldPath
  let (newParent, newLeaf) ← parentOf g newPath
  if oldParent ≠ newParent then throw .invalidPath
  else if oldLeaf = newLeaf then pure ()
  else
    match ← query fun d => seekEntryInChain g d oldParent (nameBody oldLeaf) with
    | .absent .. => throw .notFound
    | .found oldPair oldId kind =>
        match ← query fun d => seekEntryInChain g d oldParent (nameBody newLeaf) with
        | .found .. => throw .alreadyExists
        | .absent .. =>
            applyOpToPair g depth oldPair (.renameInPlace oldId kind.nameType (nameBody newLeaf))

/-- What a rename reads of its source entry. -/
structure RenameSource where
  id : ℕ
  structType : TagType
  body : Body
  attrs : StagedAttrs

/-- The source entry of a rename, with its live attributes staged. -/
def renameSource (d : Device) (owner : BlockPair) (name : List Byte) :
    Except Error RenameSource := do
  let pair ← d.fetch g owner
  match ← lookupChecked pair.reader (nameBody name) with
  | none => .error .notFound
  | some r =>
      if 1024 < r.structBody.length then .error .outOfRange
      else do
        let attrs ← stageLiveAttrs pair.reader r.entry.id
        pure ⟨r.entry.id, r.structType, r.structBody, attrs⟩

/-- The operation that creates the moved entry. -/
def renameCreateOp (src : RenameSource) (id : ℕ) (name : List Byte) : Except Error WriteOp :=
  match src.structType with
  | .inlineStruct => .ok (.create id (nameBody name) src.body src.attrs)
  | .ctzStruct =>
      if src.body.length ≠ 8 then .error .corrupt
      else .ok (.createCtz id (nameBody name) (src.body.word 0) (src.body.word 1) src.attrs)
  | .dirStruct =>
      if src.body.length ≠ 8 then .error .corrupt
      else .ok (.createDir id (nameBody name) src.body.pair src.attrs)
  | _ => .error .corrupt

/-- Set or clear the pending move. -/
def setPendingMove (pm : Option PendingMove) : FsM Unit :=
  modify fun s => { s with pendingMove := pm }

/-- `rename`. -/
def rename (oldPath newPath : Path) : FsM Unit := do
  invalidateAllocCache
  let (oldParent, oldLeaf) ← parentOf g oldPath
  let (newParent, newLeaf) ← parentOf g newPath
  if oldParent = newParent then renameInDir g depth oldPath newPath
  else if pathIsStrictAncestor oldPath newPath then throw .invalidPath
  else
    match ← query fun d => seekEntryInChain g d oldParent (nameBody oldLeaf) with
    | .absent .. => throw .notFound
    | .found srcOwner _ _ =>
        let src ← query fun d => renameSource g d srcOwner oldLeaf
        match ← query fun d => seekEntryInChain g d newParent (nameBody newLeaf) with
        | .found .. => throw .alreadyExists
        | .absent dstLast count =>
            let newId ← lift (newEntryId count)
            let createOp ← lift (renameCreateOp src newId newLeaf)
            let body := buildMoveBody srcOwner src.id
            setPendingMove (some ⟨srcOwner, src.id, body⟩)
            let result ←
              attempt (applyOpToPairWithMovestate g depth dstLast createOp (some body))
            let s ← get
            setPendingMove none
            let _ ← lift result
            let pm := s.pendingMove.getD ⟨srcOwner, src.id, body⟩
            applyOpToPairWithMovestate g depth pm.curPair (.remove pm.curId) (some pm.delta)

/-! ## Format and mount -/

/-- The superblock `format` writes. -/
def formatSuperblock : Superblock := ⟨diskVersion, g.blockSize, g.blockCount, 0, 0, 0⟩

/-- The log `format` writes on block 0. -/
def formatLog : Except Error MetadataLog := do
  let c ← Commit.new.addTags g.blockSize
    [⟨.superblock, 0, magic⟩, ⟨.inlineStruct, 0, (formatSuperblock g).toBody⟩]
  let (c, fcrc) ← c.finishPadded g
  pure ⟨1, c.tags, fcrc⟩

theorem formatLog_eq_ok {g : Geometry} {l : MetadataLog} (h : formatLog g = .ok l) :
    ∃ c fcrc off, Commit.finishPadded g ⟨off,
        [⟨.superblock, 0, magic⟩, ⟨.inlineStruct, 0, (formatSuperblock g).toBody⟩]⟩ =
          .ok (c, fcrc) ∧ l = ⟨1, c.tags, fcrc⟩ := by
  obtain ⟨c₁, hc₁, h⟩ := bind_eq_ok.1 h
  obtain ⟨⟨c₂, fcrc⟩, hc₂, h⟩ := bind_eq_ok.1 h
  cases h
  obtain ⟨rfl, -⟩ := Commit.addTags_eq_ok hc₁
  exact ⟨c₂, fcrc, _, hc₂, rfl⟩

/-- `format`. -/
def format : FsM Unit := do
  let _ ← lift g.validate
  let l ← lift (formatLog g)
  if !(← eraseBlock 0) then throw .io
  else if !((← programLog 0 l) == .verified) then throw .io
  else if !(← eraseBlock 1) then throw .io
  else pure ()

/-- The live address of the source pair a pending move names. -/
def moveSource (d : Device) (tree : List BlockPair) (srcPair : BlockPair) :
    Except Error BlockPair :=
  if containsPair tree srcPair then .ok srcPair
  else (relocatedTwinIn g d srcPair tree).map fun twin => twin.getD srcPair

/-- `recover_pending_move`. -/
def recoverPendingMove (srcPair : BlockPair) (srcId : ℕ) : FsM Unit := do
  let s ← get
  let tree ← query fun d => collectLiveTreePairs g d s.root
  let target ← query fun d => moveSource g d tree srcPair
  let count ← query fun d => liveCount g d target
  if count ≤ srcId then throw .corrupt
  else
    applyOpToPairWithMovestate g depth target (.remove srcId)
      (some (buildMoveBody srcPair srcId))

/-- `recover_pending_relocation`. -/
def recoverPendingRelocation (oldPair newPair : BlockPair) : FsM Unit :=
  applyOpToPairInner g depth
    { pair := oldPair, extraRelocate := some (buildRelocateBody oldPair newPair) }

/-- The loop of `deorphan_sweep`. -/
def deorphanFrom (tree : List BlockPair) : ℕ → BlockPair → List BlockPair → FsM Unit
  | 0, _, _ => pure ()
  | fuel + 1, cur, visited => do
      let p ← fetchPair g cur
      match p.reader.tail with
      | none => pure ()
      | some next =>
          if containsPair tree next then
            if containsPair visited next then pure ()
            else
              deorphanFrom tree fuel next
                (if visited.length < maxQueuedPairs then visited ++ [next] else visited)
          else
            match ← query fun d => relocatedTwinIn g d next tree with
            | some twin =>
                applyOpToPairInner g depth
                  { pair := cur, newTail := some (twin, p.reader.isHardTail) }
                invalidateAllocCache
                deorphanFrom tree fuel cur visited
            | none =>
                unthreadAndSteal g depth cur next
                invalidateAllocCache
                deorphanFrom tree fuel cur visited

/-- `deorphan_sweep`. -/
def deorphanSweep : FsM Unit := do
  let s ← get
  let tree ← query fun d => collectLiveTreePairs g d s.root
  deorphanFrom g depth tree (4 * maxQueuedPairs) s.root [s.root]

/-- The superblock checks of `mount`. -/
def readSuperblock (d : Device) : Except Error Superblock := do
  let _ ← g.validate
  let (a, b) ← d.readers g rootBlockPair
  if (d.get 0).isAllErased && (d.get 1).isAllErased then .error .unformatted
  else
    let pair ← MetadataPair.parse rootBlockPair a b
    let sb ← Superblock.fromPair pair
    if sb.blockSize ≠ g.blockSize ∨ sb.blockCount ≠ g.blockCount then .error .geometryMismatch
    else pure sb

/-- The pending move `mount` completes. -/
def recoverMoveOf (state : Gstate) : FsM Unit :=
  match state.pendingMove with
  | some (srcPair, srcId) =>
      if g.pairInBounds srcPair then recoverPendingMove g depth srcPair srcId
      else throw .corrupt
  | none => pure ()

/-- The pending relocation `mount` completes. -/
def recoverRelocationOf (state : Gstate) : FsM Unit :=
  match state.pendingRelocation with
  | some (oldPair, newPair) =>
      if g.pairInBounds oldPair && g.pairInBounds newPair then
        recoverPendingRelocation g depth oldPair newPair
      else throw .corrupt
  | none => pure ()

/-- `mount`, on the device of the state it finds; the handle is replaced. -/
def mount : FsM Unit := do
  let sb ← query fun d => readSuperblock g d
  modify fun s => { s with
    superblock := sb, root := rootBlockPair, usedCache := none, pendingMove := none }
  let state ← query fun d => accumulateGstate g d rootBlockPair
  recoverMoveOf g depth state
  recoverRelocationOf g depth state
  deorphanSweep g depth

/-- A handle before its first format or mount, on a given device and script. -/
def Fs.init (d : Device) (script : List Outcome) : Fs where
  device := d
  superblock := formatSuperblock g
  root := rootBlockPair
  usedCache := none
  pendingMove := none
  script := script
  unpublished := {}

end LittlefsPure
