import LittlefsPure.Fs.Machine

/-!
# Walking the filesystem

The read-only walks of `fs.rs`: along a directory's own chain of pairs, along the
thread that links all pairs, and over the whole forest.  None of them changes the
device, so they are functions of it.

A chain walk is bounded in the source by Brent's cycle test, which stops on the
first revisited pair it saved.  `chainFuel` bounds the walk here; a chain without
a repeated pair has at most as many links as the device has pairs of blocks.
-/

namespace LittlefsPure

variable (g : Geometry)

/-! ## Chains -/

/-- `BrentTailWalk`. -/
structure BrentTailWalk where
  saved : BlockPair
  power : ℕ
  steps : ℕ
  deriving DecidableEq, Repr

namespace BrentTailWalk

/-- `new`. -/
def new (start : BlockPair) : BrentTailWalk := ⟨start, 1, 0⟩

/-- `advance`. -/
def advance (w : BrentTailWalk) (next : BlockPair) : Except Error BrentTailWalk :=
  if next = w.saved then .error .corrupt
  else if w.steps + 1 = w.power then .ok ⟨next, min (w.power * 2) 0xFFFFFFFF, 0⟩
  else .ok { w with steps := w.steps + 1 }

end BrentTailWalk

/-- A bound on the links a chain walk can follow before Brent's test ends it. -/
def chainFuel : ℕ := 8 * (g.blockCount * g.blockCount + 1)

/-- The link to the next pair of the same directory. -/
def MetadataLog.hardNext (l : MetadataLog) : Option BlockPair :=
  if l.isHardTail then l.tail else none

/-- `ChainSeek`. -/
inductive ChainSeek where
  | found (pair : BlockPair) (id : ℕ) (kind : EntryKind)
  | absent (lastPair : BlockPair) (count : ℕ)
  deriving DecidableEq, Repr

/-- The loop of `seek_entry_in_chain`. -/
def seekEntryFrom (d : Device) (name : Body) :
    ℕ → BlockPair → BrentTailWalk → Except Error ChainSeek
  | 0, _, _ => .error .recursionLimit
  | fuel + 1, current, walk => do
      let pair ← d.fetch g current
      let hit ← lookupChecked pair.reader name
      let slots ← gatherLiveSlots pair.reader
      match hit with
      | some r => pure (.found current r.entry.id r.entry.kind)
      | none =>
          match pair.reader.hardNext with
          | some next =>
              let walk ← walk.advance next
              seekEntryFrom d name fuel next walk
          | none => pure (.absent current slots.count)

/-- `seek_entry_in_chain`. -/
def seekEntryInChain (d : Device) (first : BlockPair) (name : Body) : Except Error ChainSeek :=
  seekEntryFrom g d name (chainFuel g) first (.new first)

/-- The loop of `find_dir_pair`. -/
def findDirPairFrom (d : Device) (name : Body) :
    ℕ → BlockPair → BrentTailWalk → Except Error BlockPair
  | 0, _, _ => .error .recursionLimit
  | fuel + 1, current, walk => do
      let pair ← d.fetch g current
      match ← lookupChecked pair.reader name with
      | some r =>
          if r.entry.kind ≠ .directory then .error .notFound
          else if r.structType ≠ .dirStruct ∨ r.structBody.length ≠ 8 then .error .corrupt
          else pure r.structBody.pair
      | none =>
          match pair.reader.hardNext with
          | some next =>
              let walk ← walk.advance next
              findDirPairFrom d name fuel next walk
          | none => .error .notFound

/-- `find_dir_pair`. -/
def findDirPair (d : Device) (dirPair : BlockPair) (name : Body) : Except Error BlockPair :=
  findDirPairFrom g d name (chainFuel g) dirPair (.new dirPair)

/-- The loop of `list_pair_chain`: the entries of a chain in order. -/
def listPairChainFrom (d : Device) :
    ℕ → BlockPair → BrentTailWalk → Except Error (List DirEntry)
  | 0, _, _ => .error .recursionLimit
  | fuel + 1, current, walk => do
      let pair ← d.fetch g current
      let (_, entries) ← liveEntries pair.reader
      match pair.reader.hardNext with
      | some next =>
          let walk ← walk.advance next
          let more ← listPairChainFrom d fuel next walk
          pure (entries ++ more)
      | none => pure entries

/-- `list_pair_chain`. -/
def listPairChain (d : Device) (start : BlockPair) : Except Error (List DirEntry) :=
  listPairChainFrom g d (chainFuel g) start (.new start)

/-! ## Paths -/

/-- `NAME_MAX`. -/
def nameMax : ℕ := 255

/-- A path that `Path::validate` accepts, as its components; the root has none. -/
structure Path where
  components : List (List Byte)
  valid : ∀ c ∈ components, c ≠ [] ∧ c.length ≤ nameMax ∧ (0x2f : Byte) ∉ c ∧
    c ≠ [0x2e] ∧ c ≠ [0x2e, 0x2e]

/-- `is_root`. -/
def Path.isRoot (p : Path) : Bool := p.components.isEmpty

/-- The descent `resolve` and `resolve_parent` share: from `current` through all
components but the last. -/
def descend (d : Device) : BlockPair → List (List Byte) → Except Error (BlockPair × List Byte)
  | _, [] => .error .invalidPath
  | current, [leaf] => .ok (current, leaf)
  | current, name :: rest => do
      let next ← findDirPair g d current (.bytes name)
      descend d next rest

/-- `resolve_parent`. -/
def resolveParent (d : Device) (root : BlockPair) (path : Path) :
    Except Error (BlockPair × List Byte) :=
  descend g d root path.components

/-- `ResolvedPath`. -/
structure ResolvedPath where
  pair : BlockPair
  entry : DirEntry
  structType : TagType
  structBody : Body
  deriving DecidableEq, Repr

/-- The final lookup of `resolve`, along the chain of the leaf's directory. -/
def resolveLeafFrom (d : Device) (name : Body) :
    ℕ → BlockPair → BrentTailWalk → Except Error ResolvedPath
  | 0, _, _ => .error .recursionLimit
  | fuel + 1, current, walk => do
      let pair ← d.fetch g current
      match ← lookupChecked pair.reader name with
      | some r =>
          pure ⟨⟨pair.activeBlock, pair.alternateBlock⟩, r.entry, r.structType, r.structBody⟩
      | none =>
          if pair.reader.isHardTail then
            match pair.reader.tail with
            | some next =>
                let walk ← walk.advance next
                resolveLeafFrom d name fuel next walk
            | none => .error .notFound
          else .error .notFound

/-- `resolve`. -/
def resolve (d : Device) (root : BlockPair) (path : Path) : Except Error ResolvedPath := do
  let (dir, leaf) ← descend g d root path.components
  resolveLeafFrom g d (.bytes leaf) (chainFuel g) dir (.new dir)

/-- `path_is_strict_ancestor`. -/
def pathIsStrictAncestor (ancestor descendant : Path) : Bool :=
  decide (ancestor.components.length < descendant.components.length) &&
    ancestor.components.isPrefixOf descendant.components

/-! ## The thread -/

/-- The loop of `find_thread_predecessor`. -/
def findPredecessorFrom (d : Device) (target : BlockPair) :
    ℕ → BlockPair → Except Error (Option TailLink)
  | 0, _ => .error .outOfRange
  | fuel + 1, cur => do
      let p ← d.fetch g cur
      match p.reader.tail with
      | some t =>
          if t = target then pure (some (cur, p.reader.isHardTail))
          else findPredecessorFrom d target fuel t
      | none => pure none

/-- `find_thread_predecessor`. -/
def findThreadPredecessor (d : Device) (root target : BlockPair) :
    Except Error (Option TailLink) :=
  findPredecessorFrom g d target maxQueuedPairs root

/-! ## The forest -/

/-- Queue a pair unless it is queued already.  `seen` are the pairs queued so far,
`pending` those not yet visited. -/
def enqueue (seen pending : List BlockPair) (child : BlockPair) :
    Except Error (List BlockPair × List BlockPair) :=
  if !g.pairInBounds child then .error .corrupt
  else if containsPair seen child then .ok (seen, pending)
  else if maxQueuedPairs ≤ seen.length then .error .outOfRange
  else .ok (seen ++ [child], pending ++ [child])

/-- Queue several pairs in turn. -/
def enqueueAll : List BlockPair → List BlockPair → List BlockPair →
    Except Error (List BlockPair × List BlockPair)
  | [], seen, pending => .ok (seen, pending)
  | child :: rest, seen, pending => do
      let (seen, pending) ← enqueue g seen pending child
      enqueueAll rest seen pending

/-- The child pair a slot names. -/
def Slot.childPair (s : Slot) : Option BlockPair :=
  match s.struct with
  | some (.dirStruct, body) => if body.length = 8 then some body.pair else none
  | _ => none

/-- The child pairs of the live entries of a pair, in id order. -/
def childPairs (slots : Roster Slot) : List BlockPair := slots.live.filterMap Slot.childPair

/-- The latest tag of a type with a body of a given length, as words; zeros when
there is none.  `scan_pair_move_state` and `scan_pair_relocate_state`. -/
def latestState (l : MetadataLog) (type : TagType) (words : ℕ) : List ℕ :=
  match l.tags.reverse.find? fun t => t.tagType == type && t.body.length == 4 * words with
  | some t => (List.range words).map t.body.word
  | none => List.replicate words 0

/-- `scan_pair_move_state`. -/
def scanPairMoveState (l : MetadataLog) : MoveBody := latestState l .moveState 3

/-- `scan_pair_relocate_state`. -/
def scanPairRelocateState (l : MetadataLog) : RelocateBody := latestState l .relocateState 4

/-- The loop of `accumulate_gstate`. -/
def accumulateFrom (d : Device) :
    ℕ → List BlockPair → List BlockPair → Gstate → Except Error Gstate
  | _, _, [], state => .ok state
  | 0, _, _ :: _, _ => .error .outOfRange
  | fuel + 1, seen, p :: pending, state => do
      let pair ← d.fetch g p
      let state := (state.xorBody (scanPairMoveState pair.reader)).xorRelocateBody
        (scanPairRelocateState pair.reader)
      let slots ← gatherLiveSlots pair.reader
      let (seen, pending) ← enqueueAll g (pair.reader.tail.toList ++ childPairs slots) seen pending
      accumulateFrom d fuel seen pending state

/-- `accumulate_gstate`. -/
def accumulateGstate (d : Device) (root : BlockPair) : Except Error Gstate :=
  accumulateFrom g d maxQueuedPairs [root] [root] {}

/-- The loop of `collect_live_tree_pairs`. -/
def collectTreeFrom (d : Device) :
    ℕ → List BlockPair → List BlockPair → Except Error (List BlockPair)
  | _, seen, [] => .ok seen
  | 0, _, _ :: _ => .error .outOfRange
  | fuel + 1, seen, p :: pending => do
      let pair ← d.fetch g p
      let (seen, pending) ← enqueueAll g pair.reader.hardNext.toList seen pending
      let slots ← gatherLiveSlots pair.reader
      let (seen, pending) ← enqueueAll g (childPairs slots) seen pending
      collectTreeFrom d fuel seen pending

/-- `collect_live_tree_pairs`. -/
def collectLiveTreePairs (d : Device) (root : BlockPair) : Except Error (List BlockPair) :=
  collectTreeFrom g d maxQueuedPairs [root] [root]

/-- The entries of one pair in `find_parent_in_tree`: the id of the entry that names
the target, or the queue with the other child pairs added. -/
def findParentSlots (target : BlockPair) :
    List Slot → ℕ → List BlockPair → List BlockPair →
      Except Error (ℕ ⊕ (List BlockPair × List BlockPair))
  | [], _, seen, pending => .ok (.inr (seen, pending))
  | s :: rest, i, seen, pending =>
      match s.childPair with
      | none => findParentSlots target rest (i + 1) seen pending
      | some child =>
          if child = target then .ok (.inl i)
          else do
            let (seen, pending) ← enqueue g seen pending child
            findParentSlots target rest (i + 1) seen pending

/-- The loop of `find_parent_in_tree`. -/
def findParentFrom (d : Device) (target : BlockPair) :
    ℕ → List BlockPair → List BlockPair → Except Error (Option (BlockPair × ℕ))
  | _, _, [] => .ok none
  | 0, _, _ :: _ => .error .outOfRange
  | fuel + 1, seen, p :: pending => do
      let pair ← d.fetch g p
      let slots ← gatherLiveSlots pair.reader
      let (seen, pending) ← enqueueAll g pair.reader.tail.toList seen pending
      match ← findParentSlots g target slots.live 0 seen pending with
      | .inl i => pure (some (p, i))
      | .inr (seen, pending) => findParentFrom d target fuel seen pending

/-- `find_parent_in_tree`. -/
def findParentInTree (d : Device) (root target : BlockPair) :
    Except Error (Option (BlockPair × ℕ)) :=
  findParentFrom g d target maxQueuedPairs [root] [root]

/-- `relocated_twin_in`: the pair of the tree that shares a half with `stale` and has
its active log on the other half. -/
def relocatedTwinIn (d : Device) (stale : BlockPair) :
    List BlockPair → Except Error (Option BlockPair)
  | [] => .ok none
  | t :: rest =>
      if t = stale then relocatedTwinIn d stale rest
      else
        let shared :=
          if t.a = stale.a ∨ t.a = stale.b then some t.a
          else if t.b = stale.a ∨ t.b = stale.b then some t.b
          else none
        match shared with
        | none => relocatedTwinIn d stale rest
        | some shared => do
            let p ← d.fetch g t
            if p.activeBlock ≠ shared then pure (some t) else relocatedTwinIn d stale rest

end LittlefsPure
