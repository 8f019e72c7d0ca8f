import LittlefsPure.Disk.Dir
import LittlefsPure.Disk.Gstate

/-!
# Write operations

What a commit can do to a pair, and the two ways it is put on the block: the
tags an append adds (`emit_op`), and the compacted log a rebuild emits
(`emit_compact_range`, `build_compact_commit`).  The split planner measures the
second without writing it, so the emission is a list of tags here and both of
its consumers, the commit builder and the byte counter, run over that list.

## Why the tags are a list

Both the append and the rebuild put tags into a buffer through the same builder.  Had they been
modelled as writers into a buffer, the byte counter would have to be a third.  As lists the two are
functions of the operation and the log, the builder folds over them, and the counter adds them up.
-/

namespace LittlefsPure

/-! ## Staged attributes -/

/-- Attributes carried along by a rename: the records of `StagedAttrs`. -/
abbrev StagedAttrs := List (ℕ × Body)

/-- The bytes the attributes add to a commit, `StagedAttrs::dsize`. -/
def StagedAttrs.dsize (attrs : StagedAttrs) : ℕ := (attrs.map fun r => 4 + r.2.length).sum

/-- `RENAME_ATTR_STAGE`. -/
def renameAttrStage : ℕ := 1024

/-- `stage_live_attrs`: each record costs three bytes and its value. -/
def stageLiveAttrs (l : MetadataLog) (liveId : ℕ) : Except Error StagedAttrs :=
  let attrs := forEachLiveAttr l liveId
  if renameAttrStage < (attrs.map fun r => 3 + r.2.length).sum then .error .outOfRange
  else .ok attrs

/-! ## Operations -/

/-- `WriteOp`. -/
inductive WriteOp where
  | create (id : ℕ) (name content : Body) (movedAttrs : StagedAttrs)
  | createCtz (id : ℕ) (name : Body) (headBlock totalSize : ℕ) (movedAttrs : StagedAttrs)
  | update (id : ℕ) (content : Body)
  | updateCtz (id headBlock totalSize : ℕ)
  | remove (id : ℕ)
  | createDir (id : ℕ) (name : Body) (dirPair : BlockPair) (movedAttrs : StagedAttrs)
  | renameInPlace (id : ℕ) (nameType : TagType) (newName : Body)
  | setAttr (id attrId : ℕ) (value : Body)
  | removeAttr (id attrId : ℕ)
  | updateDirStruct (id : ℕ) (newPair : BlockPair)
  | noop
  deriving DecidableEq, Repr

namespace WriteOp

/-- The attribute tags of staged attributes, at an id. -/
def attrTags (id : ℕ) (attrs : StagedAttrs) : List TagEntry :=
  attrs.map fun r => ⟨.userAttr r.1, id, r.2⟩

/-- The tags that bring a new entry into being at an id. -/
def newEntryTags (op : WriteOp) (id : ℕ) : List TagEntry :=
  match op with
  | .create _ name content attrs =>
      ⟨.create, id, .bytes []⟩ :: ⟨.regularFile, id, name⟩ :: ⟨.inlineStruct, id, content⟩ ::
        attrTags id attrs
  | .createCtz _ name head size attrs =>
      ⟨.create, id, .bytes []⟩ :: ⟨.regularFile, id, name⟩ ::
        ⟨.ctzStruct, id, .words [head, size]⟩ :: attrTags id attrs
  | .createDir _ name dirPair attrs =>
      ⟨.create, id, .bytes []⟩ :: ⟨.directory, id, name⟩ ::
        ⟨.dirStruct, id, Body.ofPair dirPair⟩ :: attrTags id attrs
  | _ => []

/-- `emit_op`. -/
def emitOp (op : WriteOp) : List TagEntry :=
  match op with
  | .create id .. | .createCtz id .. | .createDir id .. => op.newEntryTags id
  | .update id content => [⟨.inlineStruct, id, content⟩]
  | .updateCtz id head size => [⟨.ctzStruct, id, .words [head, size]⟩]
  | .remove id => [⟨.delete, id, .bytes []⟩]
  | .renameInPlace id nameType newName => [⟨nameType, id, newName⟩]
  | .setAttr id attrId value => [⟨.userAttr attrId, id, value⟩]
  | .removeAttr id attrId => [⟨.userAttr attrId, id, .removed⟩]
  | .updateDirStruct id newPair => [⟨.dirStruct, id, Body.ofPair newPair⟩]
  | .noop => []

/-- `op_dsize_of`: the size the append test reserves, with eight bytes for the
closing checksum. -/
def opDsizeOf (op : WriteOp) : ℕ :=
  match op with
  | .update _ content => (4 + content.length) + 8
  | .updateCtz .. | .updateDirStruct .. => (4 + 8) + 8
  | .create _ name content attrs =>
      4 + (4 + name.length) + (4 + content.length) + attrs.dsize + 8
  | .createCtz _ name _ _ attrs | .createDir _ name _ attrs =>
      4 + (4 + name.length) + (4 + 8) + attrs.dsize + 8
  | .remove _ | .removeAttr .. => 4 + 8
  | .renameInPlace _ _ newName => (4 + newName.length) + 8
  | .setAttr _ _ value => (4 + value.length) + 8
  | .noop => 8

/-- `op_adds_entry`. -/
def opAddsEntry : WriteOp → Bool
  | .create .. | .createCtz .. | .createDir .. => true
  | _ => false

end WriteOp

theorem tagsSize_attrTags (id : ℕ) (attrs : StagedAttrs) :
    tagsSize (WriteOp.attrTags id attrs) = attrs.dsize := by
  induction attrs with
  | nil => rfl
  | cons r attrs ih =>
      simp only [WriteOp.attrTags, List.map_cons, tagsSize_cons, StagedAttrs.dsize,
        List.sum_cons] at ih ⊢
      rw [ih]
      rfl

/-! ## Compaction -/

/-- `SlotPlan`: what an operation does to one surviving entry of a rebuild. -/
structure SlotPlan where
  dropEntry : Bool := false
  extraName : Option (TagType × Body) := none
  structOverride : Option (TagType × Body) := none
  attrSuppress : Option ℕ := none
  attrAppend : Option (ℕ × Body) := none

/-- `slot_plan`. -/
def slotPlan (op : WriteOp) (i : ℕ) : SlotPlan :=
  match op with
  | .update id content =>
      if id = i then { structOverride := some (.inlineStruct, content) } else {}
  | .updateCtz id head size =>
      if id = i then { structOverride := some (.ctzStruct, .words [head, size]) } else {}
  | .updateDirStruct id newPair =>
      if id = i then { structOverride := some (.dirStruct, Body.ofPair newPair) } else {}
  | .remove id => if id = i then { dropEntry := true } else {}
  | .renameInPlace id nameType newName =>
      if id = i then { extraName := some (nameType, newName) } else {}
  | .setAttr id attrId value =>
      if id = i then { attrSuppress := some attrId, attrAppend := some (attrId, value) } else {}
  | .removeAttr id attrId => if id = i then { attrSuppress := some attrId } else {}
  | _ => {}

/-- What an operation changes of a surviving entry is a NAME and a STRUCT again. -/
theorem slotPlan_types (op : WriteOp)
    (hop : ∀ id nameType newName, op = .renameInPlace id nameType newName →
      nameType.isName = true) (i : ℕ) :
    (∀ n, (slotPlan op i).extraName = some n → n.1.isName = true) ∧
      ∀ b, (slotPlan op i).structOverride = some b → b.1.isStruct = true := by
  cases op with
  | renameInPlace id nameType newName =>
      simp only [slotPlan]
      split_ifs
      · exact ⟨fun n hn => by cases hn; exact hop _ _ _ rfl, nofun⟩
      · exact ⟨nofun, nofun⟩
  | update | updateCtz | updateDirStruct =>
      simp only [slotPlan]
      split_ifs
      · exact ⟨nofun, fun b hb => by cases hb; rfl⟩
      · exact ⟨nofun, nofun⟩
  | remove | setAttr | removeAttr =>
      simp only [slotPlan]
      split_ifs <;> exact ⟨nofun, nofun⟩
  | _ => exact ⟨nofun, nofun⟩

/-- The tags one surviving entry contributes to a rebuild, at its new id. -/
def emitSlot (source : MetadataLog) (s : Slot) (plan : SlotPlan) (i emitId : ℕ) :
    Except Error (List TagEntry) :=
  match s.name, s.struct with
  | some (nameType, name), some (structType, structBody) =>
      let (st, sb) := plan.structOverride.getD (structType, structBody)
      let attrs := (forEachLiveAttr source i).filter fun r => plan.attrSuppress != some r.1
      .ok <|
        [⟨.create, emitId, .bytes []⟩, ⟨nameType, emitId, name⟩] ++
        (plan.extraName.toList.map fun n => ⟨n.1, emitId, n.2⟩) ++
        [⟨st, emitId, sb⟩] ++
        WriteOp.attrTags emitId attrs ++
        WriteOp.attrTags emitId plan.attrAppend.toList
  | _, _ => .error .corrupt

/-- The surviving entries of a rebuild, from slot `i` on, with the id the next one
gets. -/
def emitSlots (source : MetadataLog) (op : WriteOp) :
    List Slot → ℕ → ℕ → Except Error (List TagEntry × ℕ)
  | [], _, emitId => .ok ([], emitId)
  | s :: rest, i, emitId => do
      let plan := slotPlan op i
      if plan.dropEntry then emitSlots source op rest (i + 1) emitId
      else
        let tags ← emitSlot source s plan i emitId
        let (more, emitId) ← emitSlots source op rest (i + 1) (emitId + 1)
        pure (tags ++ more, emitId)

/-- `emit_compact_range`: the entries with index in `[lo, hi)`, the operation's new
entry counting as the last one.  The slots are those read from the log before the
operation; the attributes are read from `source`. -/
def emitCompactRange (source : MetadataLog) (slots : Roster Slot) (op : WriteOp) (lo hi : ℕ) :
    Except Error (List TagEntry) := do
  let (tags, emitId) ← emitSlots source op ((slots.live.take hi).drop lo) lo 0
  pure <| tags ++ if lo ≤ slots.count ∧ slots.count < hi then op.newEntryTags emitId else []

/-- `Tag::dsize` of the word of a tag: a length field of all ones counts as no body. -/
def TagEntry.countedSize (t : TagEntry) : ℕ :=
  if t.lengthField = lenSpecial then 4 else 4 + t.lengthField

/-- `compact_range_size`: the tags are counted by their words. -/
def compactRangeSize (source : MetadataLog) (slots : Roster Slot) (op : WriteOp) (lo hi : ℕ) :
    Except Error ℕ :=
  (emitCompactRange source slots op lo hi).map fun tags => (tags.map TagEntry.countedSize).sum

/-- A tail override or a pair's own tail: the linked pair and whether the link is a
hard tail. -/
abbrev TailLink := BlockPair × Bool

/-- The tag of a tail link. -/
def tailTag (link : TailLink) : TagEntry :=
  ⟨if link.2 then .hardTail else .softTail, idNone, Body.ofPair link.1⟩

/-- The `MoveState` tag of a delta; an all-zero delta is not written. -/
def moveStateTags (body : Option MoveBody) : List TagEntry :=
  match body with
  | some b => if b = zeroMove then [] else [⟨.moveState, idNone, .words b⟩]
  | none => []

/-- The `RelocateState` tag of a delta; an all-zero delta is not written. -/
def relocateStateTags (body : Option RelocateBody) : List TagEntry :=
  match body with
  | some b => if b = zeroRelocate then [] else [⟨.relocateState, idNone, .words b⟩]
  | none => []

/-- The tail tag of a rebuild; a link to no pair is not written. -/
def rebuiltTailTags (tail : Option TailLink) : List TagEntry :=
  match tail with
  | some link => if link.1.a = noBlock then [] else [tailTag link]
  | none => []

/-- `build_compact_commit`: the rebuilt log. -/
def buildCompactCommit (g : Geometry) (source : MetadataLog) (newRevision : ℕ)
    (slots : Roster Slot) (op : WriteOp) (lo hi : ℕ) (moveState : Option MoveBody)
    (relocateState : Option RelocateBody) (tail : Option TailLink) :
    Except Error MetadataLog := do
  let entries ← emitCompactRange source slots op lo hi
  let c ← Commit.new.addTags g.blockSize
    (entries ++ moveStateTags moveState ++ relocateStateTags relocateState ++
      rebuiltTailTags tail)
  let (c, fcrc) ← c.finishPadded g
  pure ⟨newRevision, c.tags, fcrc⟩

/-! ## Splitting and relocation policy -/

/-- `SPLIT_RESERVE`. -/
def splitReserve : ℕ := 40

/-- `MAX_SPLIT_CUTS`. -/
def maxSplitCuts : ℕ := 8

/-- The loop of `compute_split_index`, which halves the range until its upper part
fits the budget.  `fuel` bounds the halvings. -/
def computeSplitIndexFrom (g : Geometry) (source : MetadataLog) (slots : Roster Slot)
    (op : WriteOp) (stop : ℕ) : ℕ → ℕ → Except Error ℕ
  | 0, split => .ok split
  | fuel + 1, split =>
      if stop - split > 1 then do
        let size ← compactRangeSize source slots op split stop
        let budget := min (g.blockSize - splitReserve)
          (Commit.alignUp (g.blockSize / 2) g.progSize)
        if stop - split < 0xff ∧ size ≤ budget then pure split
        else computeSplitIndexFrom g source slots op stop fuel (split + (stop - split) / 2)
      else .ok split

/-- `compute_split_index`. -/
def computeSplitIndex (g : Geometry) (source : MetadataLog) (slots : Roster Slot)
    (op : WriteOp) (begin stop : ℕ) : Except Error ℕ :=
  computeSplitIndexFrom g source slots op stop (stop - begin) begin

/-- `should_relocate`. -/
def shouldRelocate (pairAddr root : BlockPair) (newRevision : ℕ) (blockCycles : ℤ) : Bool :=
  if pairAddr = root then false
  else if blockCycles ≤ 0 then false
  else newRevision % ((blockCycles.toNat + 1) ||| 1) == 0

end LittlefsPure
