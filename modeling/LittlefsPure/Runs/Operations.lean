import LittlefsPure.Runs.Discipline
import LittlefsPure.Disk.Splice

/-!
# The operations and the block contents

`LogDiscipline` through the public operations: file content, the path level
operations, format and mount, file handles, and runs of calls.

## Why there is one lemma for each function

What an operation leaves on the blocks is what its commits and its writes of content leave, and
there is nothing to argue about.  The lemmas follow the bodies of the functions step by step, so
that a change of one function of the source breaks the lemma of that function and no other.  Two
facts are needed beside the discipline: that an id found by a lookup is a slot index, and that the
operations are well formed, which is that their NAME tags have a NAME type.
-/

namespace LittlefsPure

open FsM Logic

/-! ## Ids of existing entries -/

/-- The id of a live entry is a slot index. -/
theorem lookupChecked_id_lt {l : MetadataLog} {name : Body} {r : Resolved}
    (h : lookupChecked l name = .ok (some r)) : r.entry.id < maxLiveEntries := by
  obtain ⟨roster, hroster, hfind⟩ := map_eq_ok.1 h
  have hwf := walkTags_wf (Roster.new_wf _) hroster
  obtain ⟨⟨s, i⟩, hmem, hs⟩ := List.exists_of_findSome?_eq_some hfind
  have hi : i < roster.live.length := by
    have := List.snd_lt_of_mem_zipIdx hmem
    omega
  have hlen : roster.live.length ≤ maxLiveEntries := by
    rw [← hwf.length]
    exact List.length_take_le' ..
  simp only at hs
  split at hs
  · split_ifs at hs
    cases hs
    exact Nat.lt_of_lt_of_le hi hlen
  · cases hs

/-- The search along a chain finds an id that `lookup_checked` found in one of its pairs. -/
theorem seekEntryFrom_id_lt {g : Geometry} {d : Device} {name : Body} {fuel : ℕ}
    {current owner : BlockPair} {walk : BrentTailWalk} {id : ℕ} {kind : EntryKind}
    (h : seekEntryFrom g d name fuel current walk = .ok (.found owner id kind)) :
    id < maxLiveEntries := by
  induction fuel generalizing current walk with
  | zero => cases h
  | succ fuel ih =>
      obtain ⟨pair, -, h⟩ := bind_eq_ok.1 h
      obtain ⟨hit, hhit, h⟩ := bind_eq_ok.1 h
      obtain ⟨slots, -, h⟩ := bind_eq_ok.1 h
      cases hit with
      | some r =>
          cases h
          exact lookupChecked_id_lt hhit
      | none =>
          simp only at h
          split at h
          · obtain ⟨walk', -, h⟩ := bind_eq_ok.1 h
            exact ih h
          · cases h

theorem EntryKind.nameType_isName (kind : EntryKind) : kind.nameType.isName = true := by
  cases kind <;> rfl

namespace LogDiscipline

variable {g : Geometry} {B : Block → Prop} {K : Event → Prop}

theorem keeps_seekEntryInChain (p : BlockPair) (name : Body) :
    Keeps K (Fs.AllBlocks B) (FsM.query fun d => seekEntryInChain g d p name) fun
      | .found _ id _ => id < maxLiveEntries
      | .absent .. => True := by
  refine Keeps.query fun s a _ ha => ?_
  cases a with
  | found owner id kind => exact seekEntryFrom_id_lt ha
  | absent => exact True.intro

variable (D : LogDiscipline g B K)
include D

/-! ## File content -/

theorem keeps_buildChainFrom (chain todo : List ℕ) (i : ℕ) (content : List Byte) :
    Keeps K (Fs.AllBlocks B) (buildChainFrom g chain todo i content) fun _ => True := by
  induction todo generalizing i content with
  | nil => exact Keeps.pure True.intro
  | cons block todo ih =>
      refine Keeps.bind (D.keeps_eraseAndProgramBytes ..) fun ok _ => ?_
      refine Keeps.ite (fun _ => Keeps.seq (keeps_account _) (ih _ _)) fun _ => ?_
      exact Keeps.seq (keeps_account _) (Keeps.pure True.intro)

theorem keeps_allocChain (content : List Byte) (totalBlocks left : ℕ) (excluded : List ℕ) :
    Keeps K (Fs.AllBlocks B) (allocChain g content totalBlocks left excluded) fun _ => True := by
  induction left generalizing excluded with
  | zero =>
      refine Keeps.bind (keeps_allocBlocks ..) fun chain _ => ?_
      refine Keeps.bind (D.keeps_buildChainFrom ..) fun bad _ => ?_
      split
      · exact Keeps.seq (keeps_account _) (Keeps.pure True.intro)
      · exact Keeps.fail
  | succ left ih =>
      refine Keeps.bind (keeps_allocBlocks ..) fun chain _ => ?_
      refine Keeps.bind (D.keeps_buildChainFrom ..) fun bad _ => ?_
      split
      · exact Keeps.seq (keeps_account _) (Keeps.pure True.intro)
      · exact Keeps.seq keeps_invalidateAllocCache (ih _)

/-- The copy of a tail block: erased cells, then raw bytes. -/
theorem keeps_rebuildTail (head off : ℕ) (fill : List Byte) (chain : Option (ℕ × ℕ)) (left : ℕ)
    (excluded : List ℕ) :
    Keeps K (Fs.AllBlocks B) (rebuildTail g head off fill chain left excluded) fun _ => True := by
  induction left generalizing excluded with
  | zero =>
      unfold rebuildTail
      refine Keeps.bind (keeps_allocBlocks ..) fun blocks _ => ?_
      refine Keeps.bind (keeps_query _) fun old _ => ?_
      refine Keeps.bind (D.keeps_eraseAndProgramBytes ..) fun ok _ => ?_
      refine Keeps.ite (fun _ => ?_) fun _ => Keeps.fail
      exact Keeps.seq (keeps_account _) (Keeps.seq (keeps_account _) (Keeps.pure True.intro))
  | succ left ih =>
      unfold rebuildTail
      refine Keeps.bind (keeps_allocBlocks ..) fun blocks _ => ?_
      refine Keeps.bind (keeps_query _) fun old _ => ?_
      refine Keeps.bind (D.keeps_eraseAndProgramBytes ..) fun ok _ => ?_
      refine Keeps.ite (fun _ => ?_) fun _ => Keeps.seq keeps_invalidateAllocCache (ih _)
      exact Keeps.seq (keeps_account _) (Keeps.seq (keeps_account _) (Keeps.pure True.intro))

theorem keeps_planTail (head oldSize : ℕ) (data : List Byte) :
    Keeps K (Fs.AllBlocks B) (planTail g head oldSize data) fun _ => True := by
  refine Keeps.ite (fun _ => Keeps.pure True.intro) fun _ => ?_
  refine Keeps.ite (fun _ => Keeps.pure True.intro) fun _ => ?_
  refine Keeps.bind (keeps_query _) fun tail _ => ?_
  refine Keeps.ite (fun _ => Keeps.pure True.intro) fun _ => ?_
  exact Keeps.bind (D.keeps_rebuildTail ..) fun _ _ => Keeps.pure True.intro

omit D in
theorem keeps_extendPointers (newBlocks : List ℕ) (tailAddr nOld i : ℕ) (ks : List ℕ) :
    Keeps K (Fs.AllBlocks B) (extendPointers g newBlocks tailAddr nOld i ks) fun _ => True := by
  induction ks with
  | nil => exact Keeps.pure True.intro
  | cons k ks ih =>
      refine Keeps.ite (fun _ => Keeps.fail) fun _ => ?_
      refine Keeps.bind (keeps_query _) fun phys _ => ?_
      exact Keeps.bind ih fun _ _ => Keeps.pure True.intro

theorem keeps_extendBlocksFrom (newBlocks : List ℕ) (tailAddr nOld : ℕ) (todo : List ℕ) (i : ℕ)
    (content : List Byte) :
    Keeps K (Fs.AllBlocks B) (extendBlocksFrom g newBlocks tailAddr nOld todo i content)
      fun _ => True := by
  induction todo generalizing i content with
  | nil => exact Keeps.pure True.intro
  | cons block todo ih =>
      refine Keeps.bind (keeps_extendPointers ..) fun pointers _ => ?_
      refine Keeps.bind (D.keeps_eraseAndProgramBytes ..) fun ok _ => ?_
      refine Keeps.ite (fun _ => Keeps.seq (keeps_account _) (ih _ _)) fun _ => ?_
      exact Keeps.seq (keeps_account _) (Keeps.pure True.intro)

/-- New blocks on top of a chain, all of them raw bytes. -/
theorem keeps_extendChain (tailAddr nOld newCount : ℕ) (content : List Byte)
    (chain : Option (ℕ × ℕ)) (left : ℕ) (excluded : List ℕ) :
    Keeps K (Fs.AllBlocks B) (extendChain g tailAddr nOld newCount content chain left excluded)
      fun _ => True := by
  induction left generalizing excluded with
  | zero =>
      unfold extendChain
      refine Keeps.bind (keeps_allocBlocks ..) fun newBlocks _ => ?_
      refine Keeps.bind (D.keeps_extendBlocksFrom ..) fun bad _ => ?_
      split
      · exact Keeps.pure True.intro
      · exact Keeps.fail
  | succ left ih =>
      unfold extendChain
      refine Keeps.bind (keeps_allocBlocks ..) fun newBlocks _ => ?_
      refine Keeps.bind (D.keeps_extendBlocksFrom ..) fun bad _ => ?_
      split
      · exact Keeps.pure True.intro
      · exact Keeps.seq keeps_invalidateAllocCache (ih _)

omit D in
theorem keeps_noteResume (head size : ℕ) :
    Keeps K (Fs.AllBlocks B) (noteResume head size) fun _ => True :=
  Keeps.bind Keeps.get fun _ _ => Keeps.note.trivial

theorem keeps_fillTail (head : ℕ) (fill : Option (ℕ × List Byte)) :
    Keeps K (Fs.AllBlocks B) (fillTail head fill) fun _ => True := by
  unfold fillTail
  split
  · refine Keeps.bind (D.keeps_programBytes ..) fun report _ => ?_
    exact Keeps.ite (fun _ => Keeps.pure True.intro) fun _ => Keeps.fail
  · exact Keeps.pure True.intro

/-- An append writes no log at all. -/
theorem keeps_streamCtzExtend (head oldSize : ℕ) (data : List Byte) :
    Keeps K (Fs.AllBlocks B) (streamCtzExtend g head oldSize data) fun _ => True := by
  refine Keeps.ite (fun _ => Keeps.fail) fun _ => Keeps.ite (fun _ => Keeps.fail) fun _ => ?_
  refine Keeps.bind (keeps_lift _) fun _ _ => Keeps.seq (keeps_noteResume ..) ?_
  refine Keeps.bind (D.keeps_planTail ..) fun plan _ => ?_
  refine Keeps.bind (R := fun _ => True) ?_ fun newHead _ => ?_
  · refine Keeps.ite (fun _ => Keeps.pure True.intro) fun _ => ?_
    exact Keeps.bind (D.keeps_extendChain ..) fun _ _ => Keeps.pure True.intro
  · refine Keeps.seq (D.keeps_fillTail ..) ?_
    exact Keeps.seq (keeps_account _) (Keeps.pure True.intro)

theorem keeps_shrinkTail (oldTail keep left : ℕ) (excluded : List ℕ) :
    Keeps K (Fs.AllBlocks B) (shrinkTail g oldTail keep left excluded) fun _ => True := by
  induction left generalizing excluded with
  | zero =>
      unfold shrinkTail
      refine Keeps.bind (keeps_allocBlocks ..) fun blocks _ => ?_
      refine Keeps.bind (keeps_query _) fun old _ => ?_
      refine Keeps.bind (D.keeps_eraseAndProgramBytes ..) fun ok _ => ?_
      refine Keeps.ite (fun _ => ?_) fun _ => Keeps.fail
      exact Keeps.seq (keeps_account _) (Keeps.pure True.intro)
  | succ left ih =>
      unfold shrinkTail
      refine Keeps.bind (keeps_allocBlocks ..) fun blocks _ => ?_
      refine Keeps.bind (keeps_query _) fun old _ => ?_
      refine Keeps.bind (D.keeps_eraseAndProgramBytes ..) fun ok _ => ?_
      refine Keeps.ite (fun _ => ?_) fun _ => Keeps.seq keeps_invalidateAllocCache (ih _)
      exact Keeps.seq (keeps_account _) (Keeps.pure True.intro)

/-- Nor does a cut. -/
theorem keeps_shrinkCtzHead (head oldSize newSize : ℕ) :
    Keeps K (Fs.AllBlocks B) (shrinkCtzHead g head oldSize newSize) fun _ => True := by
  refine Keeps.ite (fun _ => Keeps.fail) fun _ => Keeps.seq (keeps_noteResume ..) ?_
  refine Keeps.bind (keeps_query _) fun chain _ => ?_
  have hdone : ∀ cut block, Keeps K (Fs.AllBlocks B)
      (do release cut; holdChain block newSize; pure block) fun _ => True :=
    fun _ _ => Keeps.seq (keeps_account _) (Keeps.seq (keeps_account _) (Keeps.pure True.intro))
  refine Keeps.ite (fun _ => hdone _ _) fun _ => ?_
  exact Keeps.bind (D.keeps_shrinkTail ..) fun _ _ => hdone _ _

/-! ## Path level operations -/

variable {depth : ℕ}

/-- A commit of a well formed operation, by the result on the commit engine. -/
theorem keeps_commit {pair : BlockPair} {op : WriteOp} (hop : op.WellFormed) :
    Keeps K (Fs.AllBlocks B) (applyOpToPair g depth pair op) fun _ => True :=
  D.keeps_applyOpToPairInner depth _ hop

theorem keeps_commitUpdateCtz (pair : BlockPair) (id head size : ℕ) :
    Keeps K (Fs.AllBlocks B) (commitUpdateCtz g depth pair id head size) fun _ => True :=
  D.keeps_applyOpToPairInner depth _ True.intro

theorem keeps_writeInlineToPair (pair : BlockPair) (name content : List Byte) :
    Keeps K (Fs.AllBlocks B) (writeInlineToPair g depth pair name content) fun _ => True := by
  refine Keeps.ite (fun _ => Keeps.fail) fun _ => Keeps.bind (keeps_query _) fun found _ => ?_
  split
  · exact Keeps.ite (fun _ => Keeps.fail) fun _ => D.keeps_commit True.intro
  · exact Keeps.bind (keeps_lift _) fun _ _ => D.keeps_commit True.intro

omit D in
theorem keeps_fileTarget (pair : BlockPair) (name : List Byte) :
    Keeps K (Fs.AllBlocks B) (fileTarget g pair name) fun _ => True := by
  refine Keeps.bind (keeps_query _) fun found _ => ?_
  split
  · exact Keeps.ite (fun _ => Keeps.fail) fun _ => Keeps.pure True.intro
  · exact Keeps.pure True.intro

omit D in
/-- The operation that gives a file its chain names it with a NAME type. -/
theorem ctzOp_wellFormed {existing : Option ℕ} {count : ℕ} {name : List Byte} {head size : ℕ}
    {op : WriteOp} (h : ctzOp existing count name head size = .ok op) : op.WellFormed := by
  cases existing with
  | some id =>
      cases h
      exact True.intro
  | none =>
      obtain ⟨id, -, rfl⟩ := map_eq_ok.1 h
      exact True.intro

theorem keeps_writeCtzToPair (pair : BlockPair) (name content : List Byte) :
    Keeps K (Fs.AllBlocks B) (writeCtzToPair g depth pair name content) fun _ => True := by
  refine Keeps.ite (fun _ => Keeps.fail) fun _ => ?_
  refine Keeps.bind (keeps_fileTarget ..) fun target _ => ?_
  refine Keeps.ite (fun _ => D.keeps_writeInlineToPair ..) fun _ => ?_
  refine Keeps.ite (fun _ => Keeps.fail) fun _ => ?_
  refine Keeps.bind (D.keeps_allocChain ..) fun chain _ => ?_
  refine Keeps.bind (keeps_query _) fun count _ => Keeps.bind (keeps_lift _) fun op hop => ?_
  exact D.keeps_applyOpToPairInner depth _ (ctzOp_wellFormed hop)

/-- A small file is written into the pair and a large one into a chain. -/
theorem keeps_writeToPair (pair : BlockPair) (name content : List Byte) :
    Keeps K (Fs.AllBlocks B) (writeToPair g depth pair name content) fun _ => True :=
  Keeps.ite (fun _ => D.keeps_writeInlineToPair ..) fun _ => D.keeps_writeCtzToPair ..

theorem keeps_writeToRoot (name content : List Byte) :
    Keeps K (Fs.AllBlocks B) (writeToRoot g depth name content) fun _ => True :=
  Keeps.bind Keeps.get fun _ _ => D.keeps_writeToPair ..

omit D in
/-- A path is resolved without a write. -/
theorem keeps_parentOf (path : Path) :
    Keeps K (Fs.AllBlocks B) (parentOf g path) fun _ => True :=
  Keeps.bind Keeps.get fun _ _ => keeps_query _

theorem keeps_writeToPath (path : Path) (content : List Byte) :
    Keeps K (Fs.AllBlocks B) (writeToPath g depth path content) fun _ => True :=
  Keeps.bind (keeps_parentOf _) fun _ _ => D.keeps_writeToPair ..

theorem keeps_truncatePath (path : Path) (newSize scratch : ℕ) :
    Keeps K (Fs.AllBlocks B) (truncatePath g depth path newSize scratch) fun _ => True := by
  refine Keeps.seq keeps_invalidateAllocCache (Keeps.ite (fun _ => Keeps.fail) fun _ => ?_)
  refine Keeps.bind Keeps.get fun s _ => Keeps.bind (keeps_query _) fun current _ => ?_
  exact Keeps.bind (keeps_query _) fun kept _ => D.keeps_writeToPath ..

/-- An append to a path reads the layout, writes content, and commits it. -/
theorem keeps_appendToPath (path : Path) (additional : List Byte) (scratch : ℕ) :
    Keeps K (Fs.AllBlocks B) (appendToPath g depth path additional scratch) fun _ => True := by
  refine Keeps.ite (fun _ => Keeps.pure True.intro) fun _ => ?_
  refine Keeps.bind (keeps_parentOf _) fun parent _ => ?_
  refine Keeps.bind (keeps_query _) fun owner _ => Keeps.bind (keeps_query _) fun layout _ => ?_
  split
  · exact D.keeps_writeToPath ..
  · refine Keeps.ite (fun _ => Keeps.fail) fun _ => Keeps.ite (fun _ => Keeps.fail) fun _ => ?_
    exact D.keeps_writeToPath ..
  · exact Keeps.bind (D.keeps_streamCtzExtend ..) fun _ _ => D.keeps_commitUpdateCtz ..

/-! ## Directories -/

/-- A new directory is an empty log on each half of its pair. -/
theorem keeps_tryDirPair (tail : Option TailLink) (candidate : BlockPair) :
    Keeps K (Fs.AllBlocks B) (tryDirPair g tail candidate) fun _ => True := by
  refine Keeps.bind (D.keeps_eraseBlock _) fun _ _ => ?_
  refine Keeps.ite (fun _ => Keeps.pure True.intro) fun _ => ?_
  refine Keeps.bind (D.keeps_eraseBlock _) fun _ _ => ?_
  refine Keeps.ite (fun _ => Keeps.pure True.intro) fun _ => ?_
  refine Keeps.bind (keeps_lift _) fun l hl => ?_
  refine Keeps.bind (D.keeps_programLog (D.emptyDir tail l hl)) fun _ _ => ?_
  refine Keeps.ite (fun _ => ?_) fun _ => Keeps.pure True.intro
  exact Keeps.seq (keeps_account _) (Keeps.pure True.intro)

theorem keeps_mkdirPair (tail : Option TailLink) (left : ℕ) (excluded : List ℕ) :
    Keeps K (Fs.AllBlocks B) (mkdirPair g tail left excluded) fun _ => True := by
  induction left generalizing excluded with
  | zero =>
      unfold mkdirPair
      refine Keeps.bind (keeps_allocBlocks ..) fun blocks _ => ?_
      refine Keeps.bind (D.keeps_tryDirPair ..) fun worn _ => ?_
      split
      · exact Keeps.pure True.intro
      · exact Keeps.fail
  | succ left ih =>
      unfold mkdirPair
      refine Keeps.bind (keeps_allocBlocks ..) fun blocks _ => ?_
      refine Keeps.bind (D.keeps_tryDirPair ..) fun worn _ => ?_
      split
      · exact Keeps.pure True.intro
      · exact Keeps.seq keeps_invalidateAllocCache (ih _)

/-- The pair first, then its name in the parent. -/
theorem keeps_mkdir (path : Path) :
    Keeps K (Fs.AllBlocks B) (mkdir g depth path) fun _ => True := by
  refine Keeps.bind (keeps_parentOf _) fun parent _ => Keeps.bind (keeps_query _) fun found _ => ?_
  split
  · exact Keeps.fail
  · refine Keeps.bind Keeps.get fun s _ => Keeps.bind (keeps_query _) fun tail _ => ?_
    refine Keeps.bind (keeps_query _) fun tree _ => Keeps.ite (fun _ => Keeps.fail) fun _ => ?_
    refine Keeps.bind (D.keeps_mkdirPair ..) fun newDir _ => ?_
    refine Keeps.bind (keeps_query _) fun count _ => Keeps.bind (keeps_lift _) fun id _ => ?_
    exact D.keeps_applyOpToPairInner depth _ True.intro

/-- A dropped pair is taken off the thread by one commit on its predecessor. -/
theorem keeps_unthreadAndSteal (pred dropped : BlockPair) :
    Keeps K (Fs.AllBlocks B) (unthreadAndSteal g depth pred dropped) fun _ => True :=
  Keeps.bind (keeps_query _) fun _ _ => D.keeps_applyOpToPairInner depth _ True.intro

theorem keeps_removeFromPair (first : BlockPair) (name : List Byte) :
    Keeps K (Fs.AllBlocks B) (removeFromPair g depth first name) fun _ => True := by
  refine Keeps.seq keeps_invalidateAllocCache (Keeps.ite (fun _ => Keeps.fail) fun _ => ?_)
  refine Keeps.bind (keeps_query _) fun found _ => ?_
  split
  · exact D.keeps_commit True.intro
  · exact Keeps.fail

theorem keeps_removeFromRoot (name : List Byte) :
    Keeps K (Fs.AllBlocks B) (removeFromRoot g depth name) fun _ => True :=
  Keeps.bind Keeps.get fun _ _ => D.keeps_removeFromPair ..

/-- A removal is one commit on the pair that owns the entry. -/
theorem keeps_removeAtPath (path : Path) :
    Keeps K (Fs.AllBlocks B) (removeAtPath g depth path) fun _ => True := by
  refine Keeps.bind (keeps_parentOf _) fun parent _ => Keeps.bind (keeps_query _) fun found _ => ?_
  split
  · exact Keeps.fail
  · exact D.keeps_removeFromPair ..
  · exact Keeps.fail

theorem keeps_rmdir (path : Path) :
    Keeps K (Fs.AllBlocks B) (rmdir g depth path) fun _ => True := by
  refine Keeps.bind (keeps_parentOf _) fun parent _ => Keeps.bind (keeps_query _) fun found _ => ?_
  split
  · exact Keeps.fail
  · refine Keeps.ite (fun _ => Keeps.fail) fun _ => Keeps.bind (keeps_query _) fun dirPair _ => ?_
    refine Keeps.bind (keeps_query _) fun entries _ => Keeps.ite (fun _ => Keeps.fail) fun _ => ?_
    refine Keeps.seq (D.keeps_removeFromPair ..) (Keeps.bind Keeps.get fun s _ => ?_)
    refine Keeps.bind (keeps_query _) fun pred _ => ?_
    split
    · exact D.keeps_unthreadAndSteal ..
    · exact Keeps.pure True.intro

/-! ## Attributes and renaming -/

omit D in
theorem keeps_entryAt (path : Path) :
    Keeps K (Fs.AllBlocks B) (entryAt g path) fun _ => True := by
  refine Keeps.bind (keeps_parentOf _) fun parent _ => Keeps.bind (keeps_query _) fun found _ => ?_
  split
  · exact Keeps.pure True.intro
  · exact Keeps.fail

theorem keeps_setAttr (path : Path) (attrId : ℕ) (value : List Byte) :
    Keeps K (Fs.AllBlocks B) (setAttr g depth path attrId value) fun _ => True :=
  Keeps.ite (fun _ => Keeps.fail) fun _ =>
    Keeps.bind (keeps_entryAt _) fun _ _ => D.keeps_commit True.intro

theorem keeps_removeAttr (path : Path) (attrId : ℕ) :
    Keeps K (Fs.AllBlocks B) (removeAttr g depth path attrId) fun _ => True :=
  Keeps.bind (keeps_entryAt _) fun _ _ => D.keeps_commit True.intro

theorem keeps_renameInDir (oldPath newPath : Path) :
    Keeps K (Fs.AllBlocks B) (renameInDir g depth oldPath newPath) fun _ => True := by
  refine Keeps.seq keeps_invalidateAllocCache ?_
  refine Keeps.bind (keeps_parentOf _) fun old _ => Keeps.bind (keeps_parentOf _) fun new _ => ?_
  refine Keeps.ite (fun _ => Keeps.fail) fun _ => Keeps.ite (fun _ => Keeps.pure True.intro)
    fun _ => ?_
  refine Keeps.bind (keeps_seekEntryInChain ..) fun source hid => ?_
  split
  · exact Keeps.fail
  · refine Keeps.bind (keeps_query _) fun target _ => ?_
    split
    · exact Keeps.fail
    · exact D.keeps_commit ⟨hid, EntryKind.nameType_isName _⟩

omit D in
/-- The entry that a rename creates keeps the kind of the one it moves. -/
theorem renameCreateOp_wellFormed {src : RenameSource} {id : ℕ} {name : List Byte} {op : WriteOp}
    (h : renameCreateOp src id name = .ok op) : op.WellFormed := by
  unfold renameCreateOp at h
  split at h
  · cases h
    exact True.intro
  · split_ifs at h
    cases h
    exact True.intro
  · split_ifs at h
    cases h
    exact True.intro
  · cases h

/-- A rename across pairs is two commits with the pending move between them, which is
state of the handle and not of the device. -/
theorem keeps_rename (oldPath newPath : Path) :
    Keeps K (Fs.AllBlocks B) (rename g depth oldPath newPath) fun _ => True := by
  have hset : ∀ pm, Keeps K (Fs.AllBlocks B) (setPendingMove pm) fun _ => True :=
    fun pm => Keeps.modify fun _ hs => hs
  refine Keeps.seq keeps_invalidateAllocCache ?_
  refine Keeps.bind (keeps_parentOf _) fun old _ => Keeps.bind (keeps_parentOf _) fun new _ => ?_
  refine Keeps.ite (fun _ => D.keeps_renameInDir ..) fun _ => ?_
  refine Keeps.ite (fun _ => Keeps.fail) fun _ => Keeps.bind (keeps_query _) fun found _ => ?_
  split
  · exact Keeps.fail
  · refine Keeps.bind (keeps_query _) fun src _ => Keeps.bind (keeps_query _) fun target _ => ?_
    split
    · exact Keeps.fail
    · refine Keeps.bind (keeps_lift _) fun id _ => Keeps.bind (keeps_lift _) fun op hop => ?_
      refine Keeps.seq (hset _) ?_
      refine Keeps.bind (Keeps.attempt (D.keeps_applyOpToPairInner depth _
        (renameCreateOp_wellFormed hop))) fun result _ => ?_
      refine Keeps.bind Keeps.get fun s _ => Keeps.seq (hset _) ?_
      refine Keeps.bind (keeps_lift _) fun _ _ => ?_
      exact D.keeps_applyOpToPairInner depth _ True.intro

/-! ## Format and mount -/

/-- The superblock is the one log that the commit engine does not build. -/
theorem keeps_format : Keeps K (Fs.AllBlocks B) (LittlefsPure.format g) fun _ => True := by
  refine Keeps.bind (keeps_lift _) fun _ _ => Keeps.bind (keeps_lift _) fun l hl => ?_
  refine Keeps.bind (D.keeps_eraseBlock _) fun _ _ => Keeps.ite (fun _ => Keeps.fail) fun _ => ?_
  refine Keeps.bind (D.keeps_programLog (D.format l hl)) fun _ _ => ?_
  refine Keeps.ite (fun _ => Keeps.fail) fun _ => ?_
  refine Keeps.bind (D.keeps_eraseBlock _) fun _ _ => Keeps.ite (fun _ => Keeps.fail) fun _ => ?_
  exact Keeps.pure True.intro

theorem keeps_recoverPendingMove (srcPair : BlockPair) (srcId : ℕ) :
    Keeps K (Fs.AllBlocks B) (recoverPendingMove g depth srcPair srcId) fun _ => True := by
  refine Keeps.bind Keeps.get fun s _ => Keeps.bind (keeps_query _) fun tree _ => ?_
  refine Keeps.bind (keeps_query _) fun target _ => Keeps.bind (keeps_query _) fun count _ => ?_
  refine Keeps.ite (fun _ => Keeps.fail) fun _ => ?_
  exact D.keeps_applyOpToPairInner depth _ True.intro

theorem keeps_recoverMoveOf (state : Gstate) :
    Keeps K (Fs.AllBlocks B) (recoverMoveOf g depth state) fun _ => True := by
  unfold recoverMoveOf
  split
  · exact Keeps.ite (fun _ => D.keeps_recoverPendingMove ..) fun _ => Keeps.fail
  · exact Keeps.pure True.intro

theorem keeps_recoverRelocationOf (state : Gstate) :
    Keeps K (Fs.AllBlocks B) (recoverRelocationOf g depth state) fun _ => True := by
  unfold recoverRelocationOf
  split
  · refine Keeps.ite (fun _ => ?_) fun _ => Keeps.fail
    exact D.keeps_applyOpToPairInner depth _ True.intro
  · exact Keeps.pure True.intro

/-- The sweep behind a mount commits once for each orphan it finds. -/
theorem keeps_deorphanFrom (tree : List BlockPair) (fuel : ℕ) (cur : BlockPair)
    (visited : List BlockPair) :
    Keeps K (Fs.AllBlocks B) (deorphanFrom g depth tree fuel cur visited) fun _ => True := by
  induction fuel generalizing cur visited with
  | zero => exact Keeps.pure True.intro
  | succ fuel ih =>
      refine Keeps.bind (keeps_query _) fun p _ => ?_
      split
      · exact Keeps.pure True.intro
      · refine Keeps.ite (fun _ => ?_) fun _ => ?_
        · exact Keeps.ite (fun _ => Keeps.pure True.intro) fun _ => ih _ _
        · refine Keeps.bind (keeps_query _) fun twin _ => ?_
          split
          · refine Keeps.seq (D.keeps_applyOpToPairInner depth _ True.intro) ?_
            exact Keeps.seq keeps_invalidateAllocCache (ih _ _)
          · refine Keeps.seq (D.keeps_unthreadAndSteal ..) ?_
            exact Keeps.seq keeps_invalidateAllocCache (ih _ _)

/-- A mount writes what its recovery commits. -/
theorem keeps_mount : Keeps K (Fs.AllBlocks B) (mount g depth) fun _ => True := by
  refine Keeps.bind (keeps_query _) fun sb _ => ?_
  refine Keeps.seq (R := fun _ => True) (Keeps.modify fun _ hs => hs) ?_
  refine Keeps.bind (keeps_query _) fun state _ => ?_
  refine Keeps.seq (D.keeps_recoverMoveOf _) (Keeps.seq (D.keeps_recoverRelocationOf _) ?_)
  exact Keeps.bind Keeps.get fun s _ => Keeps.bind (keeps_query _) fun tree _ =>
    D.keeps_deorphanFrom ..

/-! ## File handles -/

/-- `open` commits when it creates the file, and otherwise reads. -/
theorem keeps_openEntry (parent owner : BlockPair) (name : List Byte) (options : OpenOptions) :
    Keeps K (Fs.AllBlocks B) (openEntry g depth parent owner name options) fun _ => True := by
  refine Keeps.bind (keeps_query _) fun layout _ => ?_
  split
  · refine Keeps.ite (fun _ => ?_) fun _ => Keeps.fail
    refine Keeps.bind (R := fun _ => True) ?_ fun _ _ => Keeps.pure True.intro
    refine Keeps.seq (D.keeps_writeInlineToPair ..) (Keeps.bind (keeps_query _) fun found _ => ?_)
    split
    · exact Keeps.pure True.intro
    · exact Keeps.fail
  · exact Keeps.ite (fun _ => Keeps.pure True.intro) fun _ => Keeps.fail
  · exact Keeps.pure True.intro

theorem keeps_openFile (path : Path) (options : OpenOptions) :
    Keeps K (Fs.AllBlocks B) (openFile g depth path options) fun _ => True := by
  refine Keeps.ite (fun _ => Keeps.fail) fun _ => Keeps.ite (fun _ => Keeps.fail) fun _ => ?_
  refine Keeps.bind (keeps_parentOf _) fun parent _ => Keeps.bind (keeps_query _) fun owner _ => ?_
  exact Keeps.bind (D.keeps_openEntry ..) fun _ _ => Keeps.pure True.intro

omit D in
theorem keeps_fileRead (f : File) (len : ℕ) :
    Keeps K (Fs.AllBlocks B) (f.read g len) fun _ => True := by
  refine Keeps.ite (fun _ => Keeps.fail) fun _ => ?_
  refine Keeps.ite (fun _ => Keeps.pure True.intro) fun _ => ?_
  exact Keeps.bind (keeps_query _) fun _ _ => Keeps.pure True.intro

omit D in
/-- The account of what is unpublished is no part of the device. -/
theorem keeps_keepAccount {α : Type} {m : FsM α} (hm : Keeps K (Fs.AllBlocks B) m fun _ => True) :
    Keeps K (Fs.AllBlocks B) (File.keepAccount m) fun _ => True := by
  refine Keeps.bind Keeps.get fun s _ => Keeps.bind (Keeps.attempt hm) fun result _ => ?_
  refine Keeps.ite (fun _ => Keeps.pure True.intro) fun _ => ?_
  exact Keeps.seq (keeps_account _) (Keeps.pure True.intro)

omit D in
theorem keeps_keepUnpublished {α : Type} {m : FsM α}
    (hm : Keeps K (Fs.AllBlocks B) m fun _ => True) :
    Keeps K (Fs.AllBlocks B) (File.keepUnpublished m) fun _ => True := by
  refine Keeps.bind Keeps.get fun s _ => Keeps.bind (Keeps.attempt hm) fun result _ => ?_
  refine Keeps.ite (fun _ => Keeps.pure True.intro) fun _ => ?_
  exact Keeps.seq (keeps_account _) (Keeps.pure True.intro)

theorem keeps_fileWrite (f : File) (data : List Byte) :
    Keeps K (Fs.AllBlocks B) (f.write g data) fun _ => True := by
  refine Keeps.ite (fun _ => Keeps.pure True.intro) fun _ => ?_
  refine Keeps.ite (fun _ => Keeps.pure True.intro) fun _ => ?_
  refine Keeps.ite (fun _ => Keeps.pure True.intro) fun _ => ?_
  refine Keeps.bind (keeps_keepAccount (D.keeps_streamCtzExtend ..)) fun result _ => ?_
  split
  · exact Keeps.pure True.intro
  · exact Keeps.pure True.intro

/-- The chunks of a zero extension are appends. -/
theorem keeps_zeroExtend (fuel head size remaining : ℕ) :
    Keeps K (Fs.AllBlocks B) (File.zeroExtend g fuel head size remaining) fun _ => True := by
  induction fuel generalizing head size remaining with
  | zero => exact Keeps.pure True.intro
  | succ fuel ih =>
      refine Keeps.ite (fun _ => Keeps.pure True.intro) fun _ => ?_
      refine Keeps.bind (keeps_keepAccount (D.keeps_streamCtzExtend ..)) fun result _ => ?_
      split
      · exact ih _ _ _
      · exact Keeps.pure True.intro

theorem keeps_fileSetLen (f : File) (newSize : ℕ) :
    Keeps K (Fs.AllBlocks B) (f.setLen g newSize) fun _ => True := by
  refine Keeps.ite (fun _ => Keeps.pure True.intro) fun _ => ?_
  refine Keeps.ite (fun _ => Keeps.pure True.intro) fun _ => Keeps.ite (fun _ => ?_) fun _ => ?_
  · refine Keeps.ite (fun _ => Keeps.seq (keeps_account _) (Keeps.pure True.intro)) fun _ => ?_
    refine Keeps.bind (keeps_keepAccount (D.keeps_shrinkCtzHead ..)) fun result _ => ?_
    split
    · exact Keeps.pure True.intro
    · exact Keeps.pure True.intro
  · refine Keeps.bind (D.keeps_zeroExtend ..) fun result _ => ?_
    split
    split
    · exact Keeps.pure True.intro
    · exact Keeps.pure True.intro

/-- A `sync` is one commit on the pair the handle has. -/
theorem keeps_fileSync (f : File) :
    Keeps K (Fs.AllBlocks B) (f.sync g depth) fun _ => True := by
  refine Keeps.ite (fun _ => Keeps.pure True.intro) fun _ => Keeps.ite (fun _ => ?_) fun _ => ?_
  · refine Keeps.seq (D.keeps_commit True.intro) ?_
    exact Keeps.seq keeps_invalidateAllocCache (Keeps.pure True.intro)
  · refine Keeps.seq (D.keeps_commitUpdateCtz ..) ?_
    exact Keeps.seq keeps_invalidateAllocCache (Keeps.pure True.intro)

/-- One call on a handle. -/
theorem keeps_fileCall (c : FileCall) (f : File) :
    Keeps K (Fs.AllBlocks B) (c.perform g depth f) fun _ => True := by
  cases c with
  | seek target =>
      rw [FileCall.perform]
      split
      · exact Keeps.pure True.intro
      · exact Keeps.pure True.intro
  | read len =>
      refine Keeps.bind (Keeps.attempt (keeps_fileRead ..)) fun result _ => ?_
      split
      · exact Keeps.pure True.intro
      · exact Keeps.pure True.intro
  | write data => exact D.keeps_fileWrite ..
  | setLen size => exact D.keeps_fileSetLen ..
  | sync =>
      refine Keeps.bind (keeps_keepUnpublished (D.keeps_fileSync _)) fun result _ => ?_
      split
      · exact Keeps.pure True.intro
      · exact Keeps.pure True.intro

theorem keeps_performFileCalls (calls : List FileCall) (f : File) :
    Keeps K (Fs.AllBlocks B) (performFileCalls g depth calls f) fun _ => True := by
  induction calls generalizing f with
  | nil => exact Keeps.pure True.intro
  | cons c rest ih =>
      exact Keeps.bind (D.keeps_fileCall c f) fun _ _ => Keeps.seq (ih _) (keeps_lift _).trivial

/-! ## Runs -/

/-- One call on the public surface. -/
theorem keeps_call (c : Call) : Keeps K (Fs.AllBlocks B) (c.perform g depth) fun _ => True := by
  cases c with
  | format => exact D.keeps_format
  | mount => exact D.keeps_mount
  | writeToRoot name content => exact D.keeps_writeToRoot ..
  | writeInlineToRoot name content =>
      exact Keeps.bind Keeps.get fun _ _ => D.keeps_writeInlineToPair ..
  | writeCtzToRoot name content =>
      exact Keeps.bind Keeps.get fun _ _ => D.keeps_writeCtzToPair ..
  | writeToPath path content => exact D.keeps_writeToPath ..
  | truncatePath path newSize scratch => exact D.keeps_truncatePath ..
  | appendToPath path additional scratch => exact D.keeps_appendToPath ..
  | mkdir path => exact D.keeps_mkdir _
  | rmdir path => exact D.keeps_rmdir _
  | removeFromRoot name => exact D.keeps_removeFromRoot _
  | removeAtPath path => exact D.keeps_removeAtPath _
  | setAttr path attrId value => exact D.keeps_setAttr ..
  | removeAttr path attrId => exact D.keeps_removeAttr ..
  | renameInDir oldPath newPath => exact D.keeps_renameInDir ..
  | rename oldPath newPath => exact D.keeps_rename ..
  | withFile path options calls =>
      exact Keeps.bind (D.keeps_openFile ..) fun f _ => D.keeps_performFileCalls ..

/-- Every run keeps the block contents in `B`. -/
theorem keeps_performAll (depth : ℕ) (calls : List Call) :
    Keeps K (Fs.AllBlocks B) (performAll g depth calls) fun _ => True := by
  induction calls with
  | nil => exact Keeps.pure True.intro
  | cons c rest ih => exact Keeps.seq (Keeps.seq (keeps_account _) (D.keeps_call c)) ih

end LogDiscipline

end LittlefsPure
