import LittlefsPure.Inflight.Session

/-!
# Runs and the blocks in flight

Every public operation begins and ends with nothing in flight.  What it programs on the
way is shielded until the commit that names it, so a run that is `Tracked` spares the
blocks in flight in all its allocations and erases.  A run that is not tracked need not:
a split that moves its own pair loses its continuations.

## Why nothing is in flight between two calls

Every operation ends by publishing what it wrote or by giving it up.  A block that is given up is
no longer in flight: nothing will ever name it, and the allocator is free to take it.  A handle is
the exception, as the chain it holds is published by a later call, and the runs of handle calls are
therefore a state of their own, which opening a file enters and dropping the handle leaves.
-/

namespace LittlefsPure

open FsM Logic

variable {g : Geometry} {α β : Type}

/-! ## Operations -/

/-- The program begins with nothing in flight, and ends so when it returns. -/
abbrev Settles (g : Geometry) (m : FsM α) : Prop :=
  Guarded g Settled m (fun _ => Settled) fun _ => True

namespace Settles

variable {m : FsM α}

theorem pure {a : α} : Settles g (Pure.pure a) := Triple.pure fun _ h => h

theorem fail {e : Error} : Settles g (throw e : FsM α) := Triple.fail fun _ _ => True.intro

theorem bind {f : α → FsM β} (hm : Settles g m) (hf : ∀ a, Settles g (f a)) :
    Settles g (m >>= f) := Triple.bind hm hf

theorem seq {m' : FsM β} (hm : Settles g m) (hm' : Settles g m') : Settles g (m >>= fun _ => m') :=
  Triple.seq hm hm'

theorem ite {c : Prop} [Decidable c] {m₁ m₂ : FsM α} (h₁ : c → Settles g m₁)
    (h₂ : ¬ c → Settles g m₂) : Settles g (if c then m₁ else m₂) := Triple.ite h₁ h₂

theorem get : Settles g (MonadStateOf.get : FsM Fs) := Triple.get fun _ h => h

theorem query {f : Device → Except Error α} : Settles g (FsM.query f) :=
  Triple.query (fun _ _ h _ => h) fun _ _ _ _ => True.intro

theorem lift {r : Except Error α} : Settles g (FsM.lift r) :=
  Triple.lift (fun _ _ h _ => h) fun _ _ _ _ => True.intro

/-- A change of what is not the account. -/
theorem modify {f : Fs → Fs} (h : ∀ s, (f s).unpublished = s.unpublished) :
    Settles g (modify f : FsM Unit) := by
  refine Triple.modify fun s hs => ?_
  constructor
  · rw [h]
    exact hs.blocks
  · rw [h]
    exact hs.exposed

theorem invalidate : Settles g invalidateAllocCache := modify fun _ => rfl

/-- A commit that is handed nothing in flight. -/
theorem commit (depth : ℕ) (r : CommitRequest) : Settles g (applyOpToPairInner g depth r) :=
  (spares_applyOpToPairInner depth r [] False).conseq (fun _ hs => ⟨hs.shielded _ _, False.elim⟩)
    (fun _ _ hs => hs.settled) fun _ _ _ => True.intro

/-- Nothing is in flight before, so a chain may be what is in flight. -/
theorem holding {m : FsM α} {head size : ℕ}
    (h : Guarded g (Holding g head size) m (fun _ => Settled) fun _ => True) : Settles g m :=
  h.strengthen fun _ hs => hs.holding head size

end Settles

/-- The commit that publishes what the operation holds. -/
theorem guarded_commit (depth : ℕ) {r : CommitRequest} {known upper : List ℕ}
    {chain : Option (ℕ × ℕ)} (hr : r.inflight = ⟨known, chain⟩) :
    Guarded g (Shielded g known chain upper) (applyOpToPairInner g depth r) (fun _ => Settled)
      (Afloat g chain upper False) := by
  have hcommit := spares_applyOpToPairInner (g := g) depth r upper False
  rw [hr] at hcommit
  exact hcommit.conseq (fun s hs => ⟨hs, False.elim⟩) (fun _ _ hs => hs.settled) fun _ _ h => h

/-- A commit that publishes a chain by handing over its head and size. -/
theorem guarded_commitChain (depth : ℕ) {r : CommitRequest} {head size : ℕ}
    (hr : r.inflight = ⟨[], some (head, size)⟩) :
    Guarded g (Holding g head size) (applyOpToPairInner g depth r) (fun _ => Settled)
      fun _ => True :=
  (Triple.exists_pre fun _ => (guarded_commit depth hr).conseq (fun _ hs => hs) (fun _ _ hs => hs)
    fun _ _ _ => True.intro).strengthen fun _ hs => hs.shielded

theorem guarded_commitUpdateCtz (depth : ℕ) (pair : BlockPair) (id head size : ℕ) :
    Guarded g (Holding g head size) (commitUpdateCtz g depth pair id head size) (fun _ => Settled)
      fun _ => True :=
  guarded_commitChain depth rfl

section Operations

variable (depth : ℕ)

theorem settles_writeInlineToPair (pair : BlockPair) (name content : List Byte) :
    Settles g (writeInlineToPair g depth pair name content) := by
  refine Settles.ite (fun _ => Settles.fail) fun _ => Settles.bind Settles.query fun found => ?_
  split
  · exact Settles.ite (fun _ => Settles.fail) fun _ => Settles.commit ..
  · exact Settles.bind Settles.lift fun _ => Settles.commit ..

/-- Where a file of that name is, or would go, is found without writing. -/
theorem settles_fileTarget (pair : BlockPair) (name : List Byte) :
    Settles g (fileTarget g pair name) := by
  refine Settles.bind Settles.query fun found => ?_
  split
  · exact Settles.ite (fun _ => Settles.fail) fun _ => Settles.pure
  · exact Settles.pure

/-- A file with a chain: the chain is in flight from its first block to the commit. -/
theorem settles_writeCtzToPair (pair : BlockPair) (name content : List Byte) :
    Settles g (writeCtzToPair g depth pair name content) := by
  refine Settles.ite (fun _ => Settles.fail) fun _ => ?_
  refine Settles.bind (settles_fileTarget ..) fun target => ?_
  refine Settles.ite (fun _ => settles_writeInlineToPair ..) fun hzero => ?_
  refine Settles.ite (fun _ => Settles.fail) fun _ => ?_
  -- the chain is in flight from here to the commit
  refine Triple.bind (guarded_allocChain rfl (Nat.pos_of_ne_zero hzero) _ _) fun chain => ?_
  refine Triple.bind (Triple.query (fun _ _ h _ => h) fun _ _ _ _ => True.intro) fun count => ?_
  refine Triple.bind (Triple.lift (fun _ _ h _ => h) fun _ _ _ _ => True.intro) fun op => ?_
  exact guarded_commitChain depth rfl

theorem settles_writeToPair (pair : BlockPair) (name content : List Byte) :
    Settles g (writeToPair g depth pair name content) :=
  Settles.ite (fun _ => settles_writeInlineToPair ..) fun _ => settles_writeCtzToPair ..

theorem settles_writeToRoot (name content : List Byte) :
    Settles g (writeToRoot g depth name content) :=
  Settles.bind Settles.get fun _ => settles_writeToPair ..

theorem settles_parentOf (path : Path) : Settles g (parentOf g path) :=
  Settles.bind Settles.get fun _ => Settles.query

theorem settles_writeToPath (path : Path) (content : List Byte) :
    Settles g (writeToPath g depth path content) :=
  Settles.bind (settles_parentOf _) fun _ => settles_writeToPair ..

theorem settles_truncatePath (path : Path) (newSize scratch : ℕ) :
    Settles g (truncatePath g depth path newSize scratch) := by
  refine Settles.seq Settles.invalidate (Settles.ite (fun _ => Settles.fail) fun _ => ?_)
  refine Settles.bind Settles.get fun s => Settles.bind Settles.query fun current => ?_
  exact Settles.bind Settles.query fun kept => settles_writeToPath ..

/-- An append extends a chain in flight and publishes it, or writes the file anew. -/
theorem settles_appendToPath (hB : 128 ≤ g.blockSize) (path : Path) (additional : List Byte)
    (scratch : ℕ) : Settles g (appendToPath g depth path additional scratch) := by
  refine Settles.ite (fun _ => Settles.pure) fun _ => ?_
  refine Settles.bind (settles_parentOf _) fun parent => ?_
  refine Settles.bind Settles.query fun owner => Settles.bind Settles.query fun layout => ?_
  split
  · exact settles_writeToPath ..
  · refine Settles.ite (fun _ => Settles.fail) fun _ => Settles.ite (fun _ => Settles.fail) fun _ =>
      ?_
    exact settles_writeToPath ..
  · next head size id =>
      have hextend : Guarded g Settled (streamCtzExtend g head size additional)
          (fun r => Holding g r.1 r.2) fun _ => True :=
        (guarded_streamCtzExtend hB additional).conseq
          (fun s hs => ⟨hs.shielded _ _, hs.exposed⟩) (fun _ _ h => h) fun _ _ _ => True.intro
      exact Triple.bind hextend fun r => guarded_commitUpdateCtz ..

/-! ### Directories -/

/-- A candidate pair for a directory: allocated, and nothing is in flight. -/
structure DirCandidate (p : BlockPair) (s : Fs) : Prop where
  settled : Settled s
  cached : ∀ b ∈ [p.a, p.b], s.Cached b

theorem DirCandidate.stable (p : BlockPair) (addr : ℕ) : Stable addr (DirCandidate p) := by
  intro s s' hs hw
  refine ⟨⟨?_, ?_⟩, fun b hb used hused => ?_⟩
  · rw [hw.unpublished]
    exact hs.settled.blocks
  · rw [hw.unpublished]
    exact hs.settled.exposed
  · rw [hw.usedCache] at hused
    exact hs.cached b hb used hused

theorem DirCandidate.spares {p : BlockPair} {s : Fs} (h : DirCandidate p s) (addr : ℕ) :
    addr ∉ s.unpublished.blocks := by
  rw [h.settled.blocks]
  exact List.not_mem_nil

/-- Both blocks of a candidate pair are erased and the first is programmed; a worn one is given
up with the pair. -/
theorem guarded_tryDirPair (tail : Option TailLink) (p : BlockPair) :
    Guarded g (DirCandidate p) (tryDirPair g tail p)
      (fun worn s => match worn with
        | none => Shielded g [p.a, p.b] none [] s
        | some _ => Settled s) fun _ => True := by
  have herase : ∀ addr, Guarded g (DirCandidate p) (eraseBlock addr) (fun _ => DirCandidate p)
      fun _ => True := by
    intro addr
    refine (guarded_eraseBlock fun s hs => hs.spares addr).weaken ?_
    rintro ok s' ⟨s, hs, hw, -⟩
    exact DirCandidate.stable p addr s s' hs hw
  refine Triple.bind (herase _) fun _ => ?_
  refine Triple.ite (fun _ => Triple.pure fun _ h => h.settled) fun _ => ?_
  refine Triple.bind (herase _) fun _ => ?_
  refine Triple.ite (fun _ => Triple.pure fun _ h => h.settled) fun _ => ?_
  refine Triple.bind (R := fun _ => DirCandidate p)
    (Triple.lift (fun _ _ h _ => h) fun _ _ _ _ => True.intro) fun l => ?_
  refine Triple.bind (R := fun _ => DirCandidate p) ?_ fun report => ?_
  · refine (guarded_programBlock _ _).weaken ?_
    rintro report s' ⟨s, hs, hw, -⟩
    exact DirCandidate.stable p _ s s' hs hw
  refine Triple.ite (fun _ => ?_) fun _ => Triple.pure fun _ h => h.settled
  exact Triple.seq (R := Shielded g [p.a, p.b] none [])
    (Triple.modify fun s hs => (hs.settled.shielded [] none).hold hs.cached)
    (Triple.pure fun _ h => h)

theorem guarded_allocDirPair (excluded : List ℕ) :
    Guarded g Settled (allocBlocks g false excluded none 2)
      (fun blocks => DirCandidate ⟨blocks.getD 0 noBlock, blocks.getD 1 noBlock⟩)
      fun _ => True := by
  have h := @guarded_allocBlocks g Settled (fun _ => True) [] excluded [] none nofun
    (fun s cache h => ⟨h.blocks, h.exposed⟩) false 2 fun _ _ _ => True.intro
  refine h.conseq (fun s hs => ⟨hs.shielded _ _, hs⟩) ?_ fun _ _ h => h
  rintro blocks s ⟨-, hs, hfresh⟩
  obtain ⟨a, b, rfl⟩ := List.length_eq_two.1 hfresh.length
  exact ⟨hs, hfresh.cached⟩

/-- A new directory pair is in flight once it is written. -/
theorem guarded_mkdirPair (tail : Option TailLink) (left : ℕ) (excluded : List ℕ) :
    Guarded g Settled (mkdirPair g tail left excluded)
      (fun p => Shielded g [p.a, p.b] none []) fun _ => True := by
  induction left generalizing excluded with
  | zero =>
      unfold mkdirPair
      refine Triple.bind (guarded_allocDirPair excluded) fun blocks => ?_
      refine Triple.bind (guarded_tryDirPair ..) fun worn => ?_
      cases worn with
      | none => exact Triple.pure fun _ h => h
      | some bad => exact Triple.fail fun _ _ => True.intro
  | succ left ih =>
      unfold mkdirPair
      refine Triple.bind (guarded_allocDirPair excluded) fun blocks => ?_
      refine Triple.bind (guarded_tryDirPair ..) fun worn => ?_
      cases worn with
      | none => exact Triple.pure fun _ h => h
      | some bad => exact Triple.seq Settles.invalidate (ih _)

/-- The new pair is in flight until the commit to the parent names it. -/
theorem settles_mkdir (path : Path) : Settles g (mkdir g depth path) := by
  refine Settles.bind (settles_parentOf _) fun parent => Settles.bind Settles.query fun found => ?_
  split
  · exact Settles.fail
  · refine Settles.bind Settles.get fun s => Settles.bind Settles.query fun tail => ?_
    refine Settles.bind Settles.query fun tree => Settles.ite (fun _ => Settles.fail) fun _ => ?_
    -- the new pair is in flight from here to the commit
    refine Triple.bind (guarded_mkdirPair ..) fun p => ?_
    refine Triple.bind (Triple.query (fun _ _ h _ => h) fun _ _ _ _ => True.intro) fun count => ?_
    refine Triple.bind (Triple.lift (fun _ _ h _ => h) fun _ _ _ _ => True.intro) fun id => ?_
    exact (guarded_commit depth rfl).conseq (fun _ hs => hs) (fun _ _ hs => hs)
      fun _ _ _ => True.intro

theorem settles_unthreadAndSteal (pred dropped : BlockPair) :
    Settles g (unthreadAndSteal g depth pred dropped) :=
  Settles.bind Settles.query fun _ => Settles.commit ..

theorem settles_removeFromPair (first : BlockPair) (name : List Byte) :
    Settles g (removeFromPair g depth first name) := by
  refine Settles.seq Settles.invalidate (Settles.ite (fun _ => Settles.fail) fun _ => ?_)
  refine Settles.bind Settles.query fun found => ?_
  split
  · exact Settles.commit ..
  · exact Settles.fail

theorem settles_removeFromRoot (name : List Byte) : Settles g (removeFromRoot g depth name) :=
  Settles.bind Settles.get fun _ => settles_removeFromPair ..

theorem settles_removeAtPath (path : Path) : Settles g (removeAtPath g depth path) := by
  refine Settles.bind (settles_parentOf _) fun parent => Settles.bind Settles.query fun found => ?_
  split
  · exact Settles.fail
  · exact settles_removeFromPair ..
  · exact Settles.fail

theorem settles_rmdir (path : Path) : Settles g (rmdir g depth path) := by
  refine Settles.bind (settles_parentOf _) fun parent => Settles.bind Settles.query fun found => ?_
  split
  · exact Settles.fail
  · refine Settles.ite (fun _ => Settles.fail) fun _ => Settles.bind Settles.query fun dirPair => ?_
    refine Settles.bind Settles.query fun entries => Settles.ite (fun _ => Settles.fail) fun _ => ?_
    refine Settles.seq (settles_removeFromPair ..) (Settles.bind Settles.get fun s => ?_)
    refine Settles.bind Settles.query fun pred => ?_
    split
    · exact settles_unthreadAndSteal ..
    · exact Settles.pure

/-! ### Attributes and renaming -/

theorem settles_entryAt (path : Path) : Settles g (entryAt g path) := by
  refine Settles.bind (settles_parentOf _) fun parent => Settles.bind Settles.query fun found => ?_
  split
  · exact Settles.pure
  · exact Settles.fail

theorem settles_setAttr (path : Path) (attrId : ℕ) (value : List Byte) :
    Settles g (setAttr g depth path attrId value) :=
  Settles.ite (fun _ => Settles.fail) fun _ =>
    Settles.bind (settles_entryAt _) fun _ => Settles.commit ..

theorem settles_removeAttr (path : Path) (attrId : ℕ) :
    Settles g (removeAttr g depth path attrId) :=
  Settles.bind (settles_entryAt _) fun _ => Settles.commit ..

theorem settles_renameInDir (oldPath newPath : Path) :
    Settles g (renameInDir g depth oldPath newPath) := by
  refine Settles.seq Settles.invalidate ?_
  refine Settles.bind (settles_parentOf _) fun old => Settles.bind (settles_parentOf _) fun new =>
    ?_
  refine Settles.ite (fun _ => Settles.fail) fun _ => Settles.ite (fun _ => Settles.pure) fun _ =>
    ?_
  refine Settles.bind Settles.query fun source => ?_
  split
  · exact Settles.fail
  · refine Settles.bind Settles.query fun target => ?_
    split
    · exact Settles.fail
    · exact Settles.commit ..

theorem settles_setPendingMove (pm : Option PendingMove) : Settles g (setPendingMove pm) :=
  Settles.modify fun _ => rfl

/-- A rename across directories is two commits, with nothing in flight between them. -/
theorem settles_rename (oldPath newPath : Path) : Settles g (rename g depth oldPath newPath) := by
  refine Settles.seq Settles.invalidate ?_
  refine Settles.bind (settles_parentOf _) fun old => Settles.bind (settles_parentOf _) fun new =>
    ?_
  refine Settles.ite (fun _ => settles_renameInDir ..) fun _ => ?_
  refine Settles.ite (fun _ => Settles.fail) fun _ => Settles.bind Settles.query fun found => ?_
  split
  · exact Settles.fail
  · refine Settles.bind Settles.query fun src => Settles.bind Settles.query fun target => ?_
    split
    · exact Settles.fail
    · refine Settles.bind Settles.lift fun id => Settles.bind Settles.lift fun op => ?_
      refine Settles.seq (settles_setPendingMove _) ?_
      -- a failed commit ends the call, whatever it has left in flight
      refine Triple.bind (R := fun result s => ∀ u, result = .ok u → Settled s) ?_ fun result => ?_
      · refine Triple.attempt ((Settles.commit depth _).conseq (fun _ h => h) ?_ ?_)
        · exact fun _ _ hs _ _ => hs
        · exact fun _ _ _ _ hu => absurd hu (by simp)
      refine Triple.bind (R := fun _ s => ∀ u, result = .ok u → Settled s)
        (Triple.get fun _ h => h) fun s => ?_
      refine Triple.seq (R := fun s => ∀ u, result = .ok u → Settled s) (Triple.modify ?_) ?_
      · intro s hs u hu
        exact ⟨(hs u hu).blocks, (hs u hu).exposed⟩
      refine Triple.bind (R := fun _ => Settled) ?_ fun _ => Settles.commit ..
      exact Triple.lift (fun s u hs hu => hs u hu) fun _ _ _ _ => True.intro

/-! ### Format and mount -/

theorem settles_eraseBlock (addr : ℕ) : Settles g (eraseBlock addr) := by
  refine (guarded_eraseBlock fun s hs => ?_).weaken ?_
  · rw [hs.blocks]
    exact List.not_mem_nil
  · rintro ok s' ⟨s, hs, hw, -⟩
    exact ⟨by rw [hw.unpublished]; exact hs.blocks, by rw [hw.unpublished]; exact hs.exposed⟩

theorem settles_programLog (addr : ℕ) (l : MetadataLog) : Settles g (programLog addr l) := by
  refine (guarded_programBlock _ _).weaken ?_
  rintro report s' ⟨s, hs, hw, -⟩
  exact ⟨by rw [hw.unpublished]; exact hs.blocks, by rw [hw.unpublished]; exact hs.exposed⟩

theorem settles_format : Settles g (LittlefsPure.format g) := by
  refine Settles.bind Settles.lift fun _ => Settles.bind Settles.lift fun l => ?_
  refine Settles.bind (settles_eraseBlock _) fun _ => Settles.ite (fun _ => Settles.fail) fun _ =>
    ?_
  refine Settles.bind (settles_programLog ..) fun _ => Settles.ite (fun _ => Settles.fail) fun _ =>
    ?_
  refine Settles.bind (settles_eraseBlock _) fun _ => Settles.ite (fun _ => Settles.fail) fun _ =>
    ?_
  exact Settles.pure

theorem settles_recoverMoveOf (state : Gstate) : Settles g (recoverMoveOf g depth state) := by
  unfold recoverMoveOf
  split
  · refine Settles.ite (fun _ => ?_) fun _ => Settles.fail
    refine Settles.bind Settles.get fun s => Settles.bind Settles.query fun tree => ?_
    refine Settles.bind Settles.query fun target => Settles.bind Settles.query fun count => ?_
    exact Settles.ite (fun _ => Settles.fail) fun _ => Settles.commit ..
  · exact Settles.pure

theorem settles_recoverRelocationOf (state : Gstate) :
    Settles g (recoverRelocationOf g depth state) := by
  unfold recoverRelocationOf
  split
  · exact Settles.ite (fun _ => Settles.commit ..) fun _ => Settles.fail
  · exact Settles.pure

theorem settles_deorphanFrom (tree : List BlockPair) (fuel : ℕ) (cur : BlockPair)
    (visited : List BlockPair) : Settles g (deorphanFrom g depth tree fuel cur visited) := by
  induction fuel generalizing cur visited with
  | zero => exact Settles.pure
  | succ fuel ih =>
      refine Settles.bind Settles.query fun p => ?_
      split
      · exact Settles.pure
      · refine Settles.ite (fun _ => ?_) fun _ => ?_
        · exact Settles.ite (fun _ => Settles.pure) fun _ => ih _ _
        · refine Settles.bind Settles.query fun twin => ?_
          split
          · exact Settles.seq (Settles.commit ..) (Settles.seq Settles.invalidate (ih _ _))
          · exact Settles.seq (settles_unthreadAndSteal ..)
              (Settles.seq Settles.invalidate (ih _ _))

/-- A mount recovers a move and a relocation and sweeps the orphans; each commit that it makes is
handed nothing in flight. -/
theorem settles_mount : Settles g (mount g depth) := by
  refine Settles.bind Settles.query fun sb => Settles.seq (Settles.modify fun _ => rfl) ?_
  refine Settles.bind Settles.query fun state => ?_
  refine Settles.seq (settles_recoverMoveOf ..) (Settles.seq (settles_recoverRelocationOf ..) ?_)
  exact Settles.bind Settles.get fun s => Settles.bind Settles.query fun tree =>
    settles_deorphanFrom ..

/-! ### File handles -/

theorem settles_openEntry (parent owner : BlockPair) (name : List Byte) (options : OpenOptions) :
    Settles g (openEntry g depth parent owner name options) := by
  refine Settles.bind Settles.query fun layout => ?_
  split
  · refine Settles.ite (fun _ => ?_) fun _ => Settles.fail
    refine Settles.bind ?_ fun _ => Settles.pure
    refine Settles.seq (settles_writeInlineToPair ..) (Settles.bind Settles.query fun found => ?_)
    split
    · exact Settles.pure
    · exact Settles.fail
  · exact Settles.ite (fun _ => Settles.pure) fun _ => Settles.fail
  · exact Settles.pure

/-- A file that is opened holds what its entry names, of which nothing is in flight. -/
theorem guarded_openFile (path : Path) (options : OpenOptions) :
    Guarded g Settled (openFile g depth path options) (fun f => f.Held g) fun _ => True := by
  refine Triple.ite (fun _ => Triple.fail fun _ _ => True.intro) fun _ =>
    Triple.ite (fun _ => Triple.fail fun _ _ => True.intro) fun _ => ?_
  refine Triple.bind (settles_parentOf _) fun parent => Triple.bind Settles.query fun owner => ?_
  exact Triple.bind (settles_openEntry ..) fun _ => Triple.pure fun s hs => hs.holding _ _

/-- A `sync` publishes the chain, and leaves it in flight when it fails before that. -/
theorem guarded_sync (f : File) (upper : List ℕ) :
    Guarded g (fun s => Shielded g [] (some (f.headBlock, f.size)) upper s ∧
        s.unpublished.exposed = [])
      (f.sync g depth) (fun f' => f'.Held g)
      (Afloat g (some (f.headBlock, f.size)) upper False) := by
  refine Triple.ite (fun _ => Triple.pure fun s hs => ⟨hs.2, upper, hs.1⟩) fun _ =>
    Triple.ite (fun hnone => ?_) fun _ => ?_
  · -- a handle without a head holds nothing
    have hnothing : ∀ s, (Shielded g [] (some (f.headBlock, f.size)) upper s ∧
        s.unpublished.exposed = []) → Settled s ∧ upper = [] := by
      intro s hs
      have hheld : Holding g f.headBlock f.size s := ⟨hs.2, upper, hs.1⟩
      rw [hnone] at hheld
      refine ⟨hheld.settled, List.eq_nil_iff_forall_not_mem.2 fun b hb => ?_⟩
      have hmem := hs.1.held b hb
      rw [hheld.settled.blocks] at hmem
      cases hmem
    refine Triple.strengthen (Triple.pre fun hempty => ?_) hnothing
    subst hempty
    refine Triple.seq (R := Settled) ((Settles.commit depth _).conseq (fun _ hs => hs)
      (fun _ _ hs => hs) fun _ _ _ => .inr ⟨not_false, ?_, upperChain_nil⟩) ?_
    · exact fun b hb => absurd hb List.not_mem_nil
    exact Triple.seq (R := Settled)
      (guarded_invalidateAllocCache fun s hs => ⟨hs.blocks, hs.exposed⟩)
      (Triple.pure fun s hs => hs.holding _ _)
  · refine Triple.seq (R := Settled) ((guarded_commit depth rfl).strengthen fun s hs => hs.1) ?_
    exact Triple.seq (R := Settled)
      (guarded_invalidateAllocCache fun s hs => ⟨hs.blocks, hs.exposed⟩)
      (Triple.pure fun s hs => hs.holding _ _)

theorem guarded_read (f : File) (len : ℕ) :
    Guarded g (f.Held g) (f.read g len) (fun r => r.1.Held g) (f.Held g) := by
  refine Triple.ite (fun _ => Triple.fail fun _ h => h) fun _ =>
    Triple.ite (fun _ => Triple.pure fun _ h => h) fun _ => ?_
  exact Triple.bind (Triple.query (fun _ _ h _ => h) fun _ _ h _ => h) fun _ =>
    Triple.pure fun _ h => h

theorem seek_held {f f' : File} {target : SeekFrom} (h : f.seek target = .ok f') :
    f'.Held g = f.Held g := by
  simp only [File.seek] at h
  split_ifs at h
  cases h
  rfl

/-- One call on a handle: behind it, failed or not, the handle holds its chain. -/
theorem guarded_fileCall (hB : 128 ≤ g.blockSize) (c : FileCall) (f : File) :
    Guarded g (f.Held g) (c.perform g depth f) (fun r => r.1.Held g) fun _ => True := by
  cases c with
  | seek target =>
      rw [FileCall.perform]
      cases hseek : f.seek target with
      | ok f' => exact Triple.pure fun s hs => by rw [seek_held hseek]; exact hs
      | error e => exact Triple.pure fun _ h => h
  | read len =>
      refine Triple.bind (R := fun result s => match result with
        | .ok r => r.1.Held g s
        | .error _ => f.Held g s) (Triple.attempt (guarded_read f len)) fun result => ?_
      cases result with
      | ok r => exact Triple.pure fun _ h => h
      | error e => exact Triple.pure fun _ h => h
  | write data => exact guarded_write hB f data
  | setLen size => exact guarded_setLen hB f size
  | sync =>
      refine Triple.bind (guarded_keepUnpublished (guarded_sync depth f)) fun result => ?_
      cases result with
      | ok f' => exact Triple.pure fun _ h => h
      | error e => exact Triple.pure fun _ h => h

/-- The calls on a handle in turn. -/
theorem guarded_performFileCalls (hB : 128 ≤ g.blockSize) (calls : List FileCall) (f : File) :
    Guarded g (f.Held g) (performFileCalls g depth calls f) (fun _ _ => True) fun _ => True := by
  induction calls generalizing f with
  | nil => exact Triple.pure fun _ _ => True.intro
  | cons c rest ih =>
      refine Triple.bind (guarded_fileCall depth hB c f) fun r => Triple.seq (ih _) ?_
      exact Triple.lift (fun _ _ _ _ => True.intro) fun _ _ _ _ => True.intro

/-! ### Runs -/

theorem Settles.anyhow {m : FsM Unit} (h : Settles g m) :
    Guarded g Settled m (fun _ _ => True) fun _ => True := h.weaken fun _ _ _ => True.intro

/-- One call on the public surface. -/
theorem guarded_call (hB : 128 ≤ g.blockSize) (c : Call) :
    Guarded g Settled (c.perform g depth) (fun _ _ => True) fun _ => True := by
  cases c with
  | format => exact settles_format.anyhow
  | mount => exact (settles_mount depth).anyhow
  | writeToRoot name content => exact (settles_writeToRoot ..).anyhow
  | writeInlineToRoot name content =>
      exact (Settles.bind Settles.get fun _ => settles_writeInlineToPair ..).anyhow
  | writeCtzToRoot name content =>
      exact (Settles.bind Settles.get fun _ => settles_writeCtzToPair ..).anyhow
  | writeToPath path content => exact (settles_writeToPath ..).anyhow
  | truncatePath path newSize scratch => exact (settles_truncatePath ..).anyhow
  | appendToPath path additional scratch => exact (settles_appendToPath depth hB ..).anyhow
  | mkdir path => exact (settles_mkdir ..).anyhow
  | rmdir path => exact (settles_rmdir ..).anyhow
  | removeFromRoot name => exact (settles_removeFromRoot ..).anyhow
  | removeAtPath path => exact (settles_removeAtPath ..).anyhow
  | setAttr path attrId value => exact (settles_setAttr ..).anyhow
  | removeAttr path attrId => exact (settles_removeAttr ..).anyhow
  | renameInDir oldPath newPath => exact (settles_renameInDir ..).anyhow
  | rename oldPath newPath => exact (settles_rename ..).anyhow
  | withFile path options calls =>
      exact Triple.bind (guarded_openFile ..) fun f => guarded_performFileCalls depth hB calls f

/-- A call starts with nothing in flight, whatever the call before it left. -/
theorem guarded_start (hB : 128 ≤ g.blockSize) (c : Call) :
    Guarded g (fun _ => True) (c.start g depth) (fun _ _ => True) fun _ => True :=
  Triple.seq (R := Settled) (Triple.modify fun _ _ => ⟨rfl, rfl⟩) (guarded_call depth hB c)

/-- Calls in turn, whichever of them fail. -/
theorem guarded_attemptAll (hB : 128 ≤ g.blockSize) (calls : List Call) :
    Guarded g (fun _ => True) (attemptAll g depth calls) (fun _ _ => True) fun _ => True := by
  induction calls with
  | nil => exact Triple.pure fun _ _ => True.intro
  | cons c rest ih =>
      refine Triple.bind (R := fun _ _ => True) (Triple.attempt (guarded_start depth hB c)) fun _ =>
        ?_
      exact ih

end Operations

/-- A run of any calls, from any state and with any faults, whose events are tracked spares
the blocks in flight: no allocation hands one out and no erase hits one. -/
theorem attemptAll_sparesInflight (hg : g.Admitted) (depth : ℕ) (calls : List Call) (s : Fs)
    (htracked : AllEvents (Event.Tracked g) (attemptAll g depth calls s).events) :
    AllEvents Event.SparesInflight (attemptAll g depth calls s).events :=
  ((guarded_attemptAll depth hg.blockSize_floor calls).post s True.intro htracked).1

/-- A write with a chain, a directory and an extension of the file, where one program fails. -/
theorem attemptAll_sparesInflight_small :
    AllEvents Event.SparesInflight (attemptAll ⟨16, 16, 128, 32, 500⟩ 2
      [.format, .mount, .writeToRoot [0x66] (List.replicate 200 7), .mkdir ⟨[[0x64]], by decide⟩,
        .appendToPath ⟨[[0x66]], by decide⟩ (List.replicate 100 8) 0]
      (Fs.init ⟨16, 16, 128, 32, 500⟩ (Device.blank 32)
        (List.replicate 4 .done ++ [.failed .nothing]))).events :=
  attemptAll_sparesInflight
    ⟨by decide, by decide, by decide, by decide, by decide, by decide, by decide⟩
    2 _ _ (by decide +kernel)

/-! ## A continuation that is lost -/

/-- Twenty-four blocks of 256 bytes, with every block due to move at its next rebuild. -/
def splitGeometry : Geometry := ⟨16, 16, 256, 24, 1⟩

def outerDir : Path := ⟨[[0x44]], by decide⟩

def innerDir : Path := ⟨[[0x44], [0x45]], by decide⟩

def innerFile (i : Fin 10) : Path :=
  ⟨[[0x44], [0x45], [BitVec.ofNat 8 (0x61 + i)]], by revert i; decide⟩

/-- A directory in a directory, ten attribute writes on the inner one, and ten files in it. -/
def splitCalls : List Call :=
  [.format, .mount, .mkdir outerDir, .mkdir innerDir] ++
    List.replicate 10 (.setAttr innerDir 1 [9, 9, 9, 9]) ++
    (List.finRange 10).map fun i => .writeToPath (innerFile i) [1, 2, 3, 4]

/-- One device call fails: the erase of the alternate block of the pair that splits. -/
def splitScript : List Outcome := List.replicate 35 .done ++ [.failed .nothing]

set_option maxRecDepth 100000 in
/-- The split moves its pair, and the commit to the parent is handed a block of the
continuation. -/
theorem attemptAll_loses_continuation : splitGeometry.Admitted ∧
    ¬ AllEvents Event.SparesInflight (attemptAll splitGeometry 6 splitCalls
      (Fs.init splitGeometry (Device.blank 24) splitScript)).events := by
  refine ⟨⟨by decide, by decide, by decide, by decide, by decide, by decide, by decide⟩, ?_⟩
  decide +kernel

end LittlefsPure
