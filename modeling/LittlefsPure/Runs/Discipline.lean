import LittlefsPure.Fs.Run
import LittlefsPure.Logic.Except

/-!
# What a run leaves on the blocks

A property of block contents holds on the whole device at the end of a run when it
holds of everything the filesystem writes: of plain bytes, of what a torn program
leaves, and of the logs the commit engine builds.  `LogDiscipline` lists these
obligations, the ones about commits under a condition `K` on the recorded events,
and `LogDiscipline.performAll` is the result for runs.

The proof follows the programs, one lemma for each function that writes.

## Why the events carry a condition

Some of what a commit needs is not an invariant of the blocks: that an append has room for one more
slot, say, depends on the request.  Such conditions are asked of the events of a run, where an
append and a rebuild are recorded with what they are about to do, and a run is spoken of as long as
its events meet them.  With the trivial condition the result is one about all runs.
-/

namespace LittlefsPure

open FsM Logic

/-- A renaming puts a NAME tag on an existing slot; nothing is asked of the other
operations. -/
def WriteOp.WellFormed : WriteOp → Prop
  | .renameInPlace id nameType _ => id < maxLiveEntries ∧ nameType.isName = true
  | _ => True

/-- The block contents `B` that every write of a run keeps to, as long as its events
meet `K`. -/
structure LogDiscipline (g : Geometry) (B : Block → Prop) (K : Event → Prop) : Prop where
  raw : ∀ bytes, B (.raw bytes)
  /-- A torn program of a whole log. -/
  torn : ∀ revision, B (.log ⟨revision, [], false⟩)
  /-- A torn append. -/
  dirty : ∀ l slots, gatherLiveSlots l = .ok slots → B (.log { l with erased := false })
  format : ∀ l, formatLog g = .ok l → B (.log l)
  emptyDir : ∀ tail l, emptyDirLog g tail = .ok l → B (.log l)
  append : ∀ l slots r l', gatherLiveSlots l = .ok slots → r.op.WellFormed →
    K (.append l slots r.op) → buildAppend g l r = .ok l' → B (.log l')
  rebuild : ∀ l (r : Rebuild) lo hi l', gatherLiveSlots l = .ok r.slots → r.op.WellFormed →
    K (.rebuild r.source r.slots r.op lo hi) → r.build g lo hi = .ok l' → B (.log l')

/-- Every block of the device holds a content in `B`. -/
def Fs.AllBlocks (B : Block → Prop) (s : Fs) : Prop := ∀ addr, B (s.device.get addr)

/-- A commit function that keeps the blocks in `B`. -/
def KeepsCommits (B : Block → Prop) (K : Event → Prop) (commit : CommitFn) : Prop :=
  ∀ r : CommitRequest, r.op.WellFormed → Keeps K (Fs.AllBlocks B) (commit r) fun _ => True

/-- Slots gathered from a log, and an operation to apply to them. -/
def Gathered (slots : Roster Slot) (op : WriteOp) : Prop :=
  (∃ l, gatherLiveSlots l = .ok slots) ∧ op.WellFormed

namespace LogDiscipline

variable {g : Geometry} {B : Block → Prop} {K : Event → Prop}

/-! ## Device calls -/

/-- The one place where the model changes the device: a block with the property takes the
place of another. -/
theorem keeps_putBlock {addr : ℕ} {b : Block} (hb : B b) :
    Keeps K (Fs.AllBlocks B) (putBlock addr b) fun _ => True := by
  refine Keeps.modify fun s hs x => ?_
  by_cases hx : addr = x
  · subst hx
    by_cases hlt : addr < s.device.blocks.length
    · rw [Device.get_write_self hlt]
      exact hb
    · have hsame : s.device.write addr b = s.device := by
        simp only [Device.write, List.set_eq_of_length_le (Nat.le_of_not_lt hlt)]
      rw [hsame]
      exact hs addr
  · rw [Device.get_write_ne _ hx]
    exact hs x

/-- The script of outcomes is no part of the device. -/
theorem keeps_nextOutcome : Keeps K (Fs.AllBlocks B) nextOutcome fun _ => True := by
  refine Keeps.bind Keeps.get fun s hs => ?_
  split
  · exact Keeps.pure True.intro
  · exact Keeps.seq (Keeps.set hs) (Keeps.pure True.intro)

/-! ## The handle -/

/-- A read of the device, when nothing is said about what it finds. -/
theorem keeps_query {α : Type} {I : Fs → Prop} (f : Device → Except Error α) :
    Keeps K I (FsM.query f) fun _ => True :=
  Keeps.query fun _ _ _ _ => True.intro

theorem keeps_lift {α : Type} {I : Fs → Prop} (r : Except Error α) :
    Keeps K I (lift r : FsM α) fun a => r = .ok a :=
  Keeps.lift fun _ h => h

theorem keeps_invalidateAllocCache :
    Keeps K (Fs.AllBlocks B) invalidateAllocCache fun _ => True :=
  Keeps.modify fun _ hs => hs

theorem keeps_account (f : Unpublished → Unpublished) :
    Keeps K (Fs.AllBlocks B) (account f) fun _ => True :=
  Keeps.modify fun _ hs => hs

/-- An allocation changes the cache only. -/
theorem keeps_allocBlocks (singleBuf : Bool) (excluded : List ℕ) (chain : Option (ℕ × ℕ))
    (want : ℕ) :
    Keeps K (Fs.AllBlocks B) (allocBlocks g singleBuf excluded chain want) fun _ => True := by
  refine Keeps.bind Keeps.get fun s hs => ?_
  refine Keeps.seq (Keeps.set hs) (Keeps.bind (keeps_lift _) fun blocks _ => ?_)
  exact Keeps.seq Keeps.note (Keeps.pure True.intro)

theorem keeps_allocOneBlock (excluded : List ℕ) (chain : Option (ℕ × ℕ)) :
    Keeps K (Fs.AllBlocks B) (allocOneBlock g excluded chain) fun _ => True :=
  Keeps.bind (keeps_allocBlocks true excluded chain 1) fun _ _ => Keeps.pure True.intro

theorem keeps_fitExcluded (capacity : ℕ) (blocks : List ℕ) :
    Keeps K (Fs.AllBlocks B) (fitExcluded capacity blocks) fun _ => True :=
  Keeps.ite (fun _ => Keeps.fail) fun _ => Keeps.pure True.intro

variable (D : LogDiscipline g B K)
include D

/-- An erase leaves raw bytes, torn or not. -/
theorem keeps_eraseBlock (addr : ℕ) :
    Keeps K (Fs.AllBlocks B) (eraseBlock addr) fun _ => True := by
  refine Keeps.bind Keeps.get fun s _ => Keeps.ite (fun _ => ?_) fun _ => Keeps.pure True.intro
  refine Keeps.seq Keeps.note (Keeps.bind keeps_nextOutcome fun o _ => ?_)
  split
  · exact Keeps.seq (keeps_putBlock (D.raw _)) (Keeps.pure True.intro)
  · exact Keeps.pure True.intro
  · exact Keeps.seq (keeps_putBlock (D.raw _)) (Keeps.pure True.intro)
  · exact Keeps.seq (keeps_putBlock (D.raw _)) (Keeps.pure True.intro)
  · exact Keeps.seq (keeps_putBlock (D.raw _)) (Keeps.pure True.intro)

omit D in
/-- A program leaves what it was to write, what a torn one leaves, or what was there. -/
theorem keeps_programBlock {addr : ℕ} {torn : ℕ → Block} {after : Block} (ht : ∀ n, B (torn n))
    (ha : B after) : Keeps K (Fs.AllBlocks B) (programBlock addr torn after) fun _ => True := by
  refine Keeps.bind Keeps.get fun s _ => Keeps.ite (fun _ => ?_) fun _ => Keeps.pure True.intro
  refine Keeps.seq Keeps.note (Keeps.bind keeps_nextOutcome fun o _ => ?_)
  unfold landProgram
  split
  · exact Keeps.seq (keeps_putBlock ha) (Keeps.pure True.intro)
  · exact Keeps.pure True.intro
  · exact Keeps.seq (keeps_putBlock (ht _)) (Keeps.pure True.intro)
  · exact Keeps.seq (keeps_putBlock ha) (Keeps.pure True.intro)
  · exact Keeps.seq (keeps_putBlock ha) (Keeps.pure True.intro)
  · exact Keeps.seq (keeps_putBlock (ht _)) (Keeps.pure True.intro)

theorem keeps_programLog {addr : ℕ} {l : MetadataLog} (hl : B (.log l)) :
    Keeps K (Fs.AllBlocks B) (programLog addr l) fun _ => True :=
  keeps_programBlock (fun _ => D.torn _) hl

theorem keeps_programBytes (addr off : ℕ) (data : List Byte) :
    Keeps K (Fs.AllBlocks B) (programBytes addr off data) fun _ => True :=
  Keeps.bind Keeps.get fun _ _ =>
    Keeps.seq Keeps.note (keeps_programBlock (fun _ => D.raw _) (D.raw _))

/-- A log on a block of its own. -/
theorem keeps_eraseAndProgramLog {addr : ℕ} {l : MetadataLog} (hl : B (.log l)) :
    Keeps K (Fs.AllBlocks B) (eraseAndProgramLog addr l) fun _ => True :=
  Keeps.bind (D.keeps_eraseBlock addr) fun _ _ =>
    Keeps.ite (fun _ => Keeps.bind (D.keeps_programLog hl) fun _ _ => Keeps.pure True.intro)
      fun _ => Keeps.pure True.intro

theorem keeps_eraseAndProgramBytes (addr : ℕ) (data : List Byte) :
    Keeps K (Fs.AllBlocks B) (eraseAndProgramBytes addr data) fun _ => True :=
  Keeps.bind (D.keeps_eraseBlock addr) fun _ _ =>
    Keeps.ite (fun _ => Keeps.bind (D.keeps_programBytes addr 0 data) fun _ _ =>
      Keeps.pure True.intro) fun _ => Keeps.pure True.intro

/-! ## The commit engine -/

/-- The only logs that a rebuild programs come from here, and each is recorded first, which is
where the condition on the events comes in. -/
theorem keeps_buildRange {r : Rebuild} (hr : Gathered r.slots r.op) (lo hi : ℕ) :
    Keeps K (Fs.AllBlocks B) (buildRange g r lo hi) fun l => B (.log l) := by
  obtain ⟨⟨l₀, hl₀⟩, hop⟩ := hr
  refine Keeps.bind (keeps_lift _) fun l hl => Keeps.bind Keeps.note fun _ hK => Keeps.pure ?_
  exact D.rebuild l₀ r lo hi l hl₀ hop hK hl

/-- Each turn tries another block; the log is the same throughout. -/
theorem keeps_relocateLoop {r : Rebuild} (hr : Gathered r.slots r.op) (pairAddr : BlockPair)
    (victim lo hi : ℕ) (chain : Option (ℕ × ℕ)) (left : ℕ) (excluded : List ℕ)
    (seed : Option ℕ) :
    Keeps K (Fs.AllBlocks B) (relocateLoop g pairAddr victim r lo hi chain left excluded seed)
      fun _ => True := by
  induction left generalizing excluded seed with
  | zero => exact Keeps.fail
  | succ left ih =>
      have hseed : Keeps K (Fs.AllBlocks B) (freshOrSeed g seed excluded chain) fun _ => True := by
        cases seed with
        | none => exact keeps_allocOneBlock excluded chain
        | some s => exact Keeps.pure True.intro
      refine Keeps.bind hseed fun fresh _ => ?_
      refine Keeps.bind (D.keeps_buildRange (by exact hr) lo hi) fun l hl => ?_
      refine Keeps.bind (D.keeps_eraseAndProgramLog hl) fun ok _ => ?_
      refine Keeps.seq keeps_invalidateAllocCache ?_
      refine Keeps.ite (fun _ => Keeps.seq (keeps_account _) (Keeps.pure True.intro)) fun _ => ?_
      exact Keeps.ite (fun _ => Keeps.fail) fun _ => ih _ _

theorem keeps_relocateCompactToFresh {r : Rebuild} (hr : Gathered r.slots r.op)
    (pairAddr : BlockPair)
    (victim lo hi : ℕ) (inflight : Inflight) (seed : Option ℕ) :
    Keeps K (Fs.AllBlocks B) (relocateCompactToFresh g pairAddr victim r lo hi inflight seed)
      fun _ => True :=
  Keeps.seq (keeps_fitExcluded ..) (D.keeps_relocateLoop hr ..)

/-- A continuation is written on both halves. -/
theorem keeps_tryContinuation {ca cb : ℕ} {l : MetadataLog} (hl : B (.log l)) :
    Keeps K (Fs.AllBlocks B) (tryContinuation ca cb l) fun _ => True := by
  refine Keeps.bind (D.keeps_eraseAndProgramLog hl) fun ok _ => ?_
  refine Keeps.ite (fun _ => ?_) fun _ => Keeps.pure True.intro
  refine Keeps.seq (keeps_account _) (Keeps.bind (D.keeps_eraseBlock cb) fun ok _ => ?_)
  refine Keeps.ite (fun _ => ?_) fun _ => ?_
  · exact Keeps.seq (keeps_account _) (Keeps.pure True.intro)
  · exact Keeps.seq (keeps_account _) (Keeps.pure True.intro)

theorem keeps_programSplitContinuation {r : Rebuild} (hr : Gathered r.slots r.op) (lo hi : ℕ)
    (chain : Option (ℕ × ℕ)) (left : ℕ) (excluded : List ℕ) :
    Keeps K (Fs.AllBlocks B) (programSplitContinuation g r lo hi chain left excluded)
      fun _ => True := by
  induction left generalizing excluded with
  | zero => exact Keeps.fail
  | succ left ih =>
      refine Keeps.bind (keeps_allocOneBlock _ _) fun ca _ => ?_
      refine Keeps.ite (fun _ => Keeps.fail) fun _ => ?_
      refine Keeps.bind (keeps_allocOneBlock _ _) fun cb _ => ?_
      refine Keeps.bind (D.keeps_buildRange (by exact hr) lo hi) fun l hl => ?_
      refine Keeps.bind (D.keeps_tryContinuation hl) fun worn _ => ?_
      cases worn with
      | none => exact Keeps.pure True.intro
      | some bad =>
          refine Keeps.seq keeps_invalidateAllocCache ?_
          exact Keeps.ite (fun _ => Keeps.fail) fun _ => ih _

/-- The cut loop rebuilds one range after another, each from the same slots. -/
theorem keeps_cutLoop {r : Rebuild} (hr : Gathered r.slots r.op) (chain : Option (ℕ × ℕ))
    (cuts cut stop left : ℕ) (excluded : List ℕ) :
    Keeps K (Fs.AllBlocks B) (cutLoop g r chain cuts cut stop left excluded) fun _ => True := by
  induction cuts generalizing r cut stop left excluded with
  | zero => exact Keeps.fail
  | succ cuts ih =>
      refine Keeps.bind (D.keeps_programSplitContinuation hr cut stop chain left excluded)
        fun x _ => ?_
      refine Keeps.ite (fun _ => Keeps.fail) fun _ => ?_
      refine Keeps.ite (fun _ => Keeps.pure True.intro) fun _ => ?_
      refine Keeps.bind (keeps_lift _) fun next _ => ?_
      exact Keeps.ite (fun _ => Keeps.pure True.intro) fun _ => ih (by exact hr) ..

theorem keeps_finishSplitLowerHalf {r : Rebuild} (hr : Gathered r.slots r.op) (v : PairView)
    (split : ℕ)
    (cont : BlockPair) (excludedConts : List ℕ) (chain : Option (ℕ × ℕ)) :
    Keeps K (Fs.AllBlocks B) (finishSplitLowerHalf g v r split cont excludedConts chain)
      fun _ => True := by
  refine Keeps.bind (D.keeps_buildRange (by exact hr) 0 split) fun l hl => ?_
  refine Keeps.bind (D.keeps_eraseAndProgramLog hl) fun ok _ => Keeps.ite (fun _ => ?_) fun _ => ?_
  · refine Keeps.seq (keeps_account _) ?_
    exact Keeps.seq keeps_invalidateAllocCache (Keeps.pure True.intro)
  · refine Keeps.bind Keeps.get fun s _ => Keeps.ite (fun _ => Keeps.fail) fun _ => ?_
    refine Keeps.bind (D.keeps_relocateCompactToFresh (by exact hr) ..) fun newPair _ => ?_
    refine Keeps.seq (keeps_account _) ?_
    exact Keeps.seq keeps_invalidateAllocCache (Keeps.pure True.intro)

theorem keeps_splitDirectoryPair {r : Rebuild} (hr : Gathered r.slots r.op) (v : PairView)
    (split maxCuts : ℕ) (inflight : Inflight) :
    Keeps K (Fs.AllBlocks B) (splitDirectoryPair g v r split maxCuts inflight) fun _ => True := by
  refine Keeps.seq (keeps_fitExcluded ..) ?_
  refine Keeps.bind (D.keeps_cutLoop hr ..) fun x _ => ?_
  exact D.keeps_finishSplitLowerHalf hr ..

omit D in
theorem keeps_splitBudget (pairAddr : BlockPair) :
    Keeps K (Fs.AllBlocks B) (splitBudget g pairAddr) fun _ => True := by
  refine Keeps.bind Keeps.get fun s _ => Keeps.bind (keeps_query _) fun tree _ => ?_
  refine Keeps.ite (fun _ => Keeps.pure True.intro) fun _ => Keeps.ite (fun _ => ?_) fun _ => ?_
  · refine Keeps.bind (keeps_query _) fun used _ => ?_
    exact Keeps.ite (fun _ => Keeps.pure True.intro) fun _ => Keeps.pure True.intro
  · exact Keeps.pure True.intro

omit D in
theorem keeps_relocationTarget (v : PairView) (newRevision : ℕ) (inflight : Inflight) :
    Keeps K (Fs.AllBlocks B) (relocationTarget g v newRevision inflight) fun _ => True := by
  refine Keeps.bind Keeps.get fun s _ => Keeps.ite (fun _ => ?_) fun _ => Keeps.pure True.intro
  refine Keeps.seq (keeps_fitExcluded ..) ?_
  exact Keeps.bind (keeps_allocOneBlock ..) fun f _ => Keeps.pure True.intro

variable {commit : CommitFn} (hcommit : KeepsCommits B K commit)
include hcommit

/-- A pair that moves ends with a commit elsewhere, so the property of that commit is assumed. -/
theorem keeps_compactSingle {r : Rebuild} (hr : Gathered r.slots r.op) (v : PairView)
    (inflight : Inflight) :
    Keeps K (Fs.AllBlocks B) (compactSingle g commit v r inflight) fun _ => True := by
  refine Keeps.bind Keeps.get fun s _ => Keeps.bind (keeps_relocationTarget ..) fun fresh _ => ?_
  refine Keeps.bind (D.keeps_buildRange (by exact hr) 0 r.total) fun l hl => ?_
  refine Keeps.bind (D.keeps_eraseAndProgramLog hl) fun ok _ => Keeps.ite (fun _ => ?_) fun _ => ?_
  · refine Keeps.seq (keeps_account _) ?_
    cases fresh with
    | none => exact Keeps.pure True.intro
    | some f =>
        refine Keeps.bind (D.keeps_eraseAndProgramLog hl) fun ok _ => ?_
        refine Keeps.ite (fun _ => Keeps.seq (keeps_account _) (Keeps.pure True.intro)) fun _ => ?_
        exact Keeps.seq (hcommit _ True.intro) (Keeps.pure True.intro)
  · refine Keeps.ite (fun _ => Keeps.fail) fun _ => ?_
    exact Keeps.bind (D.keeps_relocateCompactToFresh (by exact hr) ..) fun _ _ =>
      Keeps.pure True.intro

theorem keeps_compactAndProgram {r : Rebuild} (hr : Gathered r.slots r.op) (v : PairView)
    (inflight : Inflight) (forcedVictim : Bool) :
    Keeps K (Fs.AllBlocks B) (compactAndProgram g commit v r inflight forcedVictim)
      fun _ => True := by
  refine Keeps.bind Keeps.get fun s _ => Keeps.ite (fun _ => ?_) fun _ => ?_
  · refine Keeps.ite (fun _ => Keeps.fail) fun _ => ?_
    exact Keeps.bind (D.keeps_relocateCompactToFresh (by exact hr) ..) fun _ _ =>
      Keeps.pure True.intro
  · refine Keeps.bind (keeps_lift _) fun split _ => ?_
    refine Keeps.bind (R := fun _ => True) ?_ fun maxCuts _ => Keeps.ite (fun _ => ?_) fun _ => ?_
    · exact Keeps.ite (fun _ => keeps_splitBudget _) fun _ => Keeps.pure True.intro
    · refine Keeps.bind (Keeps.attempt (D.keeps_splitDirectoryPair hr ..)) fun result _ => ?_
      split
      · exact Keeps.pure True.intro
      · exact Keeps.seq (keeps_account _) (D.keeps_compactSingle hcommit hr v inflight)
      · exact Keeps.fail
    · exact D.keeps_compactSingle hcommit hr v inflight

omit D in
/-- The announcement to the parent and to the predecessor: commits, and nothing else. -/
theorem keeps_propagateRelocation (oldPair newPair : BlockPair) (inflight : Inflight) :
    Keeps K (Fs.AllBlocks B) (propagateRelocation g commit oldPair newPair inflight)
      fun _ => True := by
  refine Keeps.bind Keeps.get fun s _ => Keeps.ite (fun _ => Keeps.pure True.intro) fun _ => ?_
  refine Keeps.seq (R := fun _ => True) (Keeps.modify fun s hs => ?_) ?_
  · split
    · split_ifs
      · exact hs
      · exact hs
    · exact hs
  refine Keeps.seq (keeps_fitExcluded ..) ?_
  refine Keeps.bind (keeps_query _) fun pred _ => Keeps.bind (keeps_query _) fun parent _ => ?_
  split
  · refine Keeps.seq (hcommit _ True.intro) ?_
    split
    · exact Keeps.ite (fun _ => Keeps.pure True.intro) fun _ => hcommit _ True.intro
    · exact Keeps.pure True.intro
  · split
    · exact hcommit _ True.intro
    · exact Keeps.fail

theorem keeps_rebuildPair {v : PairView} {source : MetadataLog} {r : CommitRequest}
    (hv : ∃ l, gatherLiveSlots l = .ok v.slots) (hop : r.op.WellFormed) (forcedVictim : Bool) :
    Keeps K (Fs.AllBlocks B) (rebuildPair g commit v source r forcedVictim) fun _ => True := by
  have hr : Gathered (rebuildOf v source r).slots (rebuildOf v source r).op := ⟨hv, hop⟩
  refine Keeps.bind (D.keeps_compactAndProgram hcommit hr ..) fun moved _ => ?_
  cases moved with
  | none => exact Keeps.pure True.intro
  | some newPair => exact keeps_propagateRelocation hcommit ..

omit hcommit in
/-- The append that is built is recorded in front of its program. -/
theorem keeps_tryAppend {v : PairView} {r : CommitRequest}
    (hv : gatherLiveSlots v.log = .ok v.slots)
    (hop : r.op.WellFormed) :
    Keeps K (Fs.AllBlocks B) (tryAppend g v r) fun _ => True := by
  refine Keeps.bind (keeps_lift _) fun l' hl' => Keeps.bind Keeps.note fun _ hK => ?_
  have hafter : B (.log l') := D.append v.log v.slots r l' hv hop hK hl'
  refine Keeps.bind (keeps_programBlock (fun _ => D.dirty _ _ hv) hafter) fun report _ => ?_
  split
  · exact Keeps.seq (keeps_account _) (Keeps.pure True.intro)
  · exact Keeps.pure True.intro
  · exact Keeps.bind Keeps.get fun _ _ => Keeps.pure True.intro

omit D hcommit in
/-- What a commit works on are slots gathered from a log of the device. -/
theorem keeps_viewPair (p : BlockPair) :
    Keeps K (Fs.AllBlocks B) (viewPair g p) fun v => gatherLiveSlots v.log = .ok v.slots :=
  Keeps.bind (keeps_query _) fun _ _ => Keeps.bind (keeps_lift _) fun _ hslots => Keeps.pure hslots

theorem keeps_commitWith {r : CommitRequest} (hop : r.op.WellFormed) :
    Keeps K (Fs.AllBlocks B) (commitWith g commit r) fun _ => True := by
  refine Keeps.bind Keeps.get fun s _ => Keeps.seq Keeps.note ?_
  refine Keeps.bind (keeps_viewPair r.pair) fun v hv => Keeps.ite (fun _ => ?_) fun _ => ?_
  · refine Keeps.bind (D.keeps_tryAppend hv hop) fun result _ => ?_
    split
    · exact Keeps.pure True.intro
    · exact D.keeps_rebuildPair hcommit ⟨_, hv⟩ hop true
  · exact D.keeps_rebuildPair hcommit ⟨_, hv⟩ hop false

omit hcommit in
/-- The commit engine, at any depth of nested commits. -/
theorem keeps_applyOpToPairInner (depth : ℕ) : KeepsCommits B K (applyOpToPairInner g depth) := by
  induction depth with
  | zero => exact fun _ _ => Keeps.fail
  | succ depth ih => exact fun r hop => D.keeps_commitWith ih hop

end LogDiscipline

end LittlefsPure
