import LittlefsPure.Store.Mount

/-!
# Sessions on a flat directory

A session starts from a format and a mount and goes from call to call; a call returns, fails,
or is cut off by a power failure, and then the next mount finds whatever the cut has left.  At
every point of every session the handle answers all reads from one directory, and that
directory is one the history allows: what has returned is there, what has failed has left no
trace, and what was cut off has been done in full or not at all.

## Where a session may begin anew

A handle is dropped and the device is mounted again in two cases: the caller does so between two
calls, and the power has failed inside one.  The first is a call like the others here, one that
changes nothing; the second follows a call that was cut off, and starts from an image that the
device may have been left in.

## What a commit at rest promises

Beside the sessions there is the single commit, for any operation on inline entries, with the
outcome that each of its ends leaves: what it returns, that it has failed, and the images in
between.  A program that has landed in full belongs to the images, since the power may go behind
it before the call returns.
-/

namespace LittlefsPure

open FsM Logic

/-- The devices that a power cut in a run leaves: that of a cut in one of its device calls, or
in front of the first or behind the last. -/
inductive Leaves (g : Geometry) (s : Fs) (r : Run Fs Error Event Unit) : Device → Prop
  | before : Leaves g s r s.device
  | within {e : Event} {d : Device} (he : e ∈ r.events) (hd : e.Image g d) : Leaves g s r d
  | behind : Leaves g s r r.state.device

/-- The handle of a mount on a device without faults. -/
def remount (g : Geometry) (depth : ℕ) (d : Device) : Fs := (mount g depth (.init g d [])).state

/-- The handle of a mount on a freshly formatted device. -/
def Formatted (g : Geometry) (depth : ℕ) (s : Fs) : Prop :=
  ∃ d : Device, d.blocks.length = g.blockCount ∧ (format g (.init g d [])).result = .ok () ∧
    s = remount g depth (format g (.init g d [])).state.device

/-- One call of a session, or a remount between two calls.  A mount writes nothing to such a
device, so one that is cut off is the next one. -/
inductive FlatStep (g : Geometry) (depth : ℕ) : FlatCall → Fate → Fs → Fs → Prop
  | done {c : Call} {f : FlatCall} {s : Fs} (hc : c.flat g s = some f)
      (hlim : AllEvents Event.WithinLimits (c.start g depth s).events)
      (hok : (c.start g depth s).result = .ok ()) :
      FlatStep g depth f .done s (c.start g depth s).state
  | failed {c : Call} {f : FlatCall} {s : Fs} {e : Error} (hc : c.flat g s = some f)
      (hlim : AllEvents Event.WithinLimits (c.start g depth s).events)
      (herr : (c.start g depth s).result = .error e) :
      FlatStep g depth f .failed s (c.start g depth s).state
  | cut {c : Call} {f : FlatCall} {s : Fs} {d : Device} (hc : c.flat g s = some f)
      (hlim : AllEvents Event.WithinLimits (c.start g depth s).events)
      (hd : Leaves g s (c.start g depth s) d) : FlatStep g depth f .cut s (remount g depth d)
  | remount {s : Fs} : FlatStep g depth .remount .done s (remount g depth s.device)

/-- A handle that answers every read from a directory, and whose device a mount reads without
a write. -/
structure Answers (g : Geometry) (D : FlatDir) (s : Fs) : Prop where
  mounts : ∀ depth, mount g depth (.init g s.device []) = ⟨.ok (), .init g s.device [], []⟩
  reads : ∀ path name, path.components = [name] → ∀ off len,
    readAtPath g s.device s.root path off len =
      D.answer name fun f => (f.content.drop off).take len
  exist : ∀ path name, path.components = [name] →
    existsAt g s.device s.root path = .ok (D name).isSome
  sizes : ∀ path name, path.components = [name] →
    sizeOf g s.device s.root path = D.answer name fun f => f.content.length
  attrs : ∀ path name, path.components = [name] → ∀ a,
    getAttr g path a s = ⟨D.answer name fun f => (f.attrs a).getD [], s, []⟩
  lists : ∃ es, listPairChain g s.device s.root = .ok es ∧
    (es.map fun e => e.name.content).Nodup ∧ (∀ e ∈ es, e.kind = .regularFile) ∧
    ∀ name, (∃ e ∈ es, e.name.content = name) ↔ D name ≠ none

section Sessions

variable {g : Geometry} {depth : ℕ} {D : FlatDir} {s s' : Fs} {d : Device}

theorem Shows.answers (h : Shows g rootBlockPair D s) (hvalid : g.validate = .ok ()) :
    Answers g D s := by
  have hstores : Stores g s.root D s.device := h.from_root ▸ h.stores
  exact ⟨fun depth => Stores.mount (s := .init g s.device []) h.stores hvalid depth,
    fun _ _ hpath => hstores.readAtPath hpath, fun _ _ hpath => hstores.existsAt hpath,
    fun _ _ hpath => hstores.sizeOf hpath, fun _ _ hpath => hstores.getAttr hpath, hstores.list⟩

/-- Whatever a mount finds of a directory, its handle shows. -/
theorem Stores.remount (h : Stores g rootBlockPair D d) (hvalid : g.validate = .ok ()) :
    Shows g rootBlockPair D (LittlefsPure.remount g depth d) := by
  rw [LittlefsPure.remount, Stores.mount (s := .init g d []) h hvalid]
  exact Stores.shows (s := .init g d []) h rfl

theorem Formatted.shows (h : Formatted g depth s) :
    g.validate = .ok () ∧ Shows g rootBlockPair (fun _ => none) s := by
  obtain ⟨d, hsize, hok, rfl⟩ := h
  obtain ⟨hvalid, hstores⟩ := format_stores (s := .init g d []) rfl hsize hok
  exact ⟨hvalid, hstores.remount hvalid⟩

/-- What a power cut in a call leaves stands for the directory before the call, or behind it
when the call was about to return. -/
theorem Does.leaves {c : Call} {f : FlatCall}
    (h : Does g rootBlockPair D (c.start g depth) f) (hs : Shows g rootBlockPair D s)
    (hlim : AllEvents Event.WithinLimits (c.start g depth s).events)
    (hd : Leaves g s (c.start g depth s) d) :
    ∃ D', flatObject.After f D .cut D' ∧ Stores g rootBlockPair D' d := by
  obtain ⟨hsurvives, hpost⟩ := h.post s hs hlim
  cases hd with
  | before => exact ⟨D, .cutBefore, hs.stores⟩
  | within he hd => exact ⟨D, .cutBefore, hsurvives _ he _ hd⟩
  | behind =>
      unfold Run.Post at hpost
      split at hpost
      · exact ⟨_, .cutBehind hpost.1, hpost.2.stores⟩
      · exact ⟨D, .cutBefore, hpost.stores⟩

/-- The step lemma: a call leaves what the object allows. -/
theorem FlatStep.after (hcycles : g.blockCycles ≤ 0) (hvalid : g.validate = .ok ()) {f : FlatCall}
    {fate : Fate} (hs : Shows g rootBlockPair D s) (h : FlatStep g depth f fate s s') :
    ∃ D', flatObject.After f D fate D' ∧ Shows g rootBlockPair D' s' := by
  cases h with
  | done hc hlim hok =>
      obtain ⟨henabled, hshows⟩ := (Call.does hcycles depth hs hc).returns hs hlim hok
      exact ⟨_, .done henabled, hshows⟩
  | failed hc hlim herr =>
      have hpost := ((Call.does hcycles depth hs hc).post s hs hlim).2
      unfold Run.Post at hpost
      rw [herr] at hpost
      exact ⟨D, .failed, hpost⟩
  | cut hc hlim hd =>
      obtain ⟨D', hafter, hstores⟩ := (Call.does hcycles depth hs hc).leaves hs hlim hd
      exact ⟨D', hafter, hstores.remount hvalid⟩
  | remount => exact ⟨D, .done trivial, hs.stores.remount hvalid⟩

/-- At every point of every session the handle answers from a directory that the history
allows. -/
theorem flat_sessions (hcycles : g.blockCycles ≤ 0) {history : List (FlatCall × Fate)}
    (h : Lifetime (Formatted g depth) (FlatStep g depth) history s) :
    ∃ D, flatObject.Outcome (fun _ => none) history D ∧ Answers g D s := by
  obtain ⟨D, hout, hvalid, hshows⟩ := h.refines flatObject
    (fun D s => g.validate = .ok () ∧ Shows g rootBlockPair D s) (fun s hs => hs.shows)
    fun c fate s s' D hR hstep => by
      obtain ⟨D', hafter, hshows⟩ := FlatStep.after hcycles hR.1 hR.2 hstep
      exact ⟨D', hafter, hR.1, hshows⟩
  exact ⟨D, hout, hshows.answers hvalid⟩

/-- A small device without wear levelling. -/
def smallGeometry : Geometry := ⟨16, 16, 256, 8, -1⟩

/-- The device behind a format. -/
def smallFormatted : Fs :=
  remount smallGeometry 4 (format smallGeometry (.init smallGeometry (.blank 8) [])).state.device

/-- The handle behind the first call. -/
def smallWritten : Fs :=
  (Call.start smallGeometry 4 (.writeToRoot [0x61] [1, 2]) smallFormatted).state

/-- A file is written, power fails when the next call is about to return, and the device is
mounted once more. -/
theorem flat_sessions_cut : ∃ s D, flatObject.Outcome (fun _ => none)
    [(.put [0x61] [1, 2], .done), (.put [0x62] [3], .cut), (.remount, .done)] D ∧
      Answers smallGeometry D s := by
  have hformat : Formatted smallGeometry 4 smallFormatted := ⟨.blank 8, rfl, by decide +kernel, rfl⟩
  have hwrite : FlatStep smallGeometry 4 (.put [0x61] [1, 2]) .done smallFormatted smallWritten :=
    .done (c := .writeToRoot [0x61] [1, 2]) rfl (by decide +kernel) (by decide +kernel)
  have hcut : FlatStep smallGeometry 4 (.put [0x62] [3]) .cut smallWritten _ :=
    .cut (c := .writeToRoot [0x62] [3]) rfl (by decide +kernel) .behind
  exact ⟨_, flat_sessions (by decide)
    (.step (.step (.step (.start hformat) hwrite) hcut) .remount)⟩

end Sessions

/-! ## One commit -/

section Commit

variable {g : Geometry} {root : BlockPair} {pre post : List Node} {n : Node} {op : WriteOp} {s : Fs}

/-- The directory behind a commit, as the device holds it. -/
def Behind (g : Geometry) (root : BlockPair) (pre : List Node) (n : Node) (post : List Node)
    (op : WriteOp) (d : Device) : Prop :=
  ∃ mid, n.Becomes g op mid ∧ AtRest g d root (pre ++ mid ++ post)

/-- A run of a commit that is done in full or not at all. -/
structure Atomic (g : Geometry) (root : BlockPair) (pre : List Node) (n : Node) (post : List Node)
    (op : WriteOp) (s : Fs) (r : Run Fs Error Event Unit) : Prop where
  returned : r.result = .ok () → Committed g root pre n post op r.state
  failed : ∀ e, r.result = .error e → Rested g root (pre ++ n :: post) r.state
  /-- A cut in a device call, or between two of them. -/
  within : ∀ e ∈ r.events, ∀ d, e.Image g d → Survivor g root pre n post d
  /-- A cut anywhere, the point behind the last device call included. -/
  cut : ∀ d, Leaves g s r d → Survivor g root pre n post d ∨ Behind g root pre n post op d

/-- One commit of an operation on inline entries on any pair of a directory at rest: when it
returns, the entries of the node are those the operation makes of them, on the node, on its halves
exchanged or on it and its continuations; when it fails the directory is untouched; whatever a
power cut in front of the last device call's end leaves is the directory as it was, at most with a
dirty window behind the log; and behind that the cut leaves one of the two. -/
theorem commit_at_rest (hcycles : g.blockCycles ≤ 0) (commit : CommitFn)
    (h : Rested g root (pre ++ n :: post) s) (hop : n.Takes g op)
    (hpos : 0 < op.total n.entries.length)
    (hlim : AllEvents Event.WithinLimits
      (commitWith g commit { pair := n.pair, op := op } s).events) :
    Atomic g root pre n post op s (commitWith g commit { pair := n.pair, op := op } s) := by
  obtain ⟨hsurvives, hpost⟩ := (triple_commitWith_calm hcycles commit hop hpos).post s h hlim
  unfold Run.Post at hpost
  refine ⟨fun hok => ?_, fun e he => ?_, hsurvives, fun d hd => ?_⟩
  · rwa [hok] at hpost
  · rwa [he] at hpost
  · cases hd with
    | before => exact .inl (.inl h.rest)
    | within he hd => exact .inl (hsurvives _ he _ hd)
    | behind =>
        split at hpost
        · obtain ⟨mid, hmid, hrest⟩ := hpost
          exact .inr ⟨mid, hmid, hrest.rest⟩
        · exact .inl (.inl hpost.rest)

/-- A file is created behind the superblock. -/
theorem commit_at_rest_format : ∃ l, Atomic smallGeometry rootBlockPair []
    (formatNode smallGeometry l) [] (.create 1 (nameBody [0x61]) (.bytes [1, 2]) [])
    (format smallGeometry (.init smallGeometry (.blank 8) [])).state
    (commitWith smallGeometry (fun _ => throw .recursionLimit)
      { pair := rootBlockPair, op := .create 1 (nameBody [0x61]) (.bytes [1, 2]) [] }
      (format smallGeometry (.init smallGeometry (.blank 8) [])).state) := by
  obtain ⟨-, l, -, hstate, hrest⟩ := format_rests (g := smallGeometry)
    (s := .init smallGeometry (.blank 8) []) rfl rfl (by decide +kernel)
  have hguarded : Rested smallGeometry rootBlockPair ([] ++ formatNode smallGeometry l :: [])
      (format smallGeometry (.init smallGeometry (.blank 8) [])).state :=
    ⟨by rw [hstate]; rfl, by rw [hstate]; rfl, hrest, by rw [hstate]; exact nofun⟩
  have htakes : (formatNode smallGeometry l).Takes smallGeometry
      (.create 1 (nameBody [0x61]) (.bytes [1, 2]) []) := by
    refine ⟨fun i hi => ?_, trivial, trivial, trivial, fun _ => by decide⟩
    cases hi
    rfl
  have hlim : AllEvents Event.WithinLimits (commitWith smallGeometry
      (fun _ => throw .recursionLimit)
      { pair := rootBlockPair, op := .create 1 (nameBody [0x61]) (.bytes [1, 2]) [] }
      (format smallGeometry (.init smallGeometry (.blank 8) [])).state).events := by decide +kernel
  exact ⟨l, commit_at_rest (by decide) _ hguarded htakes (Nat.succ_pos _) hlim⟩

end Commit

end LittlefsPure
