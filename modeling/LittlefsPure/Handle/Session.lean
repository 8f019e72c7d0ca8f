import LittlefsPure.Handle.Entry

/-!
# A session with an open file

The calls on an open file, each of which may fail: `write`, `set_len` and `sync`.  What the entry
records is read from the device by a lookup of the path, before and behind each call.  A handle is
in step with its entry when the lookup leads to the pair and the id that the handle has had since
`open`, and when a clean handle has the head and size that the lookup finds.

Three things go wrong with a handle.  `set_len` and a `write` in append mode move the cursor before
they can fail.  A zero extension updates head and size chunk by chunk and sets the dirty flag at its
end.  And `sync` commits to the pair and the id of `open`, which a split or a move of the pair makes
stale.

## Why the condition is what it is

`Steady` speaks of the state in front of a call and excludes what reaches one of the three.  A call
that extends the file finds the cursor at the end, so there is nothing to move, and a zero extension
is one chunk.  Within these limits any allocation, erase or program may fail: the call then leaves
the handle as it was.  A `sync` finds a pair in which its commit stays.

The rest of it says that the blocks on the way to the entry are known to the allocator and are no
blocks of the file.  An allocator that hands out a block of a directory destroys the way to the
file, and then no lookup finds what `sync` has committed.

## Why the run is followed call by call

Which blocks are on the way is a matter of the device, and so is what a commit does to the pair.
`InStep` is what one call hands on to the next, and the two lemmas of `Entry` say that the way stays
the same: `undisturbed` for the calls that write content, `republished` for the commit.
-/

namespace LittlefsPure

open FsM Logic

/-- A call that changes an open file or its entry. -/
inductive HandleCall where
  | write (data : List Byte)
  | setLen (newSize : ℕ)
  | sync
  deriving DecidableEq

/-- An open file: the filesystem it borrows, and the handle. -/
structure Session where
  state : Fs
  file : File

section Calls

variable (g : Geometry) (depth : ℕ) (path : Path)

/-- The filesystem and the handle behind a `write` or a `set_len`, and how it ended. -/
def Session.settle (x : Session) (run : Run Fs Error Event (File × Except Error Unit)) :
    Except Error Unit × Session :=
  match run.result with
  | .ok (file, result) => (result, ⟨run.state, file⟩)
  | .error e => (.error e, { x with state := run.state })

/-- One call. -/
def Session.step (x : Session) : HandleCall → Except Error Unit × Session
  | .write data => x.settle (x.file.write g data x.state)
  | .setLen newSize => x.settle (x.file.setLen g newSize x.state)
  | .sync =>
      let run := x.file.sync g depth x.state
      match run.result with
      | .ok file => (.ok (), ⟨run.state, file⟩)
      | .error e => (.error e, { x with state := run.state })

/-- The session behind some calls. -/
def Session.after (x : Session) : List HandleCall → Session
  | [] => x
  | c :: cs => Session.after (x.step g depth c).2 cs

/-- The head and size that the entry of the file records. -/
def Session.committed (x : Session) : Except Error (ℕ × ℕ) :=
  (layoutAt g x.state.device x.state.root path).map Layout.coordinates

/-- A `sync` that returns leaves the entry as the handle has it, and a call that fails leaves
the handle as it was. -/
structure Session.Agrees (x : Session) (c : HandleCall) : Prop where
  synced : c = .sync → (x.step g depth c).1 = .ok () →
    (x.step g depth c).2.committed g path =
      .ok ((x.step g depth c).2.file.headBlock, (x.step g depth c).2.file.size)
  kept : ∀ e, (x.step g depth c).1 = .error e →
    (x.step g depth c).2.file.pos = x.file.pos ∧ (x.step g depth c).2.file.size = x.file.size ∧
      (x.step g depth c).2.file.headBlock = x.file.headBlock

/-! ## The condition -/

/-- The commit that `sync` makes. -/
def File.request (f : File) : CommitRequest :=
  if f.headBlock = noBlock then { pair := f.parent, op := .update f.id (.bytes []) }
  else
    { pair := f.parent, op := .updateCtz f.id f.headBlock f.size
      inflight := ⟨[], some (f.headBlock, f.size)⟩ }

/-- In front of a `write`: the size stays a word, an append finds the cursor at the end of the file,
and the allocator knows the blocks on the way. -/
structure Session.WritesSteadily (x : Session) (data : List Byte) : Prop where
  word : x.file.size + data.length < 2 ^ 32
  cursor : x.file.options.append = true → data ≠ [] → x.file.pos = x.file.size
  marks : AllEvents (Event.MarksHeld g (x.state.OnTheWay g path))
    (x.file.write g data x.state).events

/-- In front of a `set_len`: a zero extension finds the cursor at the end of the file and is one
chunk, what is shortened is a chain off the way, and the allocator knows the blocks on the way. -/
structure Session.ResizesSteadily (x : Session) (newSize : ℕ) : Prop where
  word : newSize < 2 ^ 32
  grows : x.file.options.writable = true → x.file.size < newSize →
    x.file.pos = x.file.size ∧ newSize ≤ x.file.size + 1024
  chain : 0 < newSize → newSize < x.file.size → ∀ chain,
    Ctz.collectChainBlocks g x.state.device x.file.headBlock
      (Ctz.blockCount x.file.size g.blockSize) (Ctz.blockCount x.file.size g.blockSize) =
        .ok chain → ∀ b ∈ chain, ¬ x.state.OnTheWay g path b
  marks : AllEvents (Event.MarksHeld g (x.state.OnTheWay g path))
    (x.file.setLen g newSize x.state).events

/-- What is asked of the state in front of a call.  A `sync` with something to commit finds a pair
in which the commit stays. -/
def Session.Steady (x : Session) : HandleCall → Prop
  | .write data => x.WritesSteadily g path data
  | .setLen newSize => x.ResizesSteadily g path newSize
  | .sync => x.file.dirty = true → ∀ v, (viewPair g x.file.parent x.state).result = .ok v →
      v.InPlace g x.state x.file.request

/-- A handle that a commit can record. -/
structure File.Staged (f : File) : Prop where
  null : f.size = 0 → f.headBlock = noBlock
  bound : 0 < f.size → f.headBlock < g.blockCount

/-- The handle is in step with its entry. -/
structure Session.InStep (x : Session) : Prop where
  attached : ∃ leaf, Attached g x.state path leaf x.file.parent x.file.id
  entry : x.file.dirty = false → x.committed g path = .ok (x.file.headBlock, x.file.size)
  clear : 0 < x.file.size → ¬ x.state.OnTheWay g path x.file.headBlock
  cached : x.state.CacheMarks (x.state.OnTheWay g path)
  staged : x.file.dirty = true → x.file.Staged g

end Calls

variable {g : Geometry} {depth : ℕ} {path : Path}

/-! ## Content -/

section Content

variable {held : ℕ → Prop} {s₀ : Fs} {f : File}

/-- How a `write` or a `set_len` may end: with the handle as it was, or with another chain. -/
inductive File.Settles (g : Geometry) (held : ℕ → Prop) (f : File) :
    File × Except Error Unit → Prop
  | same (r : Except Error Unit) : File.Settles g held f (f, r)
  | staged {f' : File} (parent : f'.parent = f.parent) (id : f'.id = f.id)
      (dirty : f'.dirty = true) (staged : f'.Staged g) (clear : 0 < f'.size → ¬ held f'.headBlock) :
      File.Settles g held f (f', .ok ())

theorem File.pos_size (h : f.pos = f.size) : ({ f with pos := f.size } : File) = f :=
  congrArg (fun pos => ({ f with pos := pos } : File)) h.symm

/-- A chain operation of a handle. -/
theorem triple_keepAccount {α : Type} {m : FsM α} {P : Fs → Prop} {Q : α → Prop}
    (hm : Triple (Event.MarksHeld g held) (fun _ => True) P m
      (fun a s => Undisturbed held s₀ s ∧ Q a) fun _ s => Undisturbed held s₀ s) :
    Triple (Event.MarksHeld g held) (fun _ => True) P (File.keepAccount m)
      (fun r s => Undisturbed held s₀ s ∧ ∀ a, r = .ok a → Q a)
      fun _ s => Undisturbed held s₀ s := by
  refine Triple.get_bind fun s₁ hs₁ => ?_
  refine Triple.bind (R := fun r s => Undisturbed held s₀ s ∧ ∀ a, r = .ok a → Q a)
    (Triple.attempt (hm.conseq (fun s hs => hs ▸ hs₁) (fun a s hs => ⟨hs.1, ?_⟩)
      fun e s hs => ⟨hs, fun _ h => by cases h⟩)) fun r => ?_
  · rintro b ⟨⟩
    exact hs.2
  · refine Triple.ite (fun _ => Triple.pure fun s hs => hs) fun _ => ?_
    exact Triple.pre fun hr => Keeps.seq (leaves_account _) (Keeps.pure hr)

theorem leaves_tryExtend (hB : 128 ≤ g.blockSize) {head size : ℕ} {data : List Byte}
    (hdata : data ≠ []) (hclear : 0 < size → ¬ held head) :
    LeavesHeld g held s₀ (File.tryExtend g head size data) fun r =>
      ∀ a, r = .ok a → Unheld g held a.1 ∧ a.2 = size + data.length :=
  triple_keepAccount (leaves_streamCtzExtend hB hdata hclear)

/-- A handle with an extended chain. -/
theorem File.Settles.extended {f' : File} (hparent : f'.parent = f.parent) (hid : f'.id = f.id)
    (hdirty : f'.dirty = true) (hhead : Unheld g held f'.headBlock) (hsize : 0 < f'.size) :
    f.Settles g held (f', .ok ()) :=
  .staged hparent hid hdirty ⟨fun hzero => absurd hzero (Nat.ne_of_gt hsize), fun _ => hhead.bound⟩
    fun _ => hhead.free

theorem leaves_write (hB : 128 ≤ g.blockSize) {data : List Byte}
    (hcursor : f.options.append = true → data ≠ [] → f.pos = f.size)
    (hclear : 0 < f.size → ¬ held f.headBlock) :
    LeavesHeld g held s₀ (f.write g data) (f.Settles g held) := by
  rw [File.write]
  refine Keeps.ite (fun _ => Keeps.pure (.same _)) fun _ =>
    Keeps.ite (fun _ => Keeps.pure (.same _)) fun hdata => ?_
  -- the cursor of an append is there already
  have hsame : (if f.options.append = true then { f with pos := f.size } else f) = f := by
    split_ifs with happend
    · exact File.pos_size (hcursor happend hdata)
    · rfl
  simp only [hsame]
  refine Keeps.ite (fun _ => Keeps.pure (.same _)) fun _ =>
    Keeps.bind (leaves_tryExtend hB hdata hclear) fun r hr => ?_
  cases r with
  | error e => exact Keeps.pure (.same _)
  | ok r =>
      obtain ⟨hhead, hsize⟩ := hr r rfl
      refine Keeps.pure (.extended rfl rfl rfl hhead ?_)
      show 0 < r.2
      rw [hsize]
      exact Nat.add_pos_right _ (List.length_pos_of_ne_nil hdata)

/-- A zero extension of one chunk: it is written, or nothing of it. -/
theorem leaves_zeroExtend (hB : 128 ≤ g.blockSize) {head size n : ℕ} (hpos : 0 < n)
    (hn : n ≤ 1024) (hclear : 0 < size → ¬ held head) :
    LeavesHeld g held s₀ (File.zeroExtend g n head size n) fun r =>
      (∃ e, r = ((head, size), .error e)) ∨
        ∃ head', r = ((head', size + n), .ok ()) ∧ Unheld g held head' := by
  obtain ⟨k, rfl⟩ : ∃ k, n = k + 1 := ⟨n - 1, by omega⟩
  rw [File.zeroExtend, if_neg (Nat.ne_of_gt hpos), Nat.min_eq_left hn]
  have hdata : List.replicate (k + 1) (0 : Byte) ≠ [] :=
    List.ne_nil_of_length_pos (by rw [List.length_replicate]; exact hpos)
  refine Keeps.bind (leaves_tryExtend hB hdata hclear) fun r hr => ?_
  cases r with
  | error e => exact Keeps.pure (.inl ⟨e, rfl⟩)
  | ok r =>
      obtain ⟨head', size'⟩ := r
      obtain ⟨hhead, hsize : size' = _⟩ := hr _ rfl
      rw [List.length_replicate] at hsize
      subst hsize
      have hdone : File.zeroExtend g k head' (size + (k + 1)) (k + 1 - (k + 1)) =
          pure ((head', size + (k + 1)), .ok ()) := by
        rw [Nat.sub_self]
        cases k <;> rfl
      simp only [hdone]
      exact Keeps.pure (.inr ⟨head', rfl, hhead⟩)

theorem leaves_setLen (hB : 128 ≤ g.blockSize) {newSize : ℕ} (hcached : s₀.CacheMarks held)
    (hgrows : f.options.writable = true → f.size < newSize →
      f.pos = f.size ∧ newSize ≤ f.size + 1024)
    (hclear : 0 < f.size → ¬ held f.headBlock)
    (hchain : 0 < newSize → newSize < f.size → ∀ chain,
      Ctz.collectChainBlocks g s₀.device f.headBlock (Ctz.blockCount f.size g.blockSize)
        (Ctz.blockCount f.size g.blockSize) = .ok chain → ∀ b ∈ chain, ¬ held b) :
    Triple (Event.MarksHeld g held) (fun _ => True) (fun s => s = s₀) (f.setLen g newSize)
      (fun r s => Undisturbed held s₀ s ∧ f.Settles g held r) fun _ s => Undisturbed held s₀ s := by
  have hrefl : ∀ s, s = s₀ → Undisturbed held s₀ s := by
    rintro s rfl
    exact .refl hcached
  rw [File.setLen]
  refine Triple.ite (fun _ => Triple.pure fun s hs => ⟨hrefl s hs, .same _⟩) fun hwritable =>
    Triple.ite (fun _ => Triple.pure fun s hs => ⟨hrefl s hs, .same _⟩) fun hne =>
      Triple.ite (fun hless => Triple.ite (fun _ => ?_) fun hpos => ?_) fun hmore => ?_
  · refine Triple.strengthen (Keeps.seq (leaves_account _) (Keeps.pure ?_)) hrefl
    exact .staged rfl rfl rfl ⟨fun _ => rfl, fun h => absurd h (Nat.lt_irrefl 0)⟩
      fun h => absurd h (Nat.lt_irrefl 0)
  · have hpos : 0 < newSize := Nat.pos_of_ne_zero hpos
    refine Triple.bind (triple_keepAccount (leaves_shrinkCtzHead hB hcached hpos
      (Nat.le_of_lt hless) (hchain hpos hless))) fun r => Triple.pre fun hr => ?_
    cases r with
    | error e => exact Keeps.pure (.same _)
    | ok head => exact Keeps.pure (.extended rfl rfl rfl (hr head rfl) hpos)
  · have hmore : f.size < newSize := by omega
    obtain ⟨hcursor, hchunk⟩ := hgrows (by simpa using hwritable) hmore
    refine Triple.strengthen (Keeps.bind (leaves_zeroExtend hB (n := newSize - f.size) (by omega)
      (by omega) hclear) fun r hr => ?_) hrefl
    rcases hr with ⟨e, rfl⟩ | ⟨head, rfl, hhead⟩
    · simp only [File.pos_size hcursor]
      exact Keeps.pure (.same _)
    · exact Keeps.pure (.extended rfl rfl rfl hhead (Nat.add_pos_right _ (by omega)))

end Content

/-! ## The commit -/

section Commit

variable {f : File}

/-- The STRUCT that `sync` gives to the entry. -/
def File.record (f : File) : TagType × Body :=
  if f.headBlock = noBlock then (.inlineStruct, .bytes [])
  else (.ctzStruct, .words [f.headBlock, f.size])

theorem File.request_pair (f : File) : f.request.pair = f.parent := by
  rw [File.request]
  split_ifs <;> rfl

theorem File.request_plain (f : File) : f.request.Plain := by
  rw [File.request]
  split_ifs <;> exact ⟨rfl, rfl, rfl, rfl, True.intro, True.intro⟩

theorem File.request_addresses {count : ℕ} (h : f.id < count) :
    f.request.op.Addresses count := by
  rw [File.request]
  split_ifs <;> · rintro id ⟨⟩; exact h

theorem File.request_apply (f : File) (entries : Entries) :
    f.request.op.apply entries = entries.modify f.id (Entry.withStruct f.record) := by
  rw [File.request, File.record]
  split_ifs <;> exact WriteOp.apply_modify rfl rfl (fun _ => rfl) entries

/-- A lookup finds what the handle has. -/
theorem File.Staged.coordinates (h : f.Staged g) (hcount : g.blockCount ≤ noBlock) :
    (fileLayout .regularFile f.record.1 f.record.2).map Layout.coordinates =
      .ok (f.headBlock, f.size) := by
  rw [File.record]
  by_cases hnull : f.headBlock = noBlock
  · have hsize : f.size = 0 := by
      by_contra hne
      have hbound := h.bound (Nat.pos_of_ne_zero hne)
      omega
    rw [if_pos hnull, hnull, hsize]
    rfl
  · rw [if_neg hnull]
    rfl

theorem sync_clean (h : f.dirty = false) : f.sync g depth = pure f := by
  rw [File.sync, h]
  rfl

theorem sync_dirty (h : f.dirty = true) :
    f.sync g depth = (applyOpToPairInner g depth f.request >>= fun _ =>
      invalidateAllocCache >>= fun _ => pure { f with dirty := false }) := by
  rw [File.sync, h, File.request]
  by_cases hnull : f.headBlock = noBlock
  · rw [if_pos hnull, if_pos hnull]
    rfl
  · rw [if_neg hnull, if_neg hnull]
    rfl

/-- A `sync` whose commit stays in its pair. -/
theorem triple_sync {s₀ : Fs} {v : PairView} {entries : Entries} {tail : Option TailLink}
    (hdirty : f.dirty = true) (hpair : v.pairAddr = f.parent)
    (hv : v.Stands g s₀.device entries tail) (hid : f.id < entries.length)
    (hplace : v.InPlace g s₀ f.request) :
    Triple (fun _ => True) (fun _ => True) (fun s => s = s₀) (f.sync g depth)
      (fun f' s => f' = { f with dirty := false } ∧ Republished g s₀ f.parent tail
        (entries.modify f.id (Entry.withStruct f.record)) s)
      (fun _ s => Republished g s₀ f.parent tail entries s ∨ Republished g s₀ f.parent tail
        (entries.modify f.id (Entry.withStruct f.record)) s) := by
  rw [sync_dirty hdirty, ← File.request_apply, ← hpair]
  refine Triple.bind (R := fun _ s =>
    Republished g s₀ v.pairAddr tail (f.request.op.apply entries) s) ?_ fun _ => ?_
  · cases depth with
    | zero =>
        refine Triple.fail fun s hs => .inl ?_
        rw [hs]
        exact hv.unwritten
    | succ depth =>
        exact triple_commitWith_stays _ f.request_plain (f.request_pair.trans hpair.symm) hv
          (File.request_addresses hid) hplace
  · exact Triple.seq (R := fun s => Republished g s₀ v.pairAddr tail (f.request.op.apply entries) s)
      (Triple.modify fun s hs => ⟨hs.root, fun _ h => (by cases h), hs.length, hs.other,
        hs.shows⟩)
      (Triple.pure fun s hs => ⟨rfl, hs⟩)

end Commit

/-! ## Runs -/

section Runs

variable {x : Session}

/-- A file that is there when it is opened: its handle is in step, with the cursor anywhere, if the
pair of its entry can be written, and the allocator and the file keep off the way. -/
theorem openFile_inStep {options : OpenOptions} {s : Fs} {file : File} {l : Layout}
    (hopen : (openFile g depth path options s).result = .ok file)
    (hl : layoutAt g s.device s.root path = .ok l)
    (hshows : ∃ entries tail, s.device.Shows g file.parent entries tail)
    (hapart : ∀ p, s.device.Passes g path.components s.root p → p ≠ file.parent →
      (p.a ≠ file.parent.a ∧ p.a ≠ file.parent.b) ∧ p.b ≠ file.parent.a ∧ p.b ≠ file.parent.b)
    (hclear : 0 < file.size → ¬ s.OnTheWay g path file.headBlock)
    (hcached : s.CacheMarks (s.OnTheWay g path)) (pos : ℕ) :
    Session.InStep g path ⟨(openFile g depth path options s).state, { file with pos := pos }⟩ := by
  obtain ⟨hstate, ⟨leaf, hleads⟩, hdirty, hkept, htruncated⟩ := openFile_finds hopen hl
  rw [hstate]
  refine ⟨⟨leaf, hleads, hshows, hapart⟩, fun hclean => ?_, hclear, hcached, fun h => ?_⟩
  · rw [Session.committed, hl, ← hkept (hdirty.symm.trans hclean)]
    rfl
  · obtain ⟨hhead, hsize⟩ := htruncated (hdirty.symm.trans h)
    exact ⟨fun _ => hhead, fun hpos => absurd hsize (Nat.ne_of_gt hpos)⟩

theorem SameWay.cacheMarks {s₀ s : Fs} (h : SameWay g path s₀ s)
    (hs : s.CacheMarks (s₀.OnTheWay g path)) : s.CacheMarks (s.OnTheWay g path) :=
  fun m hm b hb => hs m hm b ((h.onTheWay b).1 hb)

/-- The way to the entry and the entry are as they were. -/
theorem Session.InStep.same (hx : x.InStep g path) {s : Fs} (hway : SameWay g path x.state s)
    (hcached : s.CacheMarks (x.state.OnTheWay g path))
    (hattached : ∃ leaf, Attached g s path leaf x.file.parent x.file.id)
    (hlayout : layoutAt g s.device s.root path = layoutAt g x.state.device x.state.root path) :
    Session.InStep g path ⟨s, x.file⟩ where
  attached := hattached
  entry hclean := by
    rw [← hx.entry hclean, Session.committed, Session.committed, hlayout]
  clear hpos hb := hx.clear hpos ((hway.onTheWay _).1 hb)
  cached := hway.cacheMarks hcached
  staged := hx.staged

/-- A call that writes content. -/
theorem Session.InStep.settle (hx : x.InStep g path)
    {run : Run Fs Error Event (File × Except Error Unit)}
    (hrun : run.Post (fun r s => Undisturbed (x.state.OnTheWay g path) x.state s ∧
      x.file.Settles g (x.state.OnTheWay g path) r)
      fun _ s => Undisturbed (x.state.OnTheWay g path) x.state s) :
    (∀ e, (x.settle run).1 = .error e → (x.settle run).2.file = x.file) ∧
      (x.settle run).2.InStep g path := by
  obtain ⟨leaf, hattached⟩ := hx.attached
  have hkept : ∀ s, Undisturbed (x.state.OnTheWay g path) x.state s →
      Session.InStep g path ⟨s, x.file⟩ := by
    intro s hs
    obtain ⟨hattached', hlayout⟩ := hattached.undisturbed hs
    exact hx.same (Attached.sameWay hs) hs.cached ⟨leaf, hattached'⟩ hlayout
  rw [Run.Post] at hrun
  rw [Session.settle]
  cases hresult : run.result with
  | error e =>
      rw [hresult] at hrun
      exact ⟨fun _ _ => rfl, hkept _ hrun⟩
  | ok r =>
      rw [hresult] at hrun
      obtain ⟨hs, hsettles⟩ := hrun
      cases hsettles with
      | same r => exact ⟨fun _ _ => rfl, hkept _ hs⟩
      | staged hparent hid hdirty hstaged hclear =>
          refine ⟨fun _ h => (by cases h), ⟨leaf, ?_⟩, fun hclean => ?_, fun hpos hb => ?_,
            (Attached.sameWay hs).cacheMarks hs.cached, fun _ => hstaged⟩
          · rw [hparent, hid]
            exact (hattached.undisturbed hs).1
          · rw [hdirty] at hclean
            cases hclean
          · exact hclear hpos (((Attached.sameWay hs).onTheWay _).1 hb)

/-- A `sync` with something to commit. -/
theorem Session.InStep.sync (hx : x.InStep g path) (hcount : g.blockCount ≤ noBlock)
    (hdirty : x.file.dirty = true) (hsteady : x.Steady g path .sync) :
    x.Agrees g depth path .sync ∧ (x.step g depth .sync).2.InStep g path := by
  obtain ⟨leaf, hattached⟩ := hx.attached
  obtain ⟨entries, tail, hshows⟩ := hattached.shows
  obtain ⟨v, hview, hpair, hstands⟩ := hshows.view
  have hplace := hsteady hdirty v hview
  obtain ⟨e, -, -, -, he, -⟩ := hattached.entry hshows
  have hid : x.file.id < entries.length := (List.getElem?_eq_some_iff.1 he).1
  have hpost : (x.file.sync g depth x.state).Post _ _ :=
    ((triple_sync hdirty hpair (hstands hplace.quiet) hid hplace).post x.state rfl
      fun _ _ => True.intro).2
  have hcoordinates := (hx.staged hdirty).coordinates hcount
  -- the entry as the commit writes it
  have hwritten : ∀ {s : Fs} {f : File}, f.parent = x.file.parent → f.id = x.file.id →
      f.headBlock = x.file.headBlock → f.size = x.file.size → (f.dirty = true → f.Staged g) →
      Republished g x.state x.file.parent tail
        (entries.modify x.file.id (Entry.withStruct x.file.record)) s →
      Session.committed g path ⟨s, f⟩ = .ok (f.headBlock, f.size) ∧
        Session.InStep g path ⟨s, f⟩ := by
    intro s f hparent hfid hhead hsize hstaged hs
    obtain ⟨hway, hattached', hlayout⟩ := hattached.republished hshows hs
    have hcommitted : Session.committed g path ⟨s, f⟩ = .ok (f.headBlock, f.size) := by
      rw [Session.committed, hlayout, hcoordinates, hhead, hsize]
    refine ⟨hcommitted, ⟨leaf, ?_⟩, fun _ => hcommitted, fun hpos hb => ?_,
      hway.cacheMarks fun m hm => hx.cached m (hs.cached m hm), hstaged⟩
    · rw [hparent, hfid]
      exact hattached'
    · rw [hhead] at hb
      rw [hsize] at hpos
      exact hx.clear hpos ((hway.onTheWay _).1 hb)
  rw [Run.Post] at hpost
  cases hresult : (x.file.sync g depth x.state).result with
  | ok f =>
      rw [hresult] at hpost
      obtain ⟨rfl, hs⟩ := hpost
      have hstep : x.step g depth .sync =
          (.ok (), ⟨(x.file.sync g depth x.state).state, { x.file with dirty := false }⟩) := by
        rw [Session.step, hresult]
      obtain ⟨hcommitted, hin⟩ := hwritten (f := { x.file with dirty := false }) rfl rfl rfl rfl
        (fun h => by cases h) hs
      rw [hstep]
      refine ⟨⟨fun _ _ => ?_, fun e h => ?_⟩, hin⟩
      · rw [hstep]
        exact hcommitted
      · rw [hstep] at h
        cases h
  | error e =>
      rw [hresult] at hpost
      have hstep : x.step g depth .sync =
          (.error e, { x with state := (x.file.sync g depth x.state).state }) := by
        rw [Session.step, hresult]
      rw [hstep]
      refine ⟨⟨fun _ h => ?_, fun e h => ?_⟩, ?_⟩
      · rw [hstep] at h
        cases h
      · rw [hstep]
        exact ⟨rfl, rfl, rfl⟩
      · rcases hpost with hs | hs
        · obtain ⟨hway, hattached', hlayout⟩ := hattached.kept hshows hs
          exact hx.same hway (fun m hm => hx.cached m (hs.cached m hm)) ⟨leaf, hattached'⟩ hlayout
        · exact (hwritten rfl rfl rfl rfl hx.staged hs).2

/-- A steady call agrees, and leaves the handle in step. -/
theorem Session.InStep.step (hB : 128 ≤ g.blockSize) (hcount : g.blockCount ≤ noBlock)
    (hx : x.InStep g path) {c : HandleCall} (hc : x.Steady g path c) :
    x.Agrees g depth path c ∧ (x.step g depth c).2.InStep g path := by
  cases c with
  | write data =>
      obtain ⟨hkept, hin⟩ := hx.settle ((leaves_write hB hc.cursor hx.clear).post x.state
        (.refl hx.cached) hc.marks).2
      refine ⟨⟨fun h => (by cases h), fun e he => ?_⟩, hin⟩
      rw [show (x.step g depth (.write data)).2.file = x.file from hkept e he]
      exact ⟨rfl, rfl, rfl⟩
  | setLen newSize =>
      obtain ⟨hkept, hin⟩ := hx.settle ((leaves_setLen hB hx.cached hc.grows hx.clear
        hc.chain).post x.state rfl hc.marks).2
      refine ⟨⟨fun h => (by cases h), fun e he => ?_⟩, hin⟩
      rw [show (x.step g depth (.setLen newSize)).2.file = x.file from hkept e he]
      exact ⟨rfl, rfl, rfl⟩
  | sync =>
      cases hdirty : x.file.dirty with
      | true => exact hx.sync hcount hdirty hc
      | false =>
          have hstep : x.step g depth .sync = (.ok (), x) := by
            rw [Session.step, sync_clean hdirty]
            rfl
          rw [hstep]
          refine ⟨⟨fun _ _ => ?_, fun e he => ?_⟩, hx⟩
          · rw [hstep]
            exact hx.entry hdirty
          · rw [hstep] at he
            cases he

/-- Something holds of each call of a run, and of what the calls before it have led to. -/
theorem forall_prefix_cons {c₀ : HandleCall} {calls : List HandleCall}
    {P : List HandleCall → HandleCall → Prop} :
    (∀ pre c, pre ++ [c] <+: c₀ :: calls → P pre c) ↔
      P [] c₀ ∧ ∀ pre c, pre ++ [c] <+: calls → P (c₀ :: pre) c := by
  constructor
  · exact fun h => ⟨h [] c₀ (List.prefix_append [c₀] calls),
      fun pre c hpre => h (c₀ :: pre) c ((List.prefix_cons_inj c₀).2 hpre)⟩
  · rintro ⟨hfirst, hrest⟩ pre c hpre
    cases pre with
    | nil =>
        obtain ⟨rfl, -⟩ := List.cons_prefix_cons.1 hpre
        exact hfirst
    | cons c₁ pre =>
        obtain ⟨rfl, hpre'⟩ := List.cons_prefix_cons.1 hpre
        exact hrest pre c hpre'

theorem Session.InStep.after (hB : 128 ≤ g.blockSize) (hcount : g.blockCount ≤ noBlock)
    {calls : List HandleCall} (hx : x.InStep g path)
    (hsteady : ∀ pre c, pre ++ [c] <+: calls → (x.after g depth pre).Steady g path c) :
    (x.after g depth calls).InStep g path := by
  induction calls generalizing x with
  | nil => exact hx
  | cons c calls ih =>
      obtain ⟨hfirst, hrest⟩ := forall_prefix_cons.1 hsteady
      exact ih (hx.step hB hcount hfirst).2 hrest

/-- In every run of steady calls on a handle that is in step with its entry, each call agrees and
leaves the handle in step. -/
theorem steady_calls_agree (hg : g.Admitted) (hcount : g.blockCount ≤ noBlock)
    (hx : x.InStep g path) (calls : List HandleCall)
    (hsteady : ∀ pre c, pre ++ [c] <+: calls → (x.after g depth pre).Steady g path c) :
    (∀ pre c, pre ++ [c] <+: calls → (x.after g depth pre).Agrees g depth path c) ∧
      (x.after g depth calls).InStep g path := by
  have hB : 128 ≤ g.blockSize := hg.blockSize_floor
  refine ⟨fun pre c hpre => ?_, hx.after hB hcount hsteady⟩
  have hbefore : (x.after g depth pre).InStep g path := hx.after hB hcount fun pre' c' hpre' =>
    hsteady pre' c' (hpre'.trans ((List.prefix_append pre [c]).trans hpre))
  exact (hbefore.step hB hcount (hsteady pre c hpre)).1

end Runs

/-! ## Runs on fixed inputs

A new file on a device of 16 blocks.  A zero extension to 2048 bytes is more than one chunk: the
second chunk finds no block, and the `sync` behind it has nothing to do.

On a device with larger blocks the commit of the `sync` is appended.  A write of 1000 bytes takes
four blocks, one of 2000 bytes finds too few that are free and leaves the handle as it was, and
`sync` commits the first. -/

def handlePath : Path := ⟨[[0x68]], by decide⟩

def handleOptions : OpenOptions := { write := true, create := true }

/-- Open a new file on a device that was just formatted. -/
def handleOpened (g : Geometry) : Run Fs Error Event File :=
  openFile g 1 handlePath handleOptions
    (mount g 1 (format g (.init g (.blank g.blockCount) [])).state).state

/-- The handle of the new file. -/
def handleFile : File := ⟨rootBlockPair, 1, 0, noBlock, 0, false, handleOptions⟩

def handleSession (g : Geometry) : Session := ⟨(handleOpened g).state, handleFile⟩

def handleGeometry : Geometry := ⟨16, 16, 128, 16, 0⟩

theorem sync_misses_extension :
    (handleOpened handleGeometry).result = .ok handleFile ∧
      ¬ (handleSession handleGeometry).Agrees handleGeometry 1 handlePath (.setLen 2048) ∧
        ¬ ((handleSession handleGeometry).after handleGeometry 1 [.setLen 2048]).Agrees
          handleGeometry 1 handlePath .sync := by
  refine ⟨by decide +kernel, fun h => ?_, fun h => ?_⟩
  · have herror : ((handleSession handleGeometry).step handleGeometry 1 (.setLen 2048)).1 =
        .error .outOfRange := by decide +kernel
    have hsize : ((handleSession handleGeometry).step
        handleGeometry 1 (.setLen 2048)).2.file.size = 1024 := by decide +kernel
    have hkept := (h.kept _ herror).2.1
    rw [hsize] at hkept
    cases hkept
  · have hok : (((handleSession handleGeometry).after handleGeometry 1 [.setLen 2048]).step
        handleGeometry 1 .sync).1 = .ok () := by decide +kernel
    have hsize : (((handleSession handleGeometry).after handleGeometry 1 [.setLen 2048]).step
        handleGeometry 1 .sync).2.file.size = 1024 := by decide +kernel
    have hcommitted : (((handleSession handleGeometry).after handleGeometry 1 [.setLen 2048]).step
        handleGeometry 1 .sync).2.committed handleGeometry handlePath = .ok (noBlock, 0) := by
      decide +kernel
    have hsynced := h.synced rfl hok
    rw [hcommitted, hsize] at hsynced
    exact absurd (congrArg Prod.snd (Except.ok.inj hsynced)) (by decide)

def roomyGeometry : Geometry := ⟨16, 16, 256, 10, 0⟩

/-- The log that `format` and the creation of the file leave on the root. -/
def roomyLog : Except Error (ℕ × MetadataLog) := do
  let l ← formatLog roomyGeometry
  let slots ← gatherLiveSlots l
  let l' ← buildAppend roomyGeometry l
    { pair := rootBlockPair, op := .create 1 (nameBody [0x68]) (.bytes []) [] }
  pure (slots.count, l')

/-- The root shows the entries of the superblock and of the new file. -/
theorem handleOpened_shows : ∃ entries tail,
    (handleOpened roomyGeometry).state.device.Shows roomyGeometry rootBlockPair entries tail := by
  have hfetch : ((handleOpened roomyGeometry).state.device.fetch roomyGeometry rootBlockPair).map
      (fun pair => (1, pair.reader)) = roomyLog := by decide +kernel
  have hlog : roomyLog.map Prod.fst = .ok 1 := by decide +kernel
  obtain ⟨⟨count, l'⟩, hl', rfl : count = 1⟩ := map_eq_ok.1 hlog
  rw [hl'] at hfetch
  obtain ⟨pair, hpair, hreader⟩ := map_eq_ok.1 hfetch
  cases hreader
  obtain ⟨l, hl, hrest⟩ := bind_eq_ok.1 hl'
  obtain ⟨slots, hslots, hrest⟩ := bind_eq_ok.1 hrest
  obtain ⟨la, happend, hrest⟩ := bind_eq_ok.1 hrest
  obtain ⟨hcount, rfl⟩ := Prod.mk.inj (Except.ok.inj hrest)
  have hvalid : CommitRequest.Valid
      { pair := rootBlockPair, op := .create 1 (nameBody [0x68]) (.bytes []) [] } slots.count := by
    refine ⟨?_, True.intro, nofun, nofun⟩
    rintro id ⟨⟩
    exact hcount.symm
  have hwritten := Written.append (.format hl) hslots hvalid happend
  have hgathered : (((handleOpened roomyGeometry).state.device.fetch roomyGeometry
      rootBlockPair).bind fun pair => (gatherLiveSlots pair.reader).map Roster.count) = .ok 2 := by
    decide +kernel
  rw [hpair] at hgathered
  obtain ⟨slots', hslots', -⟩ := map_eq_ok.1 hgathered
  obtain ⟨entries, tail, htells⟩ := MetadataLog.Tells.of_written hwritten hslots'
  exact ⟨entries, tail, by decide, pair, hpair, htells⟩

/-- The new file is in step with its entry. -/
theorem handleSession_inStep : (handleSession roomyGeometry).InStep roomyGeometry handlePath := by
  have hleaf : (handleOpened roomyGeometry).state.device.successors roomyGeometry
      handlePath.components (handleOpened roomyGeometry).state.root = [] := by decide +kernel
  have hroot : (handleOpened roomyGeometry).state.root = rootBlockPair := by decide +kernel
  refine ⟨⟨[0x68], ⟨rootBlockPair, by decide +kernel, by decide +kernel⟩, handleOpened_shows,
    fun p hp hne => ?_⟩, fun _ => by decide +kernel, fun h => ?_, ?_, nofun⟩
  · exact absurd ((Device.passes_of_leaf hleaf hp).trans hroot) hne
  · exact absurd h (by decide)
  · have hcache : (handleOpened roomyGeometry).state.usedCache = none := by decide +kernel
    intro m hm
    rw [show (handleSession roomyGeometry).state.usedCache = none from hcache] at hm
    cases hm

def firstWrite : HandleCall := .write (List.replicate 1000 7)

def secondWrite : HandleCall := .write (List.replicate 2000 7)

/-- Where the root is all that is on the way, the allocator has to know its blocks. -/
theorem marks_of_leaf {g : Geometry} {path : Path} {s : Fs} {events : List Event}
    (hleaf : s.device.successors g path.components s.root = [])
    (h : AllEvents (Event.MarksHeld g (· ∈ [s.root.a, s.root.b])) events) :
    AllEvents (Event.MarksHeld g (s.OnTheWay g path)) events := by
  refine fun e he => (h e he).mono ?_
  rintro b ⟨p, hp, hb⟩
  rw [Device.passes_of_leaf hleaf hp] at hb
  exact List.mem_pair.2 hb

/-- The state in front of the `sync`. -/
def handleWritten : Session :=
  (handleSession roomyGeometry).after roomyGeometry 1 [firstWrite, secondWrite]

/-- What the `sync` finds on the root: the log has room for its commit. -/
def handleAppends (v : PairView) : Prop :=
  (v.alternateAddr = 1 ∧ v.pairAddr = handleWritten.state.root) ∧
    canAppend roomyGeometry v.log handleWritten.file.request = true ∧
      (Event.append v.log v.slots handleWritten.file.request.op).WithinLimits

instance : DecidablePred handleAppends := fun _ => inferInstanceAs (Decidable (_ ∧ _))

theorem handleWritten_steady : handleWritten.Steady roomyGeometry handlePath .sync := by
  intro _ v hv
  have hcheck : (viewPair roomyGeometry handleWritten.file.parent handleWritten.state).result.map
      (fun v => decide (handleAppends v)) = .ok true := by decide +kernel
  rw [hv] at hcheck
  obtain ⟨⟨halternate, hroot⟩, happend, hlim⟩ := of_decide_eq_true (Except.ok.inj hcheck)
  have hblank : handleWritten.state.device.get 1 = .erased := by decide +kernel
  have hno : ¬ canAppend roomyGeometry v.log handleWritten.file.request = false := by
    rw [happend]
    exact nofun
  refine ⟨?_, fun _ => ⟨hlim, fun h => absurd hroot h⟩, fun h => absurd h hno,
    fun h => absurd h hno, fun h => absurd h hno⟩
  rw [halternate, hblank]
  exact Block.erased_erasesQuietly _

theorem steady_calls_agree_handle :
    (∀ pre c, pre ++ [c] <+: [firstWrite, secondWrite, .sync] →
      ((handleSession roomyGeometry).after roomyGeometry 1 pre).Agrees roomyGeometry 1 handlePath
        c) ∧
    ((handleSession roomyGeometry).after roomyGeometry 1 [firstWrite, secondWrite, .sync]).InStep
      roomyGeometry handlePath := by
  refine steady_calls_agree (Geometry.admitted_iff.1 (by decide)) (by decide) handleSession_inStep
    _ ?_
  rw [forall_prefix_cons, forall_prefix_cons, forall_prefix_cons]
  refine ⟨⟨by decide +kernel, nofun, marks_of_leaf ?_ ?_⟩, ⟨?_, ?_, marks_of_leaf ?_ ?_⟩,
    handleWritten_steady, fun pre c h => ?_⟩
  · decide +kernel
  · decide +kernel
  · decide +kernel
  · decide +kernel
  · decide +kernel
  · decide +kernel
  · exact absurd (List.prefix_nil.1 h) (by simp)

end LittlefsPure
