import LittlefsPure.Chain.Sizes
import LittlefsPure.Disk.Reader
import LittlefsPure.Fs.File

/-!
# The bounds of the writers

`stream_ctz_extend`, `write_ctz_to_pair` and `set_len` check the block count of the new size.
The first two add and cast before the check, so a sum past the word gets through it.  `set_len`
hands over chunks of `ZERO_CHUNK` bytes, whose sums stay within the word, and finds out that
the new size is too long when it reaches the chunk that crosses the bound.

## Why the refused inputs are described too

A writer that refuses a size has to leave everything as it was, and a size that it should refuse
and does not is one that it gets wrong.  So for each writer there are the inputs it refuses with
nothing changed, those on which its sums do not fit a word, and the rest; and for `set_len` there
is the number of chunks that it has written when it finds out.
-/

namespace LittlefsPure

open Logic FsM

namespace Ctz

namespace U32

open Checked

/-- The bounds checks of the zero extension of `set_len`, chunk after chunk. -/
def zeroExtendBounds (g : Geometry) : ℕ → ℕ → ℕ → Option (Except Error ℕ)
  | 0, size, _ => some (.ok size)
  | fuel + 1, size, remaining =>
      if remaining = 0 then some (.ok size)
      else do
        let chunk := min remaining 1024
        match ← extendBounds g size chunk with
        | .error e => return .error e
        | .ok (_, newTotal, _) => zeroExtendBounds g fuel newTotal (← sub remaining chunk)

/-- The bounds checks of `set_len`. -/
def setLenBounds (g : Geometry) (size newSize : ℕ) : Option (Except Error ℕ) := do
  let remaining ← sub newSize size
  zeroExtendBounds g remaining size remaining

end U32

section Checks

variable {g : Geometry} {size : ℕ}

/-- The chunks of a zero extension end at a word, so no sum on the way overflows. -/
theorem zeroExtendBounds_exact (hB : 128 ≤ g.blockSize) (fuel : ℕ) {remaining : ℕ}
    (hsum : size + remaining < 2 ^ 32) :
    ∃ r, U32.zeroExtendBounds g fuel size remaining = some r := by
  induction fuel generalizing size remaining with
  | zero => exact ⟨_, rfl⟩
  | succ fuel ih =>
      rw [U32.zeroExtendBounds]
      split_ifs with hzero
      · exact ⟨_, rfl⟩
      simp only [Option.bind_eq_bind]
      rw [extendBounds_exact hB (by omega), Option.bind_some]
      split_ifs
      · exact ⟨_, rfl⟩
      · exact ⟨_, rfl⟩
      · show ∃ r, (Checked.sub remaining (min remaining 1024)).bind _ = some r
        rw [Checked.sub_of_le (Nat.min_le_left ..), Option.bind_some]
        exact ih (by omega)

theorem setLenBounds_exact (hB : 128 ≤ g.blockSize) {newSize : ℕ} (hle : size ≤ newSize)
    (hnew : newSize < 2 ^ 32) : ∃ r, U32.setLenBounds g size newSize = some r := by
  rw [U32.setLenBounds, Checked.sub_of_le hle]
  exact zeroExtendBounds_exact hB _ (by omega)

theorem OverLong.mono (h : OverLong g.blockSize size) {more : ℕ} (hle : size ≤ more) :
    OverLong g.blockSize more :=
  Nat.lt_of_lt_of_le h hle

end Checks

end Ctz

open Ctz

/-! ## What the writers do with a size past the bound -/

variable {g : Geometry} {depth : ℕ}

section Refused

variable {head size newSize : ℕ} {data : List Byte}

theorem streamCtzExtend_refused (head : ℕ) (data : List Byte) (hB : 128 ≤ g.blockSize)
    (hsize : size < 2 ^ 32)
    (hlong : OverLong g.blockSize size ∨
      size + data.length < 2 ^ 32 ∧ OverLong g.blockSize (size + data.length)) (s : Fs) :
    streamCtzExtend g head size data s = ⟨.error .outOfRange, s, []⟩ := by
  rw [streamCtzExtend]
  by_cases hold : maxCtzWriteBlocks < blockCount size g.blockSize
  · rw [if_pos hold]
    rfl
  · obtain ⟨hsum, hnew⟩ := hlong.resolve_left (mt (overLong_write hB hsize).1 hold)
    rw [if_neg hold, if_pos ((overLong_write hB hsum).1 hnew)]
    rfl

theorem fileTarget_state (pair : BlockPair) (name : List Byte) (s : Fs) :
    (fileTarget g pair name s).state = s := by
  rw [fileTarget]
  cases hseek : seekEntryInChain g s.device pair (nameBody name) with
  | error e => rw [Program.bind_of_error (e := e) hseek]; rfl
  | ok found =>
      rw [Program.bind_of_ok (a := found) hseek]
      cases found with
      | found owner id kind =>
          by_cases hkind : kind ≠ .regularFile
          · simp only [if_pos hkind]
            rfl
          · simp only [if_neg hkind]
            rfl
      | absent lastPair count => rfl

theorem writeCtzToPair_refused (hB : 128 ≤ g.blockSize) {name content : List Byte}
    (hlen : content.length < 2 ^ 32) (hlong : OverLong g.blockSize content.length)
    (hname : ¬ (name = [] ∨ nameMax < name.length)) {pair : BlockPair} {s : Fs}
    {target : BlockPair × Option ℕ} (htarget : (fileTarget g pair name s).result = .ok target) :
    (writeCtzToPair g depth pair name content s).result = .error .outOfRange ∧
      (writeCtzToPair g depth pair name content s).state = s := by
  have hmany := (overLong_write hB hlen).1 hlong
  rw [writeCtzToPair, if_neg hname, Program.bind_of_ok htarget]
  simp only
  rw [if_neg (show ¬ blockCount content.length g.blockSize = 0 by omega), if_pos hmany]
  exact ⟨rfl, fileTarget_state pair name s⟩

theorem shrinkCtzHead_refused (head newSize : ℕ) (hB : 128 ≤ g.blockSize) (hsize : size < 2 ^ 32)
    (hlong : OverLong g.blockSize size) (s : Fs) :
    shrinkCtzHead g head size newSize s = ⟨.error .outOfRange, s, []⟩ := by
  rw [shrinkCtzHead, if_pos ((overLong_iff hB hsize).1 hlong)]
  rfl

theorem keepAccount_run {α : Type} (m : FsM α) (s : Fs) :
    File.keepAccount m s = (attempt m >>= fun result =>
      if result.toBool then pure result
      else do
        account fun _ => s.unpublished
        pure result) s := Program.get_bind_run _ s

/-- What a chain operation of a handle hands over is what it ended with. -/
theorem tryExtend_result (head size : ℕ) (data : List Byte) (s : Fs) :
    (File.tryExtend g head size data s).result =
      .ok (streamCtzExtend g head size data s).result := by
  rw [File.tryExtend, keepAccount_run,
    Program.bind_of_ok (a := (streamCtzExtend g head size data s).result) rfl]
  show ((if (streamCtzExtend g head size data s).result.toBool then _ else _ :
    FsM (Except Error (ℕ × ℕ))) _).result = _
  split_ifs <;> rfl

theorem keepAccount_refused {α : Type} {m : FsM α} {s : Fs} {e : Error}
    (h : m s = ⟨.error e, s, []⟩) : File.keepAccount m s = ⟨.ok (.error e), s, []⟩ := by
  rw [keepAccount_run, Program.bind_of_ok (a := (m s).result) rfl, Program.attempt_run, h]
  rfl

end Refused

/-! ## A device nothing can be appended on -/

/-- A programmed device without a superblock. -/
def unreadable (g : Geometry) : Device :=
  ⟨List.replicate g.blockCount (.raw (List.replicate g.blockSize 0))⟩

/-- The handle finds no tree, and has no cached bitmap to allocate from. -/
structure Unreadable (g : Geometry) (s : Fs) : Prop where
  device : s.device = unreadable g
  root : s.root = BlockPair.mk 0 1
  cache : s.usedCache = none

/-- Such a handle. -/
def unreadableFs (g : Geometry) : Fs where
  device := unreadable g
  superblock := ⟨diskVersion, g.blockSize, g.blockCount, nameMax, 0, 0⟩
  root := ⟨0, 1⟩
  usedCache := none
  pendingMove := none
  script := []
  unpublished := {}

theorem readTags_zero (fuel n len : ℕ) (crc : BitVec 32) (acc : ReadSoFar) :
    readTags fuel (List.replicate n 0) len 0xFFFFFFFF crc [] none acc = acc := by
  have hzero : ∀ i, (List.replicate n (0 : Byte)).getD i 0 = 0 := fun i => by
    rw [List.getD_eq_getElem?_getD, List.getElem?_replicate]
    split_ifs
    · rfl
    · rfl
  have hword : ofBe32 (List.replicate n 0) = 0 := by
    simp only [ofBe32, hzero]
    rfl
  refine readTags_invalid (w := 0xFFFFFFFF) ?_ (by omega)
  rw [hword]
  exact Nat.zero_xor _

theorem reader_zero (g : Geometry) :
    ((Block.raw (List.replicate g.blockSize 0)).reader g).hasCommits = false := by
  have htags : ((Block.raw (List.replicate g.blockSize 0)).reader g).tags = [] := by
    simp only [Block.reader, MetadataLog.ofBytes, List.length_replicate, Nat.sub_self,
      List.replicate_zero, List.append_nil, List.drop_replicate]
    rw [readTags_zero]
  rw [MetadataLog.hasCommits, htags]
  rfl

theorem parse_of_no_commits {p : BlockPair} {a b : MetadataLog} (ha : a.hasCommits = false)
    (hb : b.hasCommits = false) : MetadataPair.parse p a b = .error .corrupt := by
  unfold MetadataPair.parse
  cases revNotOlder a.revision b.revision with
  | true => simp only [if_true, ha, hb, Bool.false_eq_true, if_false]
  | false => simp only [Bool.false_eq_true, if_false, ha, hb]

theorem unreadable_read {addr : ℕ} (h : addr < g.blockCount) :
    (unreadable g).read addr = .ok (.raw (List.replicate g.blockSize 0)) := by
  refine Device.read_eq_ok.2 ⟨by simpa [unreadable] using h, ?_⟩
  simp [unreadable, Device.get, h]

section Unreadable

variable {s : Fs}

theorem Unreadable.rescan (h : Unreadable g s) (hg : g.Admitted) (chain : Option (ℕ × ℕ)) :
    Alloc.rescan g s.device s.root false chain = .error .corrupt := by
  have hcount : 2 ≤ g.blockCount := hg.blockCount_root
  have hscan : Alloc.scanPair g (unreadable g) ⟨0, 1⟩ .empty = .error .corrupt := by
    have hreaders : (unreadable g).readers g ⟨0, 1⟩ =
        .ok ((Block.raw (List.replicate g.blockSize 0)).reader g,
          (Block.raw (List.replicate g.blockSize 0)).reader g) := by
      rw [Device.readers, unreadable_read (show 0 < g.blockCount by omega),
        unreadable_read (show 1 < g.blockCount by omega)]
      rfl
    rw [Alloc.scanPair]
    show ((unreadable g).readers g ⟨0, 1⟩).bind _ = _
    rw [hreaders]
    show (MetadataPair.parse _ _ _).bind _ = _
    rw [parse_of_no_commits (reader_zero g) (reader_zero g)]
    rfl
  rw [h.device, h.root]
  show (Alloc.scanPair g (unreadable g) ⟨0, 1⟩ .empty).bind _ >>= _ = _
  rw [hscan]
  rfl

theorem Unreadable.alloc (h : Unreadable g s) (hg : g.Admitted) (excluded : List ℕ)
    (chain : Option (ℕ × ℕ)) (want : ℕ) :
    Alloc.allocCached g s.device s.root false s.usedCache excluded chain want =
      (none, .error .corrupt) := by
  rw [h.cache]
  show Alloc.allocFresh g s.device s.root false none excluded chain want = _
  rw [Alloc.allocFresh, h.rescan hg]

end Unreadable

/-- The operation cannot allocate. -/
def Stuck {α : Type} (g : Geometry) (m : FsM α) : Prop :=
  Triple (fun _ => True) (fun _ => True) (Unreadable g) m (fun _ _ => False) fun e _ => e = .corrupt

theorem Stuck.bind {α β : Type} {m : FsM α} (h : Stuck g m) (f : α → FsM β) : Stuck g (m >>= f) :=
  Triple.bind h fun _ => ⟨fun _ hs => hs.elim⟩

theorem Stuck.result {α : Type} {m : FsM α} (h : Stuck g m) {s : Fs} (hs : Unreadable g s) :
    (m s).result = .error .corrupt := by
  have hpost := (h.post s hs fun _ _ => True.intro).2
  unfold Run.Post at hpost
  cases hresult : (m s).result with
  | ok a =>
      rw [hresult] at hpost
      exact hpost.elim
  | error e =>
      rw [hresult] at hpost
      rw [hpost]

theorem stuck_allocBlocks (hg : g.Admitted) (excluded : List ℕ) (chain : Option (ℕ × ℕ))
    (want : ℕ) :
    Stuck g (allocBlocks g false excluded chain want) := by
  refine Triple.get_bind fun s hs => ?_
  simp only [hs.alloc hg]
  refine Triple.seq (R := fun _ => True) (Triple.set fun _ _ => True.intro)
    (Triple.bind (R := fun _ _ => False) (Triple.lift (fun _ _ _ h => ?_) fun _ _ _ h => ?_)
      fun _ => ⟨fun _ hs => hs.elim⟩)
  · cases h
  · cases h
    rfl

theorem stuck_rebuildTail (hg : g.Admitted) (head off : ℕ) (fill : List Byte)
    (chain : Option (ℕ × ℕ)) (left : ℕ) (excluded : List ℕ) :
    Stuck g (rebuildTail g head off fill chain left excluded) := by
  rw [rebuildTail.eq_def]
  exact (stuck_allocBlocks hg ..).bind _

theorem stuck_appendBlocks (hg : g.Admitted) (tailAddr oldSize newCount : ℕ) {content : List Byte}
    (hne : content ≠ []) : Stuck g (appendBlocks g tailAddr oldSize newCount content) := by
  rw [appendBlocks, if_neg hne]
  refine Stuck.bind ?_ _
  rw [extendChain.eq_def]
  exact (stuck_allocBlocks hg ..).bind _

/-- No cell of the device is clean. -/
theorem unreadable_dirty {off fill : ℕ} (hoff : off < g.blockSize) (hfill : 0 < fill) :
    ((Block.raw (List.replicate g.blockSize 0)).slice off fill).all (· == 0xFF) = false := by
  refine List.all_eq_false.2 ⟨0, ?_, by decide⟩
  refine List.mem_of_getElem? (i := 0) ?_
  rw [Block.getElem?_slice _ hfill, Block.cell]
  simp [Block.bytes, List.getD_eq_getElem?_getD, hoff]

/-- The tail is dirty, so whatever goes into it goes into a new block. -/
theorem planTail_unreadable (hg : g.Admitted) {head size : ℕ} (hsize : size < 2 ^ 32)
    (hhead : 0 < blockCount size g.blockSize → head < g.blockCount) (data : List Byte) :
    Triple (fun _ => True) (fun _ => True) (Unreadable g) (planTail g head size data)
      (fun plan s => Unreadable g s ∧ plan = (head, none, 0)) fun e _ => e = .corrupt := by
  have hB : 128 ≤ g.blockSize := hg.blockSize_floor
  rw [planTail]
  refine Triple.ite (fun _ => Triple.pure fun s hs => ⟨hs, rfl⟩) fun hblocks => ?_
  refine Triple.ite (fun _ => Triple.pure fun s hs => ⟨hs, rfl⟩) fun hfill => ?_
  have hcount := blockCount_le_of_lt hB hsize
  have hskip : skipPointersInBlock (blockCount size g.blockSize - 1) ≤ 32 :=
    skipPointers_le (by omega)
  refine Triple.bind (R := fun tail s => Unreadable g s ∧
      tail = .raw (List.replicate g.blockSize 0)) (Triple.query (fun s tail hs h => ?_)
        fun s e hs h => ?_) fun tail => Triple.pre fun htail => ?_
  · rw [hs.device] at h
    cases (unreadable_read (hhead (Nat.pos_of_ne_zero hblocks))).symm.trans h
    exact ⟨hs, rfl⟩
  · rw [hs.device] at h
    cases (unreadable_read (hhead (Nat.pos_of_ne_zero hblocks))).symm.trans h
  · rw [contentBytesInBlock] at hfill ⊢
    rw [htail, unreadable_dirty (by omega) (by omega)]
    exact ((stuck_rebuildTail hg ..).bind _).weaken fun _ _ h => h.elim

theorem stuck_streamCtzExtend (head size : ℕ) (hg : g.Admitted) {data : List Byte}
    (hsum : size + data.length < 2 ^ 32) (hshort : ¬ OverLong g.blockSize (size + data.length))
    (hne : data ≠ []) : Stuck g (streamCtzExtend g head size data) := by
  have hB : 128 ≤ g.blockSize := hg.blockSize_floor
  have hold : ¬ OverLong g.blockSize size := fun h => hshort (h.mono (Nat.le_add_right ..))
  rw [streamCtzExtend]
  rw [if_neg (mt (overLong_write hB (by omega)).2 hold),
    if_neg (mt (overLong_write hB hsum).2 hshort)]
  refine Triple.bind (R := fun _ s => Unreadable g s ∧
      (0 < blockCount size g.blockSize → head < g.blockCount))
    (Triple.lift (fun s a hs h => ⟨hs, fun hpos => ?_⟩) fun s e hs h => ?_) fun _ =>
      Triple.pre fun hhead => ?_
  · rw [if_pos hpos] at h
    exact (requireInBounds_eq_ok.1 h).1
  · rw [requireInBounds] at h
    split_ifs at h
    cases h
    rfl
  refine Triple.seq (R := Unreadable g) ?_ ?_
  · exact Triple.get_bind fun s hs => Triple.note fun s' hs' _ => ⟨True.intro, hs' ▸ hs⟩
  refine Triple.bind (planTail_unreadable hg (by omega) hhead data) fun plan =>
    Triple.pre fun hplan => ?_
  rw [hplan]
  exact Stuck.bind (stuck_appendBlocks hg _ _ _ hne) _

/-! ## The conditions -/

/-- No operation of the checks of `stream_ctz_extend` goes wrong, and a size past the bound is
refused before anything else. -/
structure ExtendSafe (g : Geometry) (head oldSize : ℕ) (data : List Byte) : Prop where
  exact : ∃ r, U32.extendBounds g oldSize data.length = some r
  refused : OverLong g.blockSize oldSize ∨ OverLong g.blockSize (oldSize + data.length) →
    ∀ s, streamCtzExtend g head oldSize data s = ⟨.error .outOfRange, s, []⟩

theorem extendSafe_iff (hB : 128 ≤ g.blockSize) {head oldSize : ℕ} {data : List Byte}
    (hsize : oldSize < 2 ^ 32) :
    ExtendSafe g head oldSize data ↔
      OverLong g.blockSize oldSize ∨ oldSize + data.length < 2 ^ 32 := by
  constructor
  · rintro ⟨⟨r, hr⟩, -⟩
    by_contra hno
    push Not at hno
    rw [extendBounds_none hB hsize hno.1 hno.2] at hr
    cases hr
  · rintro (hlong | hsum)
    · exact ⟨⟨_, extendBounds_refused hB hsize hlong⟩,
        fun _ => streamCtzExtend_refused _ _ hB hsize (.inl hlong)⟩
    · exact ⟨⟨_, extendBounds_exact hB hsum⟩,
        fun h => streamCtzExtend_refused _ _ hB hsize (h.imp_right fun hlong => ⟨hsum, hlong⟩)⟩

/-- The call of `write_ctz_to_pair` gets to its check: the name is valid and the target is
found. -/
def WriteReaches (g : Geometry) (pair : BlockPair) (name : List Byte) (s : Fs)
    (target : BlockPair × Option ℕ) : Prop :=
  ¬ (name = [] ∨ nameMax < name.length) ∧ (fileTarget g pair name s).result = .ok target

/-- No operation of the check of `write_ctz_to_pair` goes wrong where the call gets to it, and
content past the bound is refused there. -/
structure WriteSafe (g : Geometry) (depth : ℕ) (pair : BlockPair) (name content : List Byte)
    (s : Fs) : Prop where
  exact : ∀ target, WriteReaches g pair name s target →
    ∃ r, U32.writeBounds g content.length = some r
  refused : OverLong g.blockSize content.length → ∀ target, WriteReaches g pair name s target →
    (writeCtzToPair g depth pair name content s).result = .error .outOfRange ∧
      (writeCtzToPair g depth pair name content s).state = s

theorem writeSafe_iff (hB : 128 ≤ g.blockSize) {pair : BlockPair} {name content : List Byte}
    {s : Fs} : WriteSafe g depth pair name content s ↔
      (∀ target, ¬ WriteReaches g pair name s target) ∨ content.length < 2 ^ 32 := by
  constructor
  · intro h
    by_cases hreach : ∃ target, WriteReaches g pair name s target
    · obtain ⟨target, hreach⟩ := hreach
      exact .inr ((writeBounds_isSome hB).1 (h.exact target hreach))
    · exact .inl fun target htarget => hreach ⟨target, htarget⟩
  · rintro (hnone | hlen)
    · exact ⟨fun target h => absurd h (hnone target), fun _ target h => absurd h (hnone target)⟩
    · exact ⟨fun _ _ => (writeBounds_isSome hB).2 hlen,
        fun hlong _ hreach => writeCtzToPair_refused hB hlen hlong hreach.1 hreach.2⟩

/-- `set_len` turns the call down: the handle and the device stay. -/
def File.TurnsDown (g : Geometry) (f : File) (newSize : ℕ) (s : Fs) : Prop :=
  (f.setLen g newSize s).result = .ok (f, .error .outOfRange) ∧
    (f.setLen g newSize s).state.device = s.device

/-- No operation of the checks of `set_len` goes wrong, and a new size past the bound or an
old one is refused. -/
structure SetLenSafe (g : Geometry) (f : File) (newSize : ℕ) : Prop where
  exact : f.size < newSize → ∃ r, U32.setLenBounds g f.size newSize = some r
  grown : f.size < newSize → OverLong g.blockSize newSize → ∀ s, f.TurnsDown g newSize s
  cut : 0 < newSize → newSize < f.size → OverLong g.blockSize f.size → ∀ s, f.TurnsDown g newSize s

section SetLen

variable {f : File} {newSize : ℕ}

theorem setLen_cut (hB : 128 ≤ g.blockSize) (hwritable : f.options.writable = true)
    (hsize : f.size < 2 ^ 32) (hpos : 0 < newSize) (hless : newSize < f.size)
    (hlong : OverLong g.blockSize f.size) (s : Fs) : f.TurnsDown g newSize s := by
  have hkeep := keepAccount_refused (shrinkCtzHead_refused f.headBlock newSize hB hsize
    hlong s)
  have hrun : f.setLen g newSize s = ⟨.ok (f, .error .outOfRange), s, []⟩ := by
    rw [File.setLen, if_neg (by simp [hwritable]), if_neg (by omega), if_pos hless,
      if_neg (by omega), Program.bind_of_ok (a := .error .outOfRange) (by rw [hkeep]), hkeep]
    rfl
  exact ⟨by rw [hrun], by rw [hrun]⟩

/-- A zero extension whose first chunk fails. -/
theorem zeroExtend_first (fuel : ℕ) {head size remaining : ℕ} (hfuel : 0 < fuel)
    (hmore : 0 < remaining)
    {s : Fs} {e : Error} (h : (streamCtzExtend g head size
      (List.replicate (min remaining 1024) 0) s).result = .error e) :
    (File.zeroExtend g fuel head size remaining s).result = .ok ((head, size), .error e) ∧
      (File.zeroExtend g fuel head size remaining s).state =
        (File.tryExtend g head size (List.replicate (min remaining 1024) 0) s).state := by
  obtain ⟨fuel, rfl⟩ := Nat.exists_eq_succ_of_ne_zero (Nat.ne_of_gt hfuel)
  have htry := tryExtend_result (g := g) head size
    (List.replicate (min remaining 1024) 0) s
  rw [h] at htry
  rw [File.zeroExtend, if_neg (Nat.ne_of_gt hmore), Program.bind_of_ok htry]
  exact ⟨rfl, rfl⟩

theorem setLen_first (hwritable : f.options.writable = true) (hmore : f.size < newSize) {s : Fs}
    {e : Error} (h : (streamCtzExtend g f.headBlock f.size
      (List.replicate (min (newSize - f.size) 1024) 0) s).result = .error e) :
    (f.setLen g newSize s).result = .ok ({ f with pos := f.size }, .error e) ∧
      (f.setLen g newSize s).state = (File.tryExtend g f.headBlock f.size
        (List.replicate (min (newSize - f.size) 1024) 0) s).state := by
  obtain ⟨hresult, hstate⟩ := zeroExtend_first (newSize - f.size) (by omega) (by omega) h
  rw [File.setLen, if_neg (by simp [hwritable]), if_neg (by omega), if_neg (by omega),
    Program.bind_of_ok hresult]
  exact ⟨rfl, hstate⟩

/-- A growing `set_len` moves the cursor before it can fail. -/
theorem setLen_error (hwritable : f.options.writable = true) (hmore : f.size < newSize) {s : Fs}
    {f' : File} {e : Error} (h : (f.setLen g newSize s).result = .ok (f', .error e)) :
    f'.pos = f.size := by
  rw [File.setLen, if_neg (by simp [hwritable]), if_neg (by omega), if_neg (by omega)] at h
  cases hzero : (File.zeroExtend g (newSize - f.size) f.headBlock f.size
      (newSize - f.size) s).result with
  | error e =>
      rw [Program.bind_of_error hzero] at h
      cases h
  | ok r =>
      obtain ⟨⟨head, size⟩, result⟩ := r
      rw [Program.bind_of_ok hzero] at h
      cases result with
      | ok _ => cases h
      | error _ =>
          cases h
          rfl

theorem moved_eq (h : f.pos = f.size) : { f with pos := f.size } = f := by
  cases f
  cases h
  rfl

theorem setLenSafe_iff (hg : g.Admitted) (hwritable : f.options.writable = true)
    (hsize : f.size < 2 ^ 32) (hnew : newSize < 2 ^ 32) :
    SetLenSafe g f newSize ↔ newSize ≤ f.size ∨ ¬ OverLong g.blockSize newSize ∨
      f.pos = f.size ∧ OverLong g.blockSize (f.size + min (newSize - f.size) 1024) := by
  have hB : 128 ≤ g.blockSize := hg.blockSize_floor
  have hexact : f.size < newSize → ∃ r, U32.setLenBounds g f.size newSize = some r :=
    fun hmore => setLenBounds_exact hB (Nat.le_of_lt hmore) hnew
  have hcut : 0 < newSize → newSize < f.size → OverLong g.blockSize f.size →
      ∀ s, f.TurnsDown g newSize s :=
    fun hpos hless hlong => setLen_cut hB hwritable hsize hpos hless hlong
  constructor
  · rintro ⟨-, hgrown, -⟩
    by_contra hno
    push Not at hno
    obtain ⟨hmore, hlong, hfirst⟩ := hno
    have hs : Unreadable g (unreadableFs g) := ⟨rfl, rfl, rfl⟩
    obtain ⟨hresult, -⟩ := hgrown hmore hlong (unreadableFs g)
    have hpos : f.pos = f.size := setLen_error hwritable hmore hresult
    have hlen : (List.replicate (min (newSize - f.size) 1024) (0 : Byte)).length =
      min (newSize - f.size) 1024 := List.length_replicate
    have hstuck := stuck_streamCtzExtend f.headBlock f.size hg
      (by rw [hlen]; omega) (by rw [hlen]; exact hfirst hpos)
      (List.ne_nil_of_length_pos (by rw [hlen]; omega))
    have hfails := (setLen_first hwritable hmore (hstuck.result hs)).1
    rw [hresult] at hfails
    have herror : (.error .outOfRange : Except Error Unit) = .error .corrupt :=
      congrArg Prod.snd (Except.ok.inj hfails)
    cases herror
  · rintro (hle | hshort | ⟨hpos, hfirst⟩)
    · exact ⟨hexact, fun hmore => absurd hmore (Nat.not_lt_of_le hle), hcut⟩
    · exact ⟨hexact, fun _ hlong => absurd hlong hshort, hcut⟩
    · refine ⟨hexact, fun hmore _ s => ?_, hcut⟩
      have hlen : (List.replicate (min (newSize - f.size) 1024) (0 : Byte)).length =
        min (newSize - f.size) 1024 := List.length_replicate
      have hrefused := streamCtzExtend_refused f.headBlock
        (List.replicate (min (newSize - f.size) 1024) 0) hB hsize
        (.inr ⟨by rw [hlen]; omega, by rw [hlen]; exact hfirst⟩) s
      obtain ⟨hresult, hstate⟩ := setLen_first hwritable hmore (by rw [hrefused])
      refine ⟨?_, ?_⟩
      · rw [hresult, moved_eq hpos]
      · rw [hstate, File.tryExtend, keepAccount_refused hrefused]

end SetLen

/-- Where the sizes stay within the word, and a size past the bound is refused: reads up to a
block before which and with which the chain holds less than `2 ^ 32` bytes, extensions to a size
below `2 ^ 32`, content of such a length where the call gets to its check, and a growing
`set_len` whose first chunk crosses the bound or whose last does not.  An extension of a chain
that is too long already is refused before its size is formed. -/
theorem ctz_sizes_within_word (g : Geometry) (hg : g.Admitted) :
    (∀ (d : Device) head size start outLen, d.blocks.length = g.blockCount → size < 2 ^ 32 →
      (ReadSafe g d head size start outLen ↔ ReadFits g d head size start outLen)) ∧
    (∀ head oldSize data, oldSize < 2 ^ 32 → (ExtendSafe g head oldSize data ↔
      OverLong g.blockSize oldSize ∨ oldSize + data.length < 2 ^ 32)) ∧
    (∀ depth pair name content s, WriteSafe g depth pair name content s ↔
      (∀ target, ¬ WriteReaches g pair name s target) ∨ content.length < 2 ^ 32) ∧
    ∀ (f : File) newSize, f.options.writable = true → f.size < 2 ^ 32 → newSize < 2 ^ 32 →
      (SetLenSafe g f newSize ↔ newSize ≤ f.size ∨ ¬ OverLong g.blockSize newSize ∨
        f.pos = f.size ∧ OverLong g.blockSize (f.size + min (newSize - f.size) 1024)) :=
  ⟨fun _ _ _ _ _ hdev hsize => readSafe_iff hg hdev hsize,
    fun _ _ _ hsize => extendSafe_iff hg.blockSize_floor hsize,
    fun _ _ _ _ _ => writeSafe_iff hg.blockSize_floor,
    fun _ _ hwritable hsize hnew => setLenSafe_iff hg hwritable hsize hnew⟩

/-- At the smallest block size, a chain holds far less than a word counts. -/
theorem ctz_sizes_within_word_small : (⟨16, 16, 128, 16, 1⟩ : Geometry).Admitted ∧
    ExtendSafe ⟨16, 16, 128, 16, 1⟩ 2 100 [1, 2, 3] :=
  ⟨Geometry.admitted_iff.1 (by decide),
    ((ctz_sizes_within_word _ (Geometry.admitted_iff.1 (by decide))).2.1 2 100 [1, 2, 3]
      (by decide)).2 (.inr (by decide))⟩

/-- A block of half a word: the third block of a chain ends past the word, and a read there
wraps.  A block of 16 MiB: a chain of almost 4 GiB plus 4000 bytes wraps.  A block of 2048 bytes:
`set_len` past the bound writes its first chunk into the tail. -/
theorem ctz_sizes_wrap :
    (Geometry.fault ⟨16, 16, 2 ^ 31, 3, 1⟩ = none ∧
      U32.readCtzAt ⟨16, 16, 2 ^ 31, 3, 1⟩
        ⟨[.raw [], .raw [0, 0, 0, 0], .raw [1, 0, 0, 0, 0, 0, 0, 0]]⟩ 2
          (2 ^ 32 - 1) (2 ^ 32 - 3) 2 = none) ∧
    (Geometry.fault ⟨16, 16, 2 ^ 24, 1024, 1⟩ = none ∧
      U32.extendBounds ⟨16, 16, 2 ^ 24, 1024, 1⟩ (2 ^ 32 - 3000) 4000 = none) ∧
    Geometry.fault ⟨16, 16, 2048, 3, 1⟩ = none ∧
      OverLong 2048 522281 ∧
      ∃ f : File, f.size = 520780 ∧ f.pos = 520780 ∧ f.options.writable = true ∧
        ((f.setLen ⟨16, 16, 2048, 3, 1⟩ 522281 ⟨⟨[.erased, .erased, .erased]⟩,
          ⟨diskVersion, 2048, 3, nameMax, 0, 0⟩, ⟨0, 1⟩, none, none, [], {}⟩).result =
            .ok ({ f with headBlock := 2, size := 521804 }, .error .outOfRange)) := by
  refine ⟨⟨by decide, by decide +kernel⟩, ⟨by decide, by decide +kernel⟩, by decide,
    by decide +kernel, ⟨⟨0, 1⟩, 1, 520780, 2, 520780, false, { write := true }⟩, rfl, rfl, rfl, ?_⟩
  decide +kernel

end LittlefsPure
