import LittlefsPure.Chain.Extend
import LittlefsPure.Fs.File
import LittlefsPure.Split.Directory

/-!
# What the chain operations return and leave alone

On any device, whatever the outcomes of its calls: `stream_ctz_extend` returns the size
with the data on it and a block of the device, and `shrink_ctz_head` a block of the device.
So a handle never comes to hold the null address beside a size.

Some blocks are not to be touched: they belong to the pairs that a lookup of the file reads.  The
operations program the tail of their chain and blocks that the allocator hands out, so it takes
that the tail is none of them and that the allocator knows them: each bitmap that an allocation
can start from has them marked, `Event.MarksHeld`.

## Why the null address matters

The entry of a file without content holds no chain, and `sync` tells the two cases apart by the
head alone.  A handle with a null head and a size would be committed as empty.  That it never
comes about is a matter of what the chain operations return, on any device and under any faults.

## Why the condition is on the bitmap

The allocator hands out what its bitmap has free.  To ask that it hands out none of the blocks
would be to ask for the outcome of the call; the bitmap is what the call finds, the cache that
earlier calls have left or what a scan of the device as it is comes to.
-/

namespace LittlefsPure

open FsM Logic

/-- The blocks are marked. -/
def Bitmap.Marks (held : ℕ → Prop) (m : Bitmap) : Prop := ∀ b, held b → m.isSet b = true

/-- An allocation that the cache cannot serve scans the device, and the scan marks the blocks. -/
def Event.MarksHeld (g : Geometry) (held : ℕ → Prop) : Event → Prop
  | .alloc call _ _ =>
      (∀ m, call.cache = some m →
        (Alloc.takeFreeBlocks m call.excluded call.want g.blockCount).2 = none) →
      ∀ m, Alloc.rescan g call.device call.root call.singleBuf call.chain = .ok m → m.Marks held
  | _ => True

theorem Event.MarksHeld.mono {g : Geometry} {held held' : ℕ → Prop} (hle : ∀ b, held' b → held b)
    {e : Event} (h : e.MarksHeld g held) : e.MarksHeld g held' := by
  cases e with
  | alloc call _ _ => exact fun hfull m hm b hb => h hfull m hm b (hle b hb)
  | _ => exact True.intro

instance (g : Geometry) (held : List ℕ) : DecidablePred (Event.MarksHeld g (· ∈ held))
  | .alloc call _ _ => decidable_of_iff
      ((∀ m ∈ call.cache, (Alloc.takeFreeBlocks m call.excluded call.want g.blockCount).2 = none) →
        ∀ m ∈ (Alloc.rescan g call.device call.root call.singleBuf call.chain).toOption,
          ∀ b ∈ held, m.isSet b = true)
      (imp_congr Iff.rfl (forall_congr' fun m => by
        cases Alloc.rescan g call.device call.root call.singleBuf call.chain <;>
          simp [Except.toOption, Bitmap.Marks]))
  | .erase .. | .program .. | .programBytes .. | .append .. | .rebuild .. | .commit .. |
    .resume .. => isTrue True.intro

/-- The cache of the allocator, if there is one, has the blocks marked. -/
def Fs.CacheMarks (held : ℕ → Prop) (s : Fs) : Prop := ∀ m, s.usedCache = some m → m.Marks held

/-- The blocks hold what they held, the root is where it was, and the cache knows the blocks. -/
structure Undisturbed (held : ℕ → Prop) (s₀ s : Fs) : Prop where
  root : s.root = s₀.root
  length : s.device.blocks.length = s₀.device.blocks.length
  get : ∀ b, held b → s.device.get b = s₀.device.get b
  cached : s.CacheMarks held

/-- A block of the device that may be programmed. -/
structure Unheld (g : Geometry) (held : ℕ → Prop) (b : ℕ) : Prop where
  bound : b < g.blockCount
  free : ¬ held b

variable {g : Geometry} {held : ℕ → Prop} {s₀ : Fs}

namespace Undisturbed

theorem refl (h : s₀.CacheMarks held) : Undisturbed held s₀ s₀ := ⟨rfl, rfl, fun _ _ => rfl, h⟩

theorem write {s s' : Fs} {addr : ℕ} (h : Undisturbed held s₀ s) (hw : WritesOnly addr s s')
    (haddr : ¬ held addr) : Undisturbed held s₀ s' where
  root := hw.root.trans h.root
  length := hw.length.trans h.length
  get b hb := (hw.other b fun heq => haddr (heq ▸ hb)).trans (h.get b hb)
  cached := by
    intro m hm
    rw [hw.frame] at hm
    exact h.cached m hm

/-- The fetch of a pair of the blocks. -/
theorem fetch {s : Fs} (h : Undisturbed held s₀ s) {p : BlockPair} (ha : held p.a) (hb : held p.b) :
    s.device.fetch g p = s₀.device.fetch g p := by
  have hsame : SameOn [p.a, p.b] s₀.device s.device := by
    refine ⟨fun x hx => ?_, h.length⟩
    rcases List.mem_pair.1 hx with rfl | rfl
    · exact h.get _ ha
    · exact h.get _ hb
  exact hsame.fetch (List.mem_cons_self ..) (List.mem_cons_of_mem _ (List.mem_singleton_self _)) g

end Undisturbed

/-- The program leaves the blocks alone, and what it returns has a property. -/
abbrev LeavesHeld (g : Geometry) (held : ℕ → Prop) (s₀ : Fs) {α : Type} (m : FsM α) (Q : α → Prop) :
    Prop :=
  Keeps (Event.MarksHeld g held) (Undisturbed held s₀) m Q

/-- Whatever it is run on, what the program returns has a property. -/
abbrev Yields {α : Type} (m : FsM α) (Q : α → Prop) : Prop :=
  Keeps (fun _ => True) (fun _ => True) m Q

theorem Yields.of_result {α : Type} {m : FsM α} {Q : α → Prop} (h : Yields m Q) {s : Fs} {a : α}
    (ha : (m s).result = .ok a) : Q a :=
  (Triple.returns h True.intro (fun _ _ => True.intro) ha).2

theorem yields_any {α : Type} (m : FsM α) : Yields m fun _ => True := by
  refine ⟨fun s _ _ => ⟨fun _ _ => True.intro, ?_⟩⟩
  rw [Run.Post]
  cases (m s).result with
  | ok a => exact ⟨True.intro, True.intro⟩
  | error e => exact True.intro

/-- Where no block is to be left alone there is nothing to ask of the bitmaps. -/
theorem LeavesHeld.yields {α : Type} {m : FsM α} {Q : α → Prop}
    (h : ∀ s₀, LeavesHeld g (fun _ => False) s₀ m Q) : Yields m Q := by
  refine ⟨fun s _ _ => ⟨fun _ _ => True.intro, ?_⟩⟩
  have hmarks : AllEvents (Event.MarksHeld g fun _ => False) (m s).events := by
    intro e _
    cases e with
    | alloc call _ _ => exact fun _ _ _ _ => False.elim
    | _ => exact True.intro
  have hpost := ((h s).post s (.refl fun _ _ _ => False.elim) hmarks).2
  rw [Run.Post] at hpost ⊢
  cases hresult : (m s).result with
  | ok a =>
      rw [hresult] at hpost
      exact ⟨True.intro, hpost.2⟩
  | error e => exact True.intro

/-! ## Single calls -/

theorem leaves_account (f : Unpublished → Unpublished) :
    LeavesHeld g held s₀ (account f) fun _ => True :=
  Keeps.modify fun _ hs => ⟨hs.root, hs.length, hs.get, hs.cached⟩

theorem leaves_invalidate : LeavesHeld g held s₀ invalidateAllocCache fun _ => True :=
  Keeps.modify fun _ hs => ⟨hs.root, hs.length, hs.get, fun _ h => by cases h⟩

theorem leaves_query {α : Type} (f : Device → Except Error α) :
    LeavesHeld g held s₀ (query f) fun _ => True :=
  Keeps.query fun _ _ _ _ => True.intro

theorem leaves_noteResume (head size : ℕ) :
    LeavesHeld g held s₀ (noteResume head size) fun _ => True :=
  Keeps.bind Keeps.get fun _ _ => Keeps.note.trivial

theorem leaves_allocBlocks (singleBuf : Bool) (excluded : List ℕ) (chain : Option (ℕ × ℕ))
    (want : ℕ) : LeavesHeld g held s₀ (allocBlocks g singleBuf excluded chain want) fun blocks =>
      blocks.length = want ∧ ∀ b ∈ blocks, Unheld g held b := by
  refine Triple.conseq (triple_allocBlocks (E := fun _ => Undisturbed held s₀)
    (fun _ _ _ _ _ _ _ => True.intro) fun s cache e hs hcall => ?_) (fun _ => id) ?_ fun _ _ => id
  · refine ⟨hs.root, hs.length, hs.get, ?_⟩
    rintro m rfl b hb
    obtain ⟨used, hcache, hle⟩ := Alloc.allocCached_error hcall
    exact hle b (hs.cached used hcache b hb)
  rintro blocks s' ⟨s, base, used, hs, rfl, hserved, hscan⟩
  have hmarked : base.Marks held := by
    rcases hserved.source with h | ⟨h, hfull⟩
    · exact hs.cached base h
    · exact hscan hfull base h
  refine ⟨⟨hs.root, hs.length, hs.get, ?_⟩, hserved.taken.length, fun b hb =>
    ⟨hserved.taken.bound b hb, fun hheld => ?_⟩⟩
  · rintro m ⟨⟩ b hb
    exact hserved.le b (hmarked b hb)
  have hset := hmarked b hheld
  rw [hserved.taken.free b hb] at hset
  cases hset

/-- One block. -/
theorem leaves_allocOne (excluded : List ℕ) (chain : Option (ℕ × ℕ)) :
    LeavesHeld g held s₀ (allocBlocks g false excluded chain 1) fun blocks =>
      Unheld g held (blocks.getD 0 noBlock) := by
  refine Keeps.weaken (leaves_allocBlocks false excluded chain 1) ?_
  rintro blocks ⟨hlen, hunheld⟩
  obtain ⟨b, rfl⟩ := List.length_eq_one_iff.1 hlen
  exact hunheld b (List.mem_singleton_self b)

theorem leaves_eraseAndProgramBytes {addr : ℕ} (haddr : ¬ held addr) (data : List Byte) :
    LeavesHeld g held s₀ (eraseAndProgramBytes addr data) fun _ => True := by
  refine Triple.bind (R := fun _ => Undisturbed held s₀) ?_ fun ok => Triple.ite (fun _ => ?_)
    fun _ => Triple.pure fun _ hs => ⟨hs, True.intro⟩
  · refine (triple_eraseBlock fun _ _ => True.intro).weaken ?_
    rintro ok s' ⟨s, hs, hw, -⟩
    exact hs.write hw haddr
  · refine Triple.bind (R := fun _ => Undisturbed held s₀) ?_ fun report =>
      Triple.pure fun _ hs => ⟨hs, True.intro⟩
    refine (triple_programBytes 0 data (fun _ _ => True.intro) fun _ _ => True.intro).weaken ?_
    rintro report s' ⟨s, hs, hw, -⟩
    exact hs.write hw haddr

/-! ## Loops -/

theorem leaves_rebuildTail (head off : ℕ) (fill : List Byte) (chain : Option (ℕ × ℕ)) (left : ℕ)
    (excluded : List ℕ) :
    LeavesHeld g held s₀ (rebuildTail g head off fill chain left excluded) (Unheld g held) := by
  induction left generalizing excluded with
  | zero =>
      rw [rebuildTail]
      refine Keeps.bind (leaves_allocOne _ _) fun blocks hblocks =>
        Keeps.bind (leaves_query _) fun old _ =>
          Keeps.bind (leaves_eraseAndProgramBytes hblocks.free _) fun done _ => ?_
      refine Keeps.ite (fun _ => ?_) fun _ => Keeps.fail
      exact Keeps.seq (leaves_account _) (Keeps.seq (leaves_account _) (Keeps.pure hblocks))
  | succ left ih =>
      rw [rebuildTail]
      refine Keeps.bind (leaves_allocOne _ _) fun blocks hblocks =>
        Keeps.bind (leaves_query _) fun old _ =>
          Keeps.bind (leaves_eraseAndProgramBytes hblocks.free _) fun done _ => ?_
      refine Keeps.ite (fun _ => ?_) fun _ => Keeps.seq leaves_invalidate (ih _)
      exact Keeps.seq (leaves_account _) (Keeps.seq (leaves_account _) (Keeps.pure hblocks))

theorem leaves_extendPointers (newBlocks : List ℕ) (tailAddr nOld i : ℕ) (ks : List ℕ) :
    LeavesHeld g held s₀ (extendPointers g newBlocks tailAddr nOld i ks) fun _ => True := by
  induction ks with
  | nil => exact Keeps.pure True.intro
  | cons k ks ih =>
      refine Keeps.ite (fun _ => Keeps.fail) fun _ => ?_
      exact Keeps.bind (leaves_query _) fun _ _ => Keeps.bind ih fun _ _ => Keeps.pure True.intro

theorem leaves_extendBlocksFrom (newBlocks : List ℕ) (tailAddr nOld : ℕ) {todo : List ℕ}
    (htodo : ∀ b ∈ todo, ¬ held b) (i : ℕ) (content : List Byte) :
    LeavesHeld g held s₀ (extendBlocksFrom g newBlocks tailAddr nOld todo i content)
      fun _ => True := by
  induction todo generalizing i content with
  | nil => exact Keeps.pure True.intro
  | cons block todo ih =>
      refine Keeps.bind (leaves_extendPointers _ _ _ _ _) fun pointers _ =>
        Keeps.bind (leaves_eraseAndProgramBytes (htodo block (List.mem_cons_self ..)) _)
          fun done _ => Keeps.ite (fun _ => ?_) fun _ =>
            Keeps.seq (leaves_account _) (Keeps.pure True.intro)
      exact Keeps.seq (leaves_account _) (ih (fun b hb => htodo b (List.mem_cons_of_mem _ hb)) _ _)

theorem leaves_extendChain (tailAddr nOld newCount : ℕ) (content : List Byte)
    (chain : Option (ℕ × ℕ)) (left : ℕ) (excluded : List ℕ) :
    LeavesHeld g held s₀ (extendChain g tailAddr nOld newCount content chain left excluded)
      fun blocks => blocks.length = newCount ∧ ∀ b ∈ blocks, Unheld g held b := by
  induction left generalizing excluded with
  | zero =>
      rw [extendChain]
      refine Keeps.bind (leaves_allocBlocks _ _ _ _) fun blocks hblocks => Keeps.bind
        (leaves_extendBlocksFrom _ _ _ (fun b hb => (hblocks.2 b hb).free) _ _) fun worn _ => ?_
      cases worn with
      | none => exact Keeps.pure hblocks
      | some bad => exact Keeps.fail
  | succ left ih =>
      rw [extendChain]
      refine Keeps.bind (leaves_allocBlocks _ _ _ _) fun blocks hblocks => Keeps.bind
        (leaves_extendBlocksFrom _ _ _ (fun b hb => (hblocks.2 b hb).free) _ _) fun worn _ => ?_
      cases worn with
      | none => exact Keeps.pure hblocks
      | some bad => exact Keeps.seq leaves_invalidate (ih _)

theorem leaves_shrinkTail (oldTail keep left : ℕ) (excluded : List ℕ) :
    LeavesHeld g held s₀ (shrinkTail g oldTail keep left excluded) (Unheld g held) := by
  induction left generalizing excluded with
  | zero =>
      rw [shrinkTail]
      refine Keeps.bind (leaves_allocOne _ _) fun blocks hblocks =>
        Keeps.bind (leaves_query _) fun old _ =>
          Keeps.bind (leaves_eraseAndProgramBytes hblocks.free _) fun done _ => ?_
      refine Keeps.ite (fun _ => ?_) fun _ => Keeps.fail
      exact Keeps.seq (leaves_account _) (Keeps.pure hblocks)
  | succ left ih =>
      rw [shrinkTail]
      refine Keeps.bind (leaves_allocOne _ _) fun blocks hblocks =>
        Keeps.bind (leaves_query _) fun old _ =>
          Keeps.bind (leaves_eraseAndProgramBytes hblocks.free _) fun done _ => ?_
      refine Keeps.ite (fun _ => ?_) fun _ => Keeps.seq leaves_invalidate (ih _)
      exact Keeps.seq (leaves_account _) (Keeps.pure hblocks)

/-! ## Extending -/

/-- The fill takes all of the data or what the tail has room for. -/
structure Fills (g : Geometry) (oldSize len consumed : ℕ) : Prop where
  room : oldSize + consumed ≤
    Ctz.capacityBelow g.blockSize (Ctz.blockCount oldSize g.blockSize)
  full : consumed < len → oldSize + consumed =
    Ctz.capacityBelow g.blockSize (Ctz.blockCount oldSize g.blockSize)

theorem leaves_planTail (hB : 128 ≤ g.blockSize) {head oldSize : ℕ} {data : List Byte}
    (hrange : Ctz.SizeInRange g.blockSize oldSize)
    (hhead : 0 < Ctz.blockCount oldSize g.blockSize → Unheld g held head) :
    LeavesHeld g held s₀ (planTail g head oldSize data) fun plan =>
      (0 < Ctz.blockCount oldSize g.blockSize → Unheld g held plan.1) ∧
        (∀ fill, plan.2.1 = some fill → ¬ held head) ∧
          Fills g oldSize data.length plan.2.2 := by
  have hcover := (Ctz.blockCount_le_iff hB hrange).1 (Nat.le_refl _)
  rw [planTail]
  refine Keeps.ite (fun hzero => Keeps.pure ⟨fun hpos => absurd hzero (Nat.ne_of_gt hpos),
    fun _ h => (by cases h), ?_⟩) fun hpos => ?_
  · show Fills g oldSize data.length 0
    have hempty : oldSize = 0 := by
      rw [hzero, Ctz.capacityBelow] at hcover
      exact Nat.le_zero.1 hcover
    exact ⟨hcover, fun _ => by rw [hzero, hempty, Ctz.capacityBelow]⟩
  have hsize : 0 < oldSize := by
    by_contra hzero
    rw [Nat.eq_zero_of_not_pos hzero] at hpos
    exact hpos rfl
  obtain ⟨hlower, hupper, -, hused⟩ := endsIn_of_blockCount hB hsize hrange
  have hlast : Ctz.blockCount oldSize g.blockSize - 1 + 1 = Ctz.blockCount oldSize g.blockSize := by
    omega
  have hcap : Ctz.capacityBelow g.blockSize (Ctz.blockCount oldSize g.blockSize - 1 + 1) =
      Ctz.capacityBelow g.blockSize (Ctz.blockCount oldSize g.blockSize - 1) +
        Ctz.contentBytesInBlock (Ctz.blockCount oldSize g.blockSize - 1) g.blockSize := by
    rw [Ctz.capacityBelow]
  rw [hlast] at hcap hupper
  rw [Ctz.headerSize] at hused
  simp only [hused]
  set fill := min (Ctz.contentBytesInBlock (Ctz.blockCount oldSize g.blockSize - 1) g.blockSize -
    (oldSize - Ctz.capacityBelow g.blockSize (Ctz.blockCount oldSize g.blockSize - 1)))
    data.length with hfill
  have hfills : Fills g oldSize data.length fill := ⟨by omega, by omega⟩
  have hfree : ¬ held head := (hhead (Nat.pos_of_ne_zero hpos)).free
  refine Keeps.ite (fun hnone => Keeps.pure ⟨hhead, fun _ h => (by cases h),
    hnone ▸ hfills⟩) fun _ => ?_
  refine Keeps.bind (leaves_query _) fun tail _ => Keeps.ite (fun _ => Keeps.pure ⟨hhead,
    fun _ _ => hfree, hfills⟩) fun _ => Keeps.bind (leaves_rebuildTail _ _ _ _ _ _)
      fun fresh hfresh => Keeps.pure ⟨fun _ => hfresh, fun _ h => (by cases h), hfills⟩

/-- The plan on any device. -/
theorem yields_planTail (hB : 128 ≤ g.blockSize) {head oldSize : ℕ} {data : List Byte}
    (hrange : Ctz.SizeInRange g.blockSize oldSize)
    (hhead : 0 < Ctz.blockCount oldSize g.blockSize → head < g.blockCount) :
    Yields (planTail g head oldSize data) fun plan => Fills g oldSize data.length plan.2.2 :=
  LeavesHeld.yields fun _ => Keeps.weaken (leaves_planTail hB hrange fun hpos =>
    ⟨hhead hpos, False.elim⟩) fun _ hplan => hplan.2.2

theorem leaves_fillTail {head : ℕ} {deferred : Option (ℕ × List Byte)}
    (hhead : ∀ fill, deferred = some fill → ¬ held head) :
    LeavesHeld g held s₀ (fillTail head deferred) fun _ => True := by
  cases deferred with
  | none => exact Keeps.pure True.intro
  | some fill =>
      obtain ⟨off, fill⟩ := fill
      refine Triple.bind (R := fun _ => Undisturbed held s₀) ?_ fun report =>
        Keeps.ite (fun _ => Keeps.pure True.intro) fun _ => Keeps.fail
      refine (triple_programBytes off fill (fun _ _ => True.intro) fun _ _ => True.intro).weaken ?_
      rintro report s' ⟨s, hs, hw, -⟩
      exact hs.write hw (hhead _ rfl)

/-- `stream_ctz_extend`: the size with the data, and a block of the device that is none of the
others. -/
theorem leaves_streamCtzExtend (hB : 128 ≤ g.blockSize) {head oldSize : ℕ} {data : List Byte}
    (hdata : data ≠ []) (hold : 0 < oldSize → ¬ held head) :
    LeavesHeld g held s₀ (streamCtzExtend g head oldSize data) fun r =>
      Unheld g held r.1 ∧ r.2 = oldSize + data.length := by
  rw [streamCtzExtend]
  refine Keeps.ite (fun _ => Keeps.fail) fun _ => Keeps.ite (fun _ => Keeps.fail) fun hmax => ?_
  have hlen : 0 < data.length := List.length_pos_of_ne_nil hdata
  have hrange : Ctz.SizeInRange g.blockSize (oldSize + data.length) :=
    Ctz.sizeInRange_of_blockCount hB (Nat.le_trans (Nat.le_of_not_lt hmax) (by decide))
  have holdRange := Ctz.sizeInRange_of_le hrange (Nat.le_add_right oldSize data.length)
  refine Keeps.bind (R := fun _ => 0 < Ctz.blockCount oldSize g.blockSize → Unheld g held head)
    (Keeps.lift fun a ha hpos => ?_) fun _ hhead => Keeps.seq (leaves_noteResume _ _) ?_
  · rw [if_pos hpos, Ctz.requireInBounds] at ha
    split_ifs at ha with hlt
    refine ⟨hlt, hold (Nat.pos_of_ne_zero fun hzero => ?_)⟩
    rw [hzero, Ctz.blockCount, if_pos rfl] at hpos
    exact Nat.lt_irrefl 0 hpos
  refine Keeps.bind (leaves_planTail hB holdRange hhead) fun plan hplan => ?_
  obtain ⟨tailAddr, deferredFill, consumed⟩ := plan
  obtain ⟨htail, hdeferred, hfills : Fills g oldSize data.length consumed⟩ := hplan
  obtain ⟨hroom, hfull⟩ := hfills
  refine Keeps.bind (R := Unheld g held) ?_ fun newHead hnew => Keeps.seq
    (leaves_fillTail hdeferred) (Keeps.seq (leaves_account _) (Keeps.pure ⟨hnew, rfl⟩))
  rw [appendBlocks]
  refine Keeps.ite (fun hnone => Keeps.pure (htail ?_)) fun hsome => ?_
  · -- all of the data went into the tail, so there is one
    by_contra hzero
    have hall : data.length ≤ consumed := List.drop_eq_nil_iff.1 hnone
    rw [Nat.eq_zero_of_not_pos hzero, Ctz.capacityBelow] at hroom
    omega
  · have hless : consumed < data.length := by
      by_contra hge
      exact hsome (List.drop_eq_nil_of_le (Nat.le_of_not_lt hge))
    have hfull' := hfull hless
    have hmore : ¬ Ctz.blockCount (oldSize + data.length) g.blockSize ≤
        Ctz.blockCount oldSize g.blockSize := by
      rw [Ctz.blockCount_le_iff hB hrange]
      omega
    refine Keeps.bind (leaves_extendChain _ _ _ _ _ _ _) fun blocks hblocks => Keeps.pure ?_
    obtain ⟨hcount, hunheld⟩ := hblocks
    have hlt : Ctz.blockCount (oldSize + data.length) g.blockSize -
        Ctz.blockCount oldSize g.blockSize - 1 < blocks.length := by
      omega
    rw [List.getD_eq_getElem?_getD, List.getElem?_eq_getElem hlt]
    exact hunheld _ (List.getElem_mem hlt)

/-! ## Shrinking -/

/-- `shrink_ctz_head`: a block of the device that is none of the others, if that is so of the
blocks of the chain. -/
theorem leaves_shrinkCtzHead (hB : 128 ≤ g.blockSize) {head oldSize newSize : ℕ}
    (hcached : s₀.CacheMarks held) (hpos : 0 < newSize) (hle : newSize ≤ oldSize)
    (hchain : ∀ chain, Ctz.collectChainBlocks g s₀.device head (Ctz.blockCount oldSize g.blockSize)
      (Ctz.blockCount oldSize g.blockSize) = .ok chain → ∀ b ∈ chain, ¬ held b) :
    Triple (Event.MarksHeld g held) (fun _ => True) (fun s => s = s₀)
      (shrinkCtzHead g head oldSize newSize)
      (fun newHead s => Undisturbed held s₀ s ∧ Unheld g held newHead)
      (fun _ s => Undisturbed held s₀ s) := by
  have hrefl : ∀ s, s = s₀ → Undisturbed held s₀ s := by
    rintro s rfl
    exact .refl hcached
  rw [shrinkCtzHead]
  refine Triple.ite (fun _ => Triple.fail hrefl) fun hmax => ?_
  have hrange : Ctz.SizeInRange g.blockSize oldSize :=
    Ctz.sizeInRange_of_blockCount hB (Nat.le_trans (Nat.le_of_not_lt hmax) (by decide))
  have hcount := Ctz.blockCount_mono hB hrange hle
  refine Triple.seq (R := fun s => s = s₀) (Triple.get_bind fun s hs =>
    Triple.note fun s' hs' _ => ⟨True.intro, hs'.trans hs⟩) ?_
  refine Triple.bind (R := fun chain s => Undisturbed held s₀ s ∧
    chain.length = Ctz.blockCount oldSize g.blockSize ∧ ∀ b ∈ chain, Unheld g held b)
    (Triple.query (fun s chain hs h => ?_) fun s _ hs _ => hrefl s hs) fun chain =>
      Triple.pre fun hunheld => ?_
  · subst hs
    change Ctz.collectChainBlocks g s.device head _ _ = .ok chain at h
    have hfree := hchain chain h
    rw [Ctz.collectChainBlocks] at h
    split_ifs at h with hzero
    · cases h
      exact ⟨.refl hcached, hzero.symm, fun b hb => absurd hb List.not_mem_nil⟩
    · have hlen := Ctz.collectFrom_length h
      exact ⟨.refl hcached, by omega, fun b hb => ⟨Ctz.collectFrom_inBounds h b hb, hfree b hb⟩⟩
  rcases hindex : Ctz.blockIndexAtOffset (newSize - 1) g.blockSize with ⟨i, absOff⟩
  have hi : i < chain.length := by
    rw [Ctz.blockCount, if_neg (Nat.ne_of_gt hpos), hindex] at hcount
    rw [hunheld.1]
    exact hcount
  refine Keeps.ite (fun _ => ?_) fun _ => ?_
  · refine Keeps.seq (leaves_account _) (Keeps.seq (leaves_account _) (Keeps.pure ?_))
    show Unheld g held (chain.getD i noBlock)
    rw [List.getD_eq_getElem?_getD, List.getElem?_eq_getElem hi]
    exact hunheld.2 _ (List.getElem_mem hi)
  · exact Keeps.bind (leaves_shrinkTail _ _ _ _) fun newTail hnew =>
      Keeps.seq (leaves_account _) (Keeps.seq (leaves_account _) (Keeps.pure hnew))

end LittlefsPure
