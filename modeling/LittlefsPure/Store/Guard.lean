import LittlefsPure.Store.Rest
import Mathlib.Data.List.Pairwise

/-!
# The allocator spares a directory at rest

Both halves of each pair of a directory at rest name pairs of the directory only, so the
single-buffer scan reaches exactly its pairs, and no pair is hidden behind the marks of the
others.  A block the scan leaves free is a block of none of them, and this stays so while
such blocks are written.

## Why the single-buffer scan does not get lost here

The single-buffer scan follows every tag of both halves, and on a filesystem with chains it may be
led astray by what it finds.  Here there are no chains and no child directories: the only pairs
that a tag names are those of the directory, now or before, and every pair that was ever written
stays in the directory.  So the scan reaches the pairs of the directory and nothing else.
-/

namespace LittlefsPure

open FsM Logic

section Scan

variable {g : Geometry} {d : Device} {root : BlockPair} {pairs : List BlockPair} {n : Node}
  {chain : List Node}

/-- Both halves of a node show flat tags. -/
theorem Node.Stands.rawTags (h : n.Stands g d pairs) (hsize : d.blocks.length = g.blockCount) :
    (∀ t ∈ d.rawTags g n.pair, t.Flat pairs) ∧ ∀ t ∈ n.log.tags, t ∈ d.rawTags g n.pair := by
  have hread : ∀ x, x < d.blocks.length → d.read x = .ok (d.get x) := fun x hx =>
    Device.read_eq_ok.2 ⟨hx, rfl⟩
  have hactive := hread _ (h.active_lt hsize)
  have halternate := hread _ (h.alternate_lt hsize)
  have hlog : ((d.get n.active).reader g).tags = n.log.tags := by
    rw [h.stored]
    rfl
  rcases h.halves with ⟨ha, hb⟩ | ⟨ha, hb⟩
  · have htags : d.rawTags g n.pair = n.log.tags ++ ((d.get n.alternate).reader g).tags := by
      rw [Device.rawTags, Device.readers, ha, hb, hactive, halternate]
      exact congrArg (· ++ _) hlog
    rw [htags]
    exact ⟨List.forall_mem_append.2 ⟨h.flat, h.stale⟩, fun t ht => List.mem_append_left _ ht⟩
  · have htags : d.rawTags g n.pair = ((d.get n.alternate).reader g).tags ++ n.log.tags := by
      rw [Device.rawTags, Device.readers, ha, hb, hactive, halternate]
      exact congrArg (_ ++ ·) hlog
    rw [htags]
    exact ⟨List.forall_mem_append.2 ⟨h.stale, h.flat⟩, fun t ht => List.mem_append_right _ ht⟩

theorem Node.Stands.rawChains_eq (h : n.Stands g d pairs) (hsize : d.blocks.length = g.blockCount) :
    rawChains g d n.pair = [] := by
  rw [rawChains, List.filterMap_eq_nil_iff]
  exact fun t ht => ((h.rawTags hsize).1 t ht).1

theorem Node.Stands.rawRefs_subset (h : n.Stands g d pairs)
    (hsize : d.blocks.length = g.blockCount) : ∀ c ∈ rawRefs g d n.pair, c ∈ pairs := by
  intro c hc
  obtain ⟨t, ht, hchild⟩ := List.mem_filterMap.1 hc
  exact ((h.rawTags hsize).1 t ht).2 c hchild

/-- The tail a log shows is one of its tags. -/
theorem rawChild_of_tailLink {l : MetadataLog} {p : BlockPair} {hard : Bool}
    (h : l.tailLink = some (p, hard)) : ∃ t ∈ l.tags, t.rawChild = some p := by
  rw [MetadataLog.tailLink_eq, liveLink, Option.filter_eq_some_iff] at h
  obtain ⟨hscan, hlive⟩ := h
  simp only [Bool.not_eq_true'] at hlive
  generalize l.tags = tags at hscan ⊢
  induction tags with
  | nil => cases hscan
  | cons t ts ih =>
      rw [MetadataLog.scanForTail] at hscan
      cases hrest : MetadataLog.scanForTail ts with
      | some later =>
          rw [hrest] at hscan ih
          obtain ⟨u, hu, hchild⟩ := ih hscan
          exact ⟨u, List.mem_cons_of_mem _ hu, hchild⟩
      | none =>
          rw [hrest] at hscan
          dsimp only at hscan
          split_ifs at hscan with htail
          cases hscan
          rw [Bool.and_eq_true, beq_iff_eq] at htail
          refine ⟨t, List.mem_cons_self .., ?_⟩
          unfold TagEntry.rawChild
          cases htype : t.tagType <;> rw [htype] at htail <;> simp_all [TagType.isTail]

/-- The pairs of a linked chain are reached one from the other. -/
theorem reaches_linked {tail : Option TailLink} {root : BlockPair} {chain : List Node}
    (hlinked : Linked tail none (chain.map fun n => (n.pair, n.log)))
    (hstands : ∀ n ∈ chain, n.Stands g d pairs) (hsize : d.blocks.length = g.blockCount)
    (htail : ∀ p, tail = some (p, true) → RawReaches g d root p) :
    ∀ n ∈ chain, RawReaches g d root n.pair := by
  induction chain generalizing tail with
  | nil => exact nofun
  | cons n chain ih =>
      obtain ⟨hfirst, hrest⟩ := hlinked
      have hn := htail _ hfirst
      refine List.forall_mem_cons.2 ⟨hn, ih hrest
        (fun m hm => hstands m (List.mem_cons_of_mem _ hm)) fun p hp => hn.tail ?_⟩
      obtain ⟨t, ht, hchild⟩ := rawChild_of_tailLink hp
      have hstand := hstands n (List.mem_cons_self ..)
      exact List.mem_filterMap.2 ⟨t, (hstand.rawTags hsize).2 t ht, hchild⟩

namespace AtRest

theorem raw_reaches (h : AtRest g d root chain) :
    (∀ n ∈ chain, RawReaches g d root n.pair) ∧
      ∀ p, RawReaches g d root p → ∃ n ∈ chain, n.pair = p := by
  refine ⟨reaches_linked h.linked h.stands h.size fun p hp => ?_, fun p hp => ?_⟩
  · cases hp
    exact Relation.ReflTransGen.refl
  · induction hp with
    | refl =>
        obtain ⟨first, rest, rfl, hfirst⟩ := h.head
        exact ⟨first, List.mem_cons_self .., hfirst⟩
    | tail _ hc ih =>
        obtain ⟨n, hn, rfl⟩ := ih
        exact List.mem_map.1 ((h.stands n hn).rawRefs_subset h.size _ hc)

/-- The halves of a node belong to no other one. -/
theorem eq_of_holds (h : AtRest g d root chain) {m : Node} (hn : n ∈ chain) (hm : m ∈ chain)
    {x : ℕ} (hxn : x ∈ n.blocks) (hxm : x ∈ m.blocks) : n = m := by
  by_contra hne
  have hpairs : chain.Pairwise fun a b => List.Disjoint a.blocks b.blocks :=
    (List.nodup_flatMap.1 h.apart).2
  have hsymm : Std.Symm fun a b : Node => List.Disjoint a.blocks b.blocks :=
    ⟨fun _ _ hab _ hb ha => hab ha hb⟩
  exact hpairs.forall hn hm hne hxn hxm

theorem owns_iff (h : AtRest g d root chain) (hn : n ∈ chain) {b : ℕ} :
    RawOwns g d n.pair b ↔ b ∈ n.blocks := by
  have hstand := h.stands n hn
  rw [RawOwns, hstand.rawChains_eq h.size]
  simp only [List.not_mem_nil, false_and, exists_false, or_false, BlockPair.Holds, Node.blocks,
    List.mem_cons, or_false]
  rcases hstand.halves with ⟨ha, hb⟩ | ⟨ha, hb⟩ <;> rw [ha, hb]
  exact or_comm

/-- The single-buffer scan marks every block of a directory at rest. -/
theorem scan_marks (h : AtRest g d root chain) {used : Bitmap}
    (hscan : Alloc.scanUsedWithSingleBuf g d root .empty = .ok used) :
    ∀ b ∈ nodeBlocks chain, used.isSet b = true := by
  obtain ⟨hreached, honly⟩ := h.raw_reaches
  have hun : Alloc.Unhidden (fun p c => c ∈ rawRefs g d p) (RawOwns g d) root := by
    intro p hp
    obtain ⟨n, hn, rfl⟩ := honly p hp
    have hactive : n.active ∈ n.blocks := List.mem_cons_self ..
    have howns := (h.owns_iff hn).2 hactive
    refine ⟨n.active, ?_, (h.stands n hn).tracked _ hactive, fun q hq hown => ?_⟩
    · rcases (h.stands n hn).halves with ⟨ha, -⟩ | ⟨-, hb⟩
      · exact .inl ha.symm
      · exact .inr hb.symm
    · obtain ⟨m, hm, rfl⟩ := honly q hq
      rw [h.eq_of_holds hm hn ((h.owns_iff hm).1 hown) hactive]
      exact BlockPair.isSamePair_self _
  intro b hb
  obtain ⟨n, hn, hbn⟩ := List.mem_flatMap.1 hb
  have hmarked := (Alloc.scanLoop_marks (Alloc.scanPairRaw_visits g d) hun raw_unordered hscan b).2
    ⟨n.pair, hreached n hn, (h.owns_iff hn).2 hbn⟩
  exact Bitmap.isSet_iff.2 (.inr hmarked)

end AtRest

end Scan

/-! ## Calls that the device does not fail -/

/-- The state with another content of a block. -/
def Fs.put (s : Fs) (addr : ℕ) (b : Block) : Fs := { s with device := s.device.write addr b }

@[simp] theorem Fs.put_device (s : Fs) (addr : ℕ) (b : Block) :
    (s.put addr b).device = s.device.write addr b := rfl

@[simp] theorem Fs.put_script (s : Fs) (addr : ℕ) (b : Block) : (s.put addr b).script = s.script :=
  rfl

@[simp] theorem Fs.put_root (s : Fs) (addr : ℕ) (b : Block) : (s.put addr b).root = s.root := rfl

@[simp] theorem Fs.put_usedCache (s : Fs) (addr : ℕ) (b : Block) :
    (s.put addr b).usedCache = s.usedCache := rfl

@[simp] theorem Device.write_write (d : Device) (addr : ℕ) (b b' : Block) :
    (d.write addr b).write addr b' = d.write addr b' := by
  simp [Device.write]

section Calm

variable {s : Fs} {addr : ℕ}

theorem get_bind_calm {α : Type} (f : Fs → FsM α) (s : Fs) : (get >>= f) s = f s s :=
  Program.get_bind_run f s

theorem note_run (e : Event) (s : Fs) : (note e : FsM Unit) s = ⟨.ok (), s, [e]⟩ := rfl

theorem modify_run (f : Fs → Fs) (s : Fs) : (modify f : FsM Unit) s = ⟨.ok (), f s, []⟩ := rfl

theorem query_run {α : Type} {f : Device → Except Error α} {s : Fs} {a : α}
    (h : f s.device = .ok a) : query f s = ⟨.ok a, s, []⟩ := by
  show (⟨f s.device, s, []⟩ : Run Fs Error Event α) = _
  rw [h]

/-- The next calls of the device succeed. -/
def Fs.Spared (s : Fs) (calls : ℕ) : Prop := ∀ o ∈ s.script.take calls, o = .done

instance (s : Fs) (calls : ℕ) : Decidable (s.Spared calls) :=
  inferInstanceAs (Decidable (∀ o ∈ s.script.take calls, o = .done))

theorem Fs.spared_of_calm (hcalm : s.script = []) (calls : ℕ) : s.Spared calls := by
  rw [Spared, hcalm, List.take_nil]
  exact nofun

theorem nextOutcome_spared {calls : ℕ} (h : s.Spared (calls + 1)) :
    nextOutcome s = ⟨.ok .done, { s with script := s.script.tail }, []⟩ := by
  rw [nextOutcome, get_bind_calm]
  rw [Fs.Spared] at h
  cases hscript : s.script with
  | nil =>
      show (⟨.ok .done, s, []⟩ : Run Fs Error Event Outcome) = _
      rw [List.tail_nil, ← hscript]
  | cons o rest =>
      rw [hscript, List.take_succ_cons] at h
      rw [h o (List.mem_cons_self ..)]
      rfl

theorem eraseBlock_spared {calls : ℕ} (h : s.Spared (calls + 1))
    (hlt : addr < s.device.blocks.length) :
    eraseBlock addr s = ⟨.ok true, { s.put addr .erased with script := s.script.tail },
      [.erase s.device addr s.unpublished]⟩ := by
  rw [eraseBlock, get_bind_calm, if_pos hlt,
    Program.bind_run (note_run (.erase s.device addr s.unpublished) s),
    Program.bind_run (nextOutcome_spared h)]
  rfl

theorem programBlock_spared {calls : ℕ} (h : s.Spared (calls + 1))
    (hlt : addr < s.device.blocks.length) (torn : ℕ → Block) (after : Block) :
    programBlock addr torn after s = ⟨.ok .verified,
      { s.put addr after with script := s.script.tail }, [.program s.device addr]⟩ := by
  rw [programBlock, get_bind_calm, if_pos hlt,
    Program.bind_run (note_run (.program s.device addr) s),
    Program.bind_run (nextOutcome_spared h)]
  rfl

theorem eraseAndProgramLog_spared {calls : ℕ} (h : s.Spared (calls + 2))
    (hlt : addr < s.device.blocks.length) (l : MetadataLog) :
    eraseAndProgramLog addr l s = ⟨.ok true,
      { s.put addr (.log l) with script := s.script.tail.tail },
      [.erase s.device addr s.unpublished, .program (s.device.write addr .erased) addr]⟩ := by
  have hrest : Fs.Spared { s.put addr .erased with script := s.script.tail } (calls + 1) := by
    intro o ho
    refine h o (List.mem_of_mem_drop (i := 1) ?_)
    rwa [List.drop_take, List.drop_one, Nat.add_sub_assoc (by decide)]
  have hput : (s.put addr .erased).put addr (.log l) = s.put addr (.log l) := by
    simp only [Fs.put, Device.write_write]
  rw [eraseAndProgramLog, Program.bind_run (eraseBlock_spared h hlt), if_pos rfl, programLog,
    Program.bind_run (programBlock_spared hrest (by simpa using hlt) _ _)]
  show (⟨.ok true, { (s.put addr .erased).put addr (.log l) with script := _ }, _⟩ :
    Run Fs Error Event Bool) = _
  rw [hput]
  rfl

/-- A script that is used up stays so. -/
theorem Fs.put_tail (hcalm : s.script = []) (b : Block) :
    { s.put addr b with script := s.script.tail } = s.put addr b := by
  rw [hcalm]
  show { s.put addr b with script := ([] : List Outcome) } = s.put addr b
  rw [← hcalm]
  rfl

theorem programBlock_run (hcalm : s.script = []) (hlt : addr < s.device.blocks.length)
    (torn : ℕ → Block) (after : Block) :
    programBlock addr torn after s =
      ⟨.ok .verified, s.put addr after, [.program s.device addr]⟩ := by
  rw [programBlock_spared (Fs.spared_of_calm hcalm 1) hlt, Fs.put_tail hcalm]

theorem eraseBlock_run (hcalm : s.script = []) (hlt : addr < s.device.blocks.length) :
    eraseBlock addr s =
      ⟨.ok true, s.put addr .erased, [.erase s.device addr s.unpublished]⟩ := by
  rw [eraseBlock_spared (Fs.spared_of_calm hcalm 1) hlt, Fs.put_tail hcalm]

theorem eraseAndProgramLog_run (hcalm : s.script = []) (hlt : addr < s.device.blocks.length)
    (l : MetadataLog) :
    eraseAndProgramLog addr l s = ⟨.ok true, s.put addr (.log l),
      [.erase s.device addr s.unpublished, .program (s.device.write addr .erased) addr]⟩ := by
  have htail : s.script.tail.tail = s.script.tail := by rw [hcalm]; rfl
  rw [eraseAndProgramLog_spared (Fs.spared_of_calm hcalm 2) hlt, htail, Fs.put_tail hcalm]

end Calm

/-! ## Beside a directory at rest -/

/-- A state in which a directory is at rest on a device without faults. -/
structure Rested (g : Geometry) (root : BlockPair) (chain : List Node) (s : Fs) : Prop where
  calm : s.script = []
  from_root : s.root = root
  rest : AtRest g s.device root chain
  cache : ∀ used, s.usedCache = some used → ∀ b ∈ nodeBlocks chain, used.isSet b = true

/-- A block that is no part of the directory and may be written. -/
structure Clear (g : Geometry) (chain : List Node) (b : ℕ) : Prop where
  free : b ∉ nodeBlocks chain
  bound : b < g.blockCount
  tracked : b < maxTrackedBlocks

section Clear

variable {g : Geometry} {root : BlockPair} {chain : List Node} {s : Fs} {addr : ℕ} {b : Block}
  {K : Event → Prop} {E : Error → Fs → Prop}

theorem AtRest.write {d : Device} (h : AtRest g d root chain) (haddr : addr ∉ nodeBlocks chain)
    (b : Block) : AtRest g (d.write addr b) root chain :=
  h.congr ⟨fun x hx => Device.get_write_ne d (fun heq : addr = x => haddr (heq ▸ hx)) b,
    Device.length_write ..⟩

theorem Rested.put (h : Rested g root chain s) (haddr : addr ∉ nodeBlocks chain) (b : Block) :
    Rested g root chain (s.put addr b) :=
  ⟨h.calm, h.from_root, h.rest.write haddr b, h.cache⟩

/-- What has been written but leads nowhere yet is no concern of the directory. -/
theorem Rested.account {s' : Fs} (h : Rested g root chain s)
    (hframe : s' = { s with unpublished := s'.unpublished }) : Rested g root chain s' := by
  rw [hframe]
  exact ⟨h.calm, h.from_root, h.rest, h.cache⟩

theorem Rested.lt (h : Rested g root chain s) (hb : addr < g.blockCount) :
    addr < s.device.blocks.length := h.rest.size ▸ hb

/-- Whatever a power cut leaves beside the directory, the directory is at rest. -/
theorem AtRest.survives {d : Device} (h : AtRest g d root chain) (haddr : addr ∉ nodeBlocks chain) :
    (∀ u, Event.Survives g (AtRest g · root chain) (.erase d addr u)) ∧
      Event.Survives g (AtRest g · root chain) (.program d addr) := by
  constructor
  · rintro u d' ⟨b, -, rfl⟩
    exact h.write haddr b
  · rintro d' ⟨b, -, rfl⟩
    exact h.write haddr b

/-- A block beside the directory is erased and programmed. -/
theorem triple_programBeside {P : Fs → Prop} (hP : ∀ s, P s → Rested g root chain s)
    (hb : Clear g chain addr) (l : MetadataLog) :
    Triple K (Event.Survives g (AtRest g · root chain)) P (eraseAndProgramLog addr l)
      (fun ok s' => ok = true ∧ ∃ s, P s ∧ s' = s.put addr (.log l)) E := by
  refine Triple.of_run fun s hs => ?_
  have h := hP s hs
  refine ⟨_, _, _, eraseAndProgramLog_run h.calm (h.lt hb.bound) l, ?_, rfl, s, hs, rfl⟩
  refine List.forall_mem_cons.2 ⟨(h.rest.survives hb.free).1 _,
    List.forall_mem_singleton.2 ((h.rest.write hb.free .erased).survives hb.free).2⟩

theorem triple_eraseBeside {P : Fs → Prop} (hP : ∀ s, P s → Rested g root chain s)
    (hb : Clear g chain addr) :
    Triple K (Event.Survives g (AtRest g · root chain)) P (eraseBlock addr)
      (fun ok s' => ok = true ∧ ∃ s, P s ∧ s' = s.put addr .erased) E := by
  refine Triple.of_run fun s hs => ?_
  have h := hP s hs
  refine ⟨_, _, _, eraseBlock_run h.calm (h.lt hb.bound), ?_, rfl, s, hs, rfl⟩
  exact List.forall_mem_singleton.2 ((h.rest.survives hb.free).1 _)

/-- The single-buffer allocator hands out a block beside the directory. -/
theorem triple_allocBeside {R : Fs → Prop} (hR : CacheFree R) {excluded : List ℕ}
    {Good : Device → Prop}
    (hE : ∀ e s, Rested g root chain s → R s → E e s) :
    Triple K (Event.Survives g Good) (fun s => Rested g root chain s ∧ R s)
      (allocOneBlock g excluded none)
      (fun b s => (Rested g root chain s ∧ R s) ∧ Clear g chain b ∧ b ∉ excluded) E := by
  refine Triple.bind (triple_allocBlocks (fun _ _ _ _ _ _ _ _ => False.elim) ?_) fun blocks =>
    Triple.pure ?_
  · rintro s cache e ⟨h, hs⟩ hcall
    refine hE e _ ⟨h.calm, h.from_root, h.rest, ?_⟩ (hR s cache hs)
    rintro used' rfl b hb
    obtain ⟨used, hcache, hle⟩ := Alloc.allocCached_error hcall
    exact hle b (h.cache used hcache b hb)
  · rintro s' ⟨s, base, used, ⟨h, hs⟩, rfl, hserved, -⟩
    -- the search starts from a bitmap that has the directory marked
    have hbase : ∀ b ∈ nodeBlocks chain, base.isSet b = true := by
      rcases hserved.source with hcache | ⟨hscan, -⟩
      · exact h.cache base hcache
      · have hscan' : Alloc.scanUsedWithSingleBuf g s.device s.root .empty = .ok base := by
          rw [Alloc.rescan, if_pos rfl, bind_eq_ok] at hscan
          obtain ⟨fresh, hfresh, hscan⟩ := hscan
          cases hscan
          exact hfresh
        rw [h.from_root] at hscan'
        exact h.rest.scan_marks hscan'
    obtain ⟨b, rfl⟩ := List.length_eq_one_iff.1 hserved.taken.length
    have hb : b ∈ [b] := List.mem_singleton_self b
    have hfree := hserved.taken.free b hb
    refine ⟨⟨⟨h.calm, h.from_root, h.rest, ?_⟩, hR s _ hs⟩,
      ⟨fun hmem => ?_, hserved.taken.bound b hb,
      Bitmap.lt_of_not_isSet hfree⟩, hserved.avoids b hb⟩
    · rintro used' ⟨⟩ x hx
      exact hserved.le x (hbase x hx)
    · have hset := hbase _ hmem
      rw [List.getD_cons_zero, hfree] at hset
      cases hset

end Clear

end LittlefsPure
