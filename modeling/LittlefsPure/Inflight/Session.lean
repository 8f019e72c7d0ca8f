import LittlefsPure.Fs.Run
import LittlefsPure.Inflight.Extend

/-!
# Blocks in flight and open files

A handle holds the chain it has written so far.  A call that cuts or extends it leaves
another chain in flight when it returns, and the old one when it fails; `sync` publishes
what the handle holds.

## Why the old chain stays in flight on failure

A call that fails leaves the handle with the chain it had, and if that chain was not published the
blocks of it are in flight still.  So the account that an operation keeps is put back when it
fails, and a `write` that follows starts from a chain whose blocks are shielded.  A `sync` that
fails does the same unless one of its commits has landed, and so has published the chain, before
another one failed.
-/

namespace LittlefsPure

open FsM Logic

variable {g : Geometry}

/-! ## A chain that is cut -/

/-- The upper part of a chain and the list of its blocks, lowest first: what a cut keeps of
the one is what it does not drop from the other. -/
theorem mem_drop_iff_notMem_drop {upper blocks : List ℕ} (hfront : upper <+: blocks.reverse)
    (hnodup : upper.Nodup) {k b : ℕ} (hb : b ∈ upper) :
    b ∈ upper.drop (blocks.length - k) ↔ b ∉ blocks.drop k := by
  obtain ⟨more, hmore⟩ := hfront
  have hdrop : b ∈ blocks.drop k ↔ b ∈ (upper ++ more).take (blocks.length - k) := by
    rw [hmore, ← List.reverse_drop, List.mem_reverse]
  rw [hdrop, List.take_append, List.mem_append, not_or]
  have hsplit : b ∈ upper.take (blocks.length - k) ∨ b ∈ upper.drop (blocks.length - k) := by
    rw [← List.mem_append, List.take_append_drop]
    exact hb
  constructor
  · intro hmem
    have hshort : blocks.length - k - upper.length = 0 := by
      have := List.length_pos_of_mem hmem
      rw [List.length_drop] at this
      omega
    refine ⟨fun htake => ?_, by rw [hshort, List.take_zero]; exact List.not_mem_nil⟩
    rw [← List.take_append_drop (blocks.length - k) upper, List.nodup_append] at hnodup
    exact hnodup.2.2 b htake b hmem rfl
  · exact fun h => hsplit.resolve_left h.1

/-- The operation holds the upper part of a chain and nothing else. -/
structure OwnsChain (g : Geometry) (head size : ℕ) (upper : List ℕ) (s : Fs) : Prop where
  chained : UpperChain g s.device (some (head, size)) upper
  blocks : ∀ b, b ∈ s.unpublished.blocks ↔ b ∈ upper
  exposed : s.unpublished.exposed = []

section Cut

variable {head size newSize : ℕ} {upper blocks : List ℕ} {s s' : Fs}

theorem Shielded.ownsChain (h : Shielded g [] (some (head, size)) upper s)
    (hexposed : s.unpublished.exposed = []) : OwnsChain g head size upper s := by
  refine ⟨h.chained, fun b => ⟨fun hb => ?_, h.held b⟩, hexposed⟩
  rcases h.found b hb with hk | hu | he
  · cases hk
  · exact hu
  · rw [hexposed] at he
    cases he

/-- The chain is shielded by handing all its blocks over. -/
theorem OwnsChain.shielded (h : OwnsChain g head size upper s) (hsub : ∀ b ∈ upper, b ∈ blocks)
    (hcached : ∀ b ∈ upper, s.Cached b) : Shielded g blocks none [] s :=
  ⟨fun b hb => hcached b ((h.blocks b).1 hb), fun b hb => .inl (hsub b ((h.blocks b).1 hb)),
    upperChain_nil, fun _ hb => (by cases hb)⟩

theorem OwnsChain.carries (h : OwnsChain g head size upper s) (hs : Shielded g blocks none [] s) :
    Carries g head size upper s :=
  ⟨fun b hb => hs.cached b ((h.blocks b).2 hb), h.chained⟩

/-- The upper part of a chain that is cut: block `newHead` at the index of the new tail. -/
theorem UpperChain.cut {d : Device} (h : UpperChain g d (some (head, size)) upper)
    (hblocks : upper <+: blocks.reverse)
    (hlen : blocks.length = Ctz.blockCount size g.blockSize) {i : ℕ}
    (hi : i < blocks.length) (hcount : Ctz.blockCount newSize g.blockSize = i + 1) :
    UpperChain g d (some (blocks.getD i noBlock, newSize))
      (upper.drop (blocks.length - (i + 1))) := by
  obtain ⟨hlinks, hlength, -⟩ := h.descends size head fun t n ht => by
    cases ht
    exact ⟨rfl, rfl⟩
  set m := blocks.length - (i + 1) with hm
  refine ⟨h.nodup.sublist (List.drop_sublist _ _), fun b hb =>
    h.tracked b (List.mem_of_mem_drop hb),
    ?_⟩
  cases hdrop : upper.drop m with
  | nil => exact .inl rfl
  | cons c rest =>
      refine .inr ⟨c, newSize, rest, ?_, rfl, ?_, ?_⟩
      · have hc : upper[m]? = some c := List.drop_eq_cons_getElem? hdrop
        have hrev : blocks.reverse[m]? = some c := by
          obtain ⟨more, hmore⟩ := hblocks
          rw [← hmore, List.getElem?_append_left (List.getElem?_eq_some_iff.1 hc).1]
          exact hc
        rw [List.getElem?_reverse (by omega)] at hrev
        rw [show blocks.length - 1 - m = i by omega] at hrev
        rw [List.getD_eq_getElem?_getD, hrev]
        rfl
      · rw [← hdrop, List.length_drop, hcount]
        omega
      · rw [hcount, ← hdrop, show i + 1 - 1 = Ctz.blockCount size g.blockSize - 1 - m by omega]
        exact hlinks.drop m

/-- The relocated tail of a cut chain is in flight beside the chain. -/
structure CutTail (g : Geometry) (head size : ℕ) (upper : List ℕ) (oldTail keep fresh : ℕ)
    (s : Fs) : Prop where
  chained : UpperChain g s.device (some (head, size)) upper
  blocks : ∀ b, b ∈ s.unpublished.blocks ↔ b ∈ upper ∨ b = fresh
  exposed : s.unpublished.exposed = []
  cached : ∀ b ∈ s.unpublished.blocks, s.Cached b
  image : s.device.get fresh = .raw ((s.device.get oldTail).slice 0 keep)

/-- The relocation loop of a cut, with the whole chain excluded. -/
theorem guarded_shrinkTail (hsub : ∀ b ∈ upper, b ∈ blocks) {oldTail : ℕ} (htail : oldTail ∈ blocks)
    (keep left : ℕ) {excluded : List ℕ} (hexcluded : ∀ b ∈ blocks, b ∈ excluded) :
    Guarded g (fun s => OwnsChain g head size upper s ∧ ∀ b ∈ upper, s.Cached b)
      (shrinkTail g oldTail keep left excluded)
      (fun fresh s => CutTail g head size upper oldTail keep fresh s ∧ fresh ∉ blocks ∧
        fresh < maxTrackedBlocks)
      (Carries g head size upper) := by
  have halloc : ∀ excluded, (∀ b ∈ blocks, b ∈ excluded) → Guarded g
      (fun s => OwnsChain g head size upper s ∧ ∀ b ∈ upper, s.Cached b)
      (allocBlocks g false excluded none 1)
      (fun out s => (OwnsChain g head size upper s ∧ (∀ b ∈ upper, s.Cached b) ∧
        Unwritten (out.getD 0 noBlock) s) ∧ out.getD 0 noBlock ∉ blocks ∧
          out.getD 0 noBlock < maxTrackedBlocks)
      (Carries g head size upper) := by
    intro excluded hexcluded
    have h := @guarded_allocBlocks g (OwnsChain g head size upper) (Carries g head size upper)
        blocks
      excluded [] none hexcluded (fun s cache h => ⟨h.chained, h.blocks, h.exposed⟩) false 1
      fun s hshield h => h.carries hshield
    refine h.conseq (fun s hs => ⟨hs.1.shielded hsub hs.2, hs.1⟩) ?_ fun _ _ h => h
    rintro out s ⟨hshield, hs, hfresh⟩
    obtain ⟨b, rfl⟩ := List.length_eq_one_iff.1 hfresh.length
    have hb : b ∈ [b] := List.mem_singleton_self b
    exact ⟨⟨hs, fun x hx => hshield.cached x ((hs.blocks x).2 hx), hfresh.free b hb,
      hfresh.cached b hb⟩, fun hmem => hfresh.avoids b hb (hexcluded b hmem), hfresh.tracked b hb⟩
  have hround : ∀ (out : List ℕ) (m : FsM ℕ),
      Guarded g (fun s => OwnsChain g head size upper s ∧ ∀ b ∈ upper, s.Cached b) m
        (fun fresh s => CutTail g head size upper oldTail keep fresh s ∧ fresh ∉ blocks ∧
          fresh < maxTrackedBlocks) (Carries g head size upper) →
      Guarded g (fun s => (OwnsChain g head size upper s ∧ (∀ b ∈ upper, s.Cached b) ∧
          Unwritten (out.getD 0 noBlock) s) ∧ out.getD 0 noBlock ∉ blocks ∧
            out.getD 0 noBlock < maxTrackedBlocks)
        (do
          let candidate := out.getD 0 noBlock
          let old ← query fun d => d.read oldTail
          if ← eraseAndProgramBytes candidate (old.slice 0 keep) then
            hold [candidate]
            pure candidate
          else m)
        (fun fresh s => CutTail g head size upper oldTail keep fresh s ∧ fresh ∉ blocks ∧
          fresh < maxTrackedBlocks) (Carries g head size upper) := by
    intro out m hm
    refine Triple.pre fun ⟨hout, htracked⟩ => ?_
    set fresh := out.getD 0 noBlock with hfresh
    have hne : oldTail ≠ fresh := fun heq => hout (heq ▸ htail)
    refine Triple.bind (R := fun old s =>
      (OwnsChain g head size upper s ∧ (∀ b ∈ upper, s.Cached b) ∧
      Unwritten fresh s) ∧ s.device.get oldTail = old)
      (Triple.query (fun _ _ hs hread => ⟨hs, (Device.read_eq_ok.1 hread).2⟩)
        fun _ _ hs _ => ⟨hs.2.1, hs.1.chained⟩) fun old => ?_
    have hstable : Stable fresh fun s =>
        (OwnsChain g head size upper s ∧ (∀ b ∈ upper, s.Cached b) ∧
        Unwritten fresh s) ∧ s.device.get oldTail = old := by
      rintro s s' ⟨⟨hs, hcached, hspare⟩, hold⟩ hw
      refine ⟨⟨⟨hs.chained.congr fun b hb => hw.sameLinks ?_, ?_, ?_⟩, fun b hb used hused => ?_,
        hw.unwritten hspare⟩, (hw.other oldTail hne).trans hold⟩
      · exact fun heq => hspare.free ((hs.blocks _).2 (heq ▸ hb))
      · rw [hw.unpublished]
        exact hs.blocks
      · rw [hw.unpublished]
        exact hs.exposed
      · rw [hw.usedCache] at hused
        exact hcached b hb used hused
    refine Triple.bind (guarded_eraseAndProgramBytes hstable (fun s hs => hs.1.2.2.free) _)
      fun ok => Triple.ite (fun hok => ?_) fun _ => hm.strengthen fun s hs => ⟨hs.1.1.1, hs.1.1.2.1⟩
    refine Triple.seq (R := CutTail g head size upper oldTail keep fresh) (Triple.modify ?_)
      (Triple.pure fun s hs => ⟨hs, hout, htracked⟩)
    rintro s ⟨⟨⟨hs, hcached, hspare⟩, hold⟩, himage⟩
    refine ⟨hs.chained, fun b => ?_, hs.exposed, fun b hb => ?_, ?_⟩
    · rw [List.mem_append, List.mem_singleton, hs.blocks]
    · rcases List.mem_append.1 hb with hb | hb
      · exact hcached b ((hs.blocks b).1 hb)
      · rw [List.mem_singleton.1 hb]
        exact hspare.cached
    · rw [himage hok, hold]
  induction left generalizing excluded with
  | zero =>
      rw [shrinkTail]
      exact Triple.bind (halloc excluded hexcluded) fun out =>
        hround out _ (Triple.fail fun s hs => ⟨hs.2, hs.1.chained⟩)
  | succ left ih =>
      rw [shrinkTail]
      refine Triple.bind (halloc excluded hexcluded) fun out => hround out _ ?_
      refine Triple.seq (guarded_invalidateAllocCache fun s hs => ?_)
        (ih fun b hb => List.mem_append_left _ (hexcluded b hb))
      exact ⟨⟨hs.1.chained, hs.1.blocks, hs.1.exposed⟩, fun b hb used hused => (by cases hused)⟩

/-- A tail kept as it is: the cut chain is what is held. -/
theorem OwnsChain.cut (h : OwnsChain g head size upper s) (hcached : ∀ b ∈ upper, s.Cached b)
    (hblocks : upper <+: blocks.reverse)
    (hlen : blocks.length = Ctz.blockCount size g.blockSize) {i : ℕ} (hi : i < blocks.length)
    (hcount : Ctz.blockCount newSize g.blockSize = i + 1) :
    Holding g (blocks.getD i noBlock) newSize
      { s with unpublished := ⟨(s.unpublished.blocks.filter (· ∉ blocks.drop (i + 1))).filter
        (· ∉ s.unpublished.exposed.filter (· ∉ blocks.drop (i + 1))), [],
        some (blocks.getD i noBlock, newSize)⟩ } := by
  have hmem : ∀ b, b ∈ (s.unpublished.blocks.filter (· ∉ blocks.drop (i + 1))).filter
      (· ∉ s.unpublished.exposed.filter (· ∉ blocks.drop (i + 1))) ↔
        b ∈ upper.drop (blocks.length - (i + 1)) := by
    intro b
    rw [h.exposed]
    simp only [List.filter_nil, List.not_mem_nil, not_false_eq_true, decide_true, List.filter_true,
      List.mem_filter, decide_eq_true_eq, h.blocks]
    constructor
    · exact fun ⟨hb, hdrop⟩ => (mem_drop_iff_notMem_drop hblocks h.chained.nodup hb).2 hdrop
    · intro hb
      have hb' := List.mem_of_mem_drop hb
      exact ⟨hb', (mem_drop_iff_notMem_drop hblocks h.chained.nodup hb').1 hb⟩
  refine ⟨rfl, upper.drop (blocks.length - (i + 1)), fun b hb => ?_, fun b hb => ?_,
    h.chained.cut hblocks hlen hi hcount, fun b hb => (hmem b).2 hb⟩
  · exact hcached b (List.mem_of_mem_drop ((hmem b).1 hb))
  · exact .inr (.inl ((hmem b).1 hb))

/-- A tail cut short: its copy heads what is kept of the chain. -/
theorem CutTail.cut {i keep fresh : ℕ}
    (h : CutTail g head size upper (blocks.getD i noBlock) keep fresh s) (hout : fresh ∉ blocks)
    (htracked : fresh < maxTrackedBlocks) (hblocks : upper <+: blocks.reverse)
    (hlen : blocks.length = Ctz.blockCount size g.blockSize) (hi : i < blocks.length)
    (hcount : Ctz.blockCount newSize g.blockSize = i + 1)
    (hkeep : 4 * Ctz.skipPointersInBlock i ≤ keep) :
    Holding g fresh newSize
      { s with unpublished := ⟨(s.unpublished.blocks.filter (· ∉ blocks.drop i)).filter
        (· ∉ s.unpublished.exposed.filter (· ∉ blocks.drop i)), [], some (fresh, newSize)⟩ } := by
  have hsub : ∀ b ∈ upper, b ∈ blocks := fun b hb => List.mem_reverse.1 (hblocks.subset hb)
  have htail : (upper.drop (blocks.length - (i + 1))).tail = upper.drop (blocks.length - i) := by
    rw [List.tail_drop, show blocks.length - (i + 1) + 1 = blocks.length - i by omega]
  have hmem : ∀ b, b ∈ (s.unpublished.blocks.filter (· ∉ blocks.drop i)).filter
      (· ∉ s.unpublished.exposed.filter (· ∉ blocks.drop i)) ↔
        b ∈ fresh :: upper.drop (blocks.length - i) := by
    intro b
    rw [h.exposed]
    simp only [List.filter_nil, List.not_mem_nil, not_false_eq_true, decide_true, List.filter_true,
      List.mem_filter, decide_eq_true_eq, h.blocks, List.mem_cons]
    constructor
    · rintro ⟨hb | rfl, hdrop⟩
      · exact .inr ((mem_drop_iff_notMem_drop hblocks h.chained.nodup hb).2 hdrop)
      · exact .inl rfl
    · rintro (rfl | hb)
      · exact ⟨.inr rfl, fun hmem => hout (List.mem_of_mem_drop hmem)⟩
      · have hb' := List.mem_of_mem_drop hb
        exact ⟨.inl hb', (mem_drop_iff_notMem_drop hblocks h.chained.nodup hb').1 hb⟩
  have hchain := (h.chained.cut hblocks hlen hi hcount).replaceHead keep fresh []
    (by omega) (by rwa [hcount]) (fun hb => hout (hsub _ (List.mem_of_mem_drop hb)))
    htracked (by rw [List.append_nil]; exact h.image)
  rw [htail] at hchain
  refine ⟨rfl, fresh :: upper.drop (blocks.length - i), fun b hb => ?_, fun b hb => ?_, hchain,
    fun b hb => (hmem b).2 hb⟩
  · refine h.cached b ((h.blocks b).2 ?_)
    exact (List.mem_cons.1 ((hmem b).1 hb)).symm.imp_left List.mem_of_mem_drop
  · exact .inr (.inl ((hmem b).1 hb))

/-- The blocks that the collecting walk returns. -/
theorem OwnsChain.collect (h : OwnsChain g head size upper s)
    (hcollect : Ctz.collectChainBlocks g s.device head (Ctz.blockCount size g.blockSize)
      (Ctz.blockCount size g.blockSize) = .ok blocks) :
    upper <+: blocks.reverse ∧ blocks.length = Ctz.blockCount size g.blockSize := by
  obtain ⟨hlinks, hlen, hhead⟩ := h.chained.descends size head fun t n ht => by
    cases ht
    exact ⟨rfl, rfl⟩
  rw [Ctz.collectChainBlocks] at hcollect
  split_ifs at hcollect with hzero
  · cases hcollect
    rw [List.eq_nil_of_length_eq_zero (by omega : upper.length = 0)]
    exact ⟨List.nil_prefix, hzero.symm⟩
  · have hlength := Ctz.collectFrom_length hcollect
    refine ⟨?_, by omega⟩
    cases upper with
    | nil => exact List.nil_prefix
    | cons c rest =>
        obtain rfl := hhead c rfl
        rw [List.length_cons] at hlen
        exact Ctz.collectFrom_prefix hlinks (by omega) hcollect

/-- What a cut does to the account at its end. -/
theorem guarded_announceCut {P : Fs → Prop} {E : Fs → Prop} (dropped : List ℕ) (newHead newSize : ℕ)
    (h : ∀ s, P s → Holding g newHead newSize
      { s with unpublished := ⟨(s.unpublished.blocks.filter (· ∉ dropped)).filter
        (· ∉ s.unpublished.exposed.filter (· ∉ dropped)), [], some (newHead, newSize)⟩ }) :
    Guarded g P (do release dropped; holdChain newHead newSize; pure newHead)
      (fun r => Holding g r newSize) E := by
  refine Triple.seq (R := fun s => Holding g newHead newSize
    { s with unpublished := ⟨s.unpublished.blocks.filter (· ∉ s.unpublished.exposed), [],
      some (newHead, newSize)⟩ }) (Triple.modify h) ?_
  exact Triple.seq (R := Holding g newHead newSize) (Triple.modify fun _ hs => hs)
    (Triple.pure fun _ hs => hs)

/-- `shrink_ctz_head` goes from one chain in flight to another, or leaves the old one. -/
theorem guarded_shrinkCtzHead (hB : 128 ≤ g.blockSize) (hpos : 0 < newSize) (hle : newSize ≤ size) :
    Guarded g (fun s => Shielded g [] (some (head, size)) upper s ∧ s.unpublished.exposed = [])
      (shrinkCtzHead g head size newSize) (fun newHead => Holding g newHead newSize)
      (Carries g head size upper) := by
  refine Triple.strengthen (P := fun s => OwnsChain g head size upper s ∧ ∀ b ∈ upper, s.Cached b)
    ?_
    fun s hs => ⟨hs.1.ownsChain hs.2, fun b hb => hs.1.cached b (hs.1.held b hb)⟩
  have hcarries : ∀ s, (OwnsChain g head size upper s ∧ ∀ b ∈ upper, s.Cached b) →
      Carries g head size upper s := fun s hs => ⟨hs.2, hs.1.chained⟩
  rw [shrinkCtzHead]
  refine Triple.ite (fun _ => Triple.fail hcarries) fun hmax => ?_
  have hrange : Ctz.SizeInRange g.blockSize size :=
    Ctz.sizeInRange_of_blockCount hB (Nat.le_trans (Nat.le_of_not_lt hmax) (by decide))
  have hcount := Ctz.blockCount_mono hB hrange hle
  refine Triple.seq (R := fun s => OwnsChain g head size upper s ∧ ∀ b ∈ upper, s.Cached b)
    (Triple.get_bind fun s hs => Triple.note fun s' h' _ => ⟨True.intro, h' ▸ hs⟩) ?_
  refine Triple.bind (R := fun blocks s =>
    (OwnsChain g head size upper s ∧ ∀ b ∈ upper, s.Cached b) ∧
    upper <+: blocks.reverse ∧ blocks.length = Ctz.blockCount size g.blockSize)
    (Triple.query (fun s blocks hs hblocks => ⟨hs, hs.1.collect hblocks⟩) fun s _ hs _ =>
      hcarries s hs)
    fun blocks => Triple.pre fun hpart => ?_
  obtain ⟨hblocks, hlen⟩ := hpart
  rcases hindex : Ctz.blockIndexAtOffset (newSize - 1) g.blockSize with ⟨i, absOff⟩
  have hnew : Ctz.blockCount newSize g.blockSize = i + 1 := by
    rw [Ctz.blockCount, if_neg (Nat.ne_of_gt hpos), hindex]
  have hi : i < blocks.length := by omega
  have hsub : ∀ b ∈ upper, b ∈ blocks := fun b hb => List.mem_reverse.1 (hblocks.subset hb)
  refine Triple.ite (fun _ => guarded_announceCut _ _ _ fun s hs =>
    hs.1.cut hs.2 hblocks hlen hi hnew) fun _ => ?_
  have htail : blocks.getD i noBlock ∈ blocks := by
    rw [List.getD_eq_getElem _ _ hi]
    exact List.getElem_mem hi
  refine Triple.bind (guarded_shrinkTail hsub htail _ _ fun b hb => hb) fun fresh =>
    Triple.pre fun hfresh => ?_
  obtain ⟨hout, htracked⟩ := hfresh
  exact guarded_announceCut _ _ _ fun s hs =>
    hs.cut hout htracked hblocks hlen hi hnew (Nat.le_add_right _ _)

end Cut

/-! ## Calls on an open file -/

section Handle

variable {head size : ℕ} {upper : List ℕ}

/-- Nothing in flight is a chain in flight of which no block is. -/
theorem Settled.holding {s : Fs} (h : Settled s) (head size : ℕ) : Holding g head size s :=
  ⟨h.exposed, [], h.shielded _ _⟩

/-- A chain without a head has no block in flight. -/
theorem Holding.settled {s : Fs} (h : Holding g noBlock size s) : Settled s := by
  obtain ⟨hexposed, upper, hshield⟩ := h
  obtain ⟨-, hblocks, -⟩ := hshield.ownsChain hexposed
  refine ⟨List.eq_nil_iff_forall_not_mem.2 fun b hb => ?_, hexposed⟩
  rcases hshield.chained.linked with hnil | ⟨head, n, rest, hsome, hcons, -, -⟩
  · rw [hblocks, hnil] at hb
    cases hb
  · cases hsome
    have htracked := hshield.chained.tracked noBlock (hcons ▸ List.mem_cons_self ..)
    exact absurd htracked (by decide)

/-- The account of a chain that is held, put back where the chain is as it was. -/
theorem OwnsChain.holding {s s' : Fs} (h : OwnsChain g head size upper s)
    (hcached : ∀ b ∈ upper, s'.Cached b)
    (hchained : UpperChain g s'.device (some (head, size)) upper) :
    Holding g head size { s' with unpublished := s.unpublished } :=
  ⟨h.exposed, upper, fun b hb => hcached b ((h.blocks b).1 hb),
    fun b hb => .inr (.inl ((h.blocks b).1 hb)), hchained, fun b hb => (h.blocks b).2 hb⟩

/-- A chain operation of a handle: when it fails, the handle still holds its chain. -/
theorem guarded_keepAccount {α : Type} {m : FsM α} {Q : α → Fs → Prop}
    (hm : ∀ upper, Guarded g (fun s => Shielded g [] (some (head, size)) upper s ∧
      s.unpublished.exposed = []) m Q (Carries g head size upper)) :
    Guarded g (Holding g head size) (File.keepAccount m)
      (fun r s => match r with
        | .ok a => Q a s
        | .error _ => Holding g head size s) fun _ => True := by
  refine Triple.get_bind fun s₀ ⟨hexposed, upper, hshield⟩ => ?_
  have howns := hshield.ownsChain hexposed
  refine Triple.bind (R := fun r s => match r with
    | .ok a => Q a s
    | .error _ => Carries g head size upper s)
    (Triple.attempt ((hm upper).strengthen ?_)) fun r => ?_
  · rintro s rfl
    exact ⟨hshield, hexposed⟩
  cases r with
  | ok a => exact Triple.pure fun _ h => h
  | error e =>
      refine Triple.seq (R := Holding g head size) (Triple.modify fun s hs => ?_)
        (Triple.pure fun _ h => h)
      exact howns.holding hs.cached hs.chained

/-- A commit of a handle: when it fails, the handle still holds its chain, or the chain has been
published. -/
theorem guarded_keepUnpublished {α : Type} {m : FsM α} {Q : α → Fs → Prop}
    (hm : ∀ upper, Guarded g (fun s => Shielded g [] (some (head, size)) upper s ∧
      s.unpublished.exposed = []) m Q (Afloat g (some (head, size)) upper False)) :
    Guarded g (Holding g head size) (File.keepUnpublished m)
      (fun r s => match r with
        | .ok a => Q a s
        | .error _ => Holding g head size s) fun _ => True := by
  refine Triple.get_bind fun s₀ ⟨hexposed, upper, hshield⟩ => ?_
  refine Triple.bind (R := fun r s => match r with
    | .ok a => Q a s
    | .error _ => Afloat g (some (head, size)) upper False s)
    (Triple.attempt ((hm upper).strengthen ?_)) fun r => ?_
  · rintro s rfl
    exact ⟨hshield, hexposed⟩
  cases r with
  | ok a => exact Triple.pure fun _ h => h
  | error e =>
      refine Triple.seq (R := Holding g head size) (Triple.modify fun s hs => ?_)
        (Triple.pure fun _ h => h)
      simp only
      by_cases hchain : s.unpublished.chain = none
      · rw [if_pos hchain]
        exact Settled.holding ⟨rfl, rfl⟩ _ _
      · rw [if_neg hchain]
        obtain ⟨-, hcached, hchained⟩ := hs.resolve_left hchain
        exact (hshield.ownsChain hexposed).holding hcached hchained

theorem guarded_tryExtend (hB : 128 ≤ g.blockSize) (data : List Byte) :
    Guarded g (Holding g head size) (File.tryExtend g head size data)
      (fun r s => match r with
        | .ok p => Holding g p.1 p.2 s
        | .error _ => Holding g head size s) fun _ => True := by
  refine (guarded_keepAccount fun _ => guarded_streamCtzExtend hB data).weaken fun r s hs => ?_
  cases r with
  | ok p => exact hs
  | error e => exact hs

/-- The handle holds its chain. -/
def File.Held (g : Geometry) (f : File) : Fs → Prop := Holding g f.headBlock f.size

theorem guarded_write (hB : 128 ≤ g.blockSize) (f : File) (data : List Byte) :
    Guarded g (f.Held g) (f.write g data) (fun r => r.1.Held g) fun _ => True := by
  refine Triple.ite (fun _ => Triple.pure fun _ h => h) fun _ =>
    Triple.ite (fun _ => Triple.pure fun _ h => h) fun _ => ?_
  -- moving the cursor to the end leaves the chain
  set f' := if f.options.append then { f with pos := f.size } else f with hf'
  have hhead : f'.headBlock = f.headBlock := by rw [hf']; split <;> rfl
  have hsize : f'.size = f.size := by rw [hf']; split <;> rfl
  have hheld : ∀ s, f.Held g s → f'.Held g s := by
    intro s hs
    rw [File.Held, hhead, hsize]
    exact hs
  refine Triple.strengthen (P := f'.Held g) ?_ hheld
  refine Triple.ite (fun _ => Triple.pure fun _ h => h) fun _ => ?_
  refine Triple.bind (guarded_tryExtend hB data) fun r => ?_
  cases r with
  | ok p => exact Triple.pure fun _ h => h
  | error e => exact Triple.pure fun _ h => h

/-- The zero extension holds the chain it has reached. -/
theorem guarded_zeroExtend (hB : 128 ≤ g.blockSize) (fuel remaining : ℕ) :
    Guarded g (Holding g head size) (File.zeroExtend g fuel head size remaining)
      (fun r => Holding g r.1.1 r.1.2) fun _ => True := by
  induction fuel generalizing head size remaining with
  | zero => exact Triple.pure fun _ h => h
  | succ fuel ih =>
      refine Triple.ite (fun _ => Triple.pure fun _ h => h) fun _ => ?_
      refine Triple.bind (guarded_tryExtend hB _) fun r => ?_
      cases r with
      | ok p => exact ih _
      | error e => exact Triple.pure fun _ h => h

theorem guarded_setLen (hB : 128 ≤ g.blockSize) (f : File) (newSize : ℕ) :
    Guarded g (f.Held g) (f.setLen g newSize) (fun r => r.1.Held g) fun _ => True := by
  refine Triple.ite (fun _ => Triple.pure fun _ h => h) fun _ =>
    Triple.ite (fun _ => Triple.pure fun _ h => h) fun _ => Triple.ite (fun hless => ?_) fun _ => ?_
  · refine Triple.ite (fun _ => ?_) fun hzero => ?_
    · exact Triple.seq (R := Settled) (Triple.modify fun _ _ => ⟨rfl, rfl⟩)
        (Triple.pure fun s hs => hs.holding _ _)
    · refine Triple.bind (guarded_keepAccount fun _ =>
        guarded_shrinkCtzHead hB (Nat.pos_of_ne_zero hzero) (Nat.le_of_lt hless)) fun r => ?_
      cases r with
      | ok newHead => exact Triple.pure fun _ h => h
      | error e => exact Triple.pure fun _ h => h
  · refine Triple.bind (guarded_zeroExtend hB _ _) fun r => ?_
    obtain ⟨⟨head, size⟩, result⟩ := r
    cases result with
    | ok u => exact Triple.pure fun _ h => h
    | error e => exact Triple.pure fun _ h => h

end Handle

end LittlefsPure
