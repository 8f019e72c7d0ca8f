import LittlefsPure.Handle.Chain
import LittlefsPure.Inflight.Content

/-!
# Blocks in flight and chains that grow

An operation on an existing chain writes beside it: a copy of the tail, and new blocks
on top.  Until it succeeds the old chain stays where it is, which is what a handle falls
back on, and its blocks in flight stay shielded.  Once the tail is copied the old one is
on no chain the allocator is told about; it is exposed.

## What is given up with the tail

A copied tail block is under the new head, and the old one is not.  Where the entry names the old
chain the plain scan finds the old block; where only a handle knows it, nothing the allocator is
told about leads there.  The handle falls back on the old chain when the append fails, so from
the copy on there must be no allocation that could take the old block, and the account says which
blocks the operation still answers for.
-/

namespace LittlefsPure

open FsM Logic

variable {g : Geometry}

/-! ## The chain that is kept -/

/-- What is left of a chain in flight however its extension ends. -/
structure Carries (g : Geometry) (head size : ℕ) (upper : List ℕ) (s : Fs) : Prop where
  cached : ∀ b ∈ upper, s.Cached b
  chained : UpperChain g s.device (some (head, size)) upper

/-- The chain an extension starts from, in place and in flight. -/
structure Beside (g : Geometry) (head size : ℕ) (upper : List ℕ) (s : Fs) : Prop where
  chained : UpperChain g s.device (some (head, size)) upper
  held : ∀ b ∈ upper, b ∈ s.unpublished.blocks

/-- A chain in flight that grows out of another one: `upper` is its upper part, `old` that of
the chain it grows from. -/
structure Growing (g : Geometry) (head size : ℕ) (old : List ℕ) (chain : Option (ℕ × ℕ))
    (upper : List ℕ) (s : Fs) : Prop where
  shielded : Shielded g [] chain upper s
  beside : Beside g head size old s
  exposed : ∀ b ∈ s.unpublished.exposed, b ∈ s.unpublished.blocks ∧ b ∉ upper

/-- A block just handed out and not programmed yet. -/
structure Unwritten (b : ℕ) (s : Fs) : Prop where
  free : b ∉ s.unpublished.blocks
  cached : s.Cached b

section Kept

variable {head size : ℕ} {old upper known : List ℕ} {chain : Option (ℕ × ℕ)} {addr b : ℕ}
  {s s' : Fs}

theorem Beside.cacheFree : CacheFree (Beside g head size old) :=
  fun _ _ h => ⟨h.chained, h.held⟩

theorem Beside.carries (h : Beside g head size old s)
    (hs : Shielded g known chain upper s) : Carries g head size old s :=
  ⟨fun b hb => hs.cached b (h.held b hb), h.chained⟩

theorem Growing.carries (h : Growing g head size old chain upper s) : Carries g head size old s :=
  h.beside.carries h.shielded

theorem Growing.dropCache (h : Growing g head size old chain upper s) :
    Growing g head size old chain upper { s with usedCache := none } :=
  ⟨h.shielded.dropCache, Beside.cacheFree _ _ h.beside, h.exposed⟩

theorem WritesOnly.beside (h : WritesOnly addr s s') (hs : Beside g head size old s)
    (haddr : addr ∉ old) : Beside g head size old s' := by
  refine ⟨hs.chained.congr fun b hb => h.sameLinks fun heq => haddr (heq ▸ hb), ?_⟩
  rw [h.unpublished]
  exact hs.held

theorem WritesOnly.unwritten (h : WritesOnly addr s s') (hs : Unwritten b s) : Unwritten b s' := by
  refine ⟨?_, fun used hused => ?_⟩
  · rw [h.unpublished]
    exact hs.free
  · rw [h.usedCache] at hused
    exact hs.cached used hused

theorem WritesOnly.growing (h : WritesOnly addr s s') (hs : Growing g head size old chain upper s)
    (haddr : addr ∉ s.unpublished.blocks) : Growing g head size old chain upper s' := by
  refine ⟨h.shielded hs.shielded fun hmem => haddr (hs.shielded.held addr hmem),
    h.beside hs.beside fun hmem => haddr (hs.beside.held addr hmem), ?_⟩
  rw [h.unpublished]
  exact hs.exposed

/-- The upper part of a chain is linked from the index of its tail down. -/
theorem UpperChain.descends {d : Device} (size tail : ℕ) (h : UpperChain g d chain upper)
    (hchain : ∀ t n, chain = some (t, n) → t = tail ∧ n = size) :
    Ctz.Descends d (Ctz.blockCount size g.blockSize - 1) upper ∧
      upper.length ≤ Ctz.blockCount size g.blockSize ∧ ∀ c, upper[0]? = some c → c = tail := by
  rcases h.linked with rfl | ⟨t, n, rest, hsome, rfl, hlen, hlinks⟩
  · exact ⟨True.intro, Nat.zero_le _, nofun⟩
  · obtain ⟨rfl, rfl⟩ := hchain t n hsome
    exact ⟨hlinks, hlen, fun c hc => (Option.some.inj hc).symm⟩

end Kept

/-! ## A copy of the tail -/

section Copy

variable {head size off : ℕ} {upper : List ℕ} {fill : List Byte}

/-- The copy of a tail takes its place at the head of the upper part. -/
theorem UpperChain.replaceHead {d : Device} (off fresh : ℕ) (fill : List Byte)
    (h : UpperChain g d (some (head, size)) upper) (hsize : 0 < Ctz.blockCount size g.blockSize)
    (hoff : 4 * Ctz.skipPointersInBlock (Ctz.blockCount size g.blockSize - 1) ≤ off)
    (hfresh : fresh ∉ upper) (htracked : fresh < maxTrackedBlocks)
    (himage : d.get fresh = .raw ((d.get head).slice 0 off ++ fill)) :
    UpperChain g d (some (fresh, size)) (fresh :: upper.tail) := by
  have hdescends := h.descends size head fun t n ht => by
    cases ht
    exact ⟨rfl, rfl⟩
  obtain ⟨hlinks, hlen, hhead⟩ := hdescends
  have htail : ∀ b ∈ upper.tail, b ∈ upper := fun b hb => List.mem_of_mem_tail hb
  have hcopy : Ctz.Links d (Ctz.blockCount size g.blockSize - 1) head upper.tail →
      Ctz.Links d (Ctz.blockCount size g.blockSize - 1) fresh upper.tail := by
    intro hold
    refine hold.congr ?_ fun p hp => ?_
    · rw [List.length_tail]
      omega
    · rw [himage]
      exact Block.getD_slice_append fill (Nat.lt_of_lt_of_le hp hoff)
  refine ⟨List.nodup_cons.2 ⟨fun hmem => hfresh (htail _ hmem), h.nodup.tail⟩, ?_,
    .inr ⟨fresh, size, upper.tail, rfl, rfl, ?_, ?_⟩⟩
  · intro b hb
    rcases List.mem_cons.1 hb with rfl | hb
    · exact htracked
    · exact h.tracked b (htail b hb)
  · rw [List.length_cons, List.length_tail]
    omega
  · cases upper with
    | nil => exact ⟨⟨nofun, fun _ => nofun⟩, True.intro⟩
    | cons c rest =>
        obtain rfl := hhead c rfl
        exact ⟨hcopy hlinks.1, hlinks.2⟩

/-- The account once the copy is in flight and the old tail exposed. -/
theorem Growing.copied {s : Fs} {fresh : ℕ}
    (h : Growing g head size upper (some (head, size)) upper s)
    (hexposed : s.unpublished.exposed = []) (hsize : 0 < Ctz.blockCount size g.blockSize)
    (hoff : 4 * Ctz.skipPointersInBlock (Ctz.blockCount size g.blockSize - 1) ≤ off)
    (hspare : Unwritten fresh s) (htracked : fresh < maxTrackedBlocks) (hne : head ≠ fresh)
    (himage : s.device.get fresh = .raw ((s.device.get head).slice 0 off ++ fill)) :
    Growing g head size upper (some (fresh, size)) (fresh :: upper.tail)
      { s with unpublished := { s.unpublished with
        blocks := s.unpublished.blocks ++ [fresh]
        exposed := s.unpublished.exposed ++ [head].filter
          (· ∈ s.unpublished.blocks ++ [fresh]) } } := by
  have hupper : fresh ∉ upper := fun hmem => hspare.free (h.shielded.held _ hmem)
  have htail : ∀ b ∈ upper.tail, b ∈ upper := fun b hb => List.mem_of_mem_tail hb
  have hcons : ∀ b ∈ upper, b = head ∨ b ∈ upper.tail := by
    intro b hb
    rcases h.beside.chained.linked with hnil | ⟨t, n, rest, hsome, hcons, -, -⟩
    · rw [hnil] at hb
      cases hb
    · cases hsome
      rw [hcons] at hb ⊢
      exact List.mem_cons.1 hb
  have hapart : head ∉ upper.tail := by
    intro hmem
    rcases h.beside.chained.linked with hnil | ⟨t, n, rest, hsome, hcons, -, -⟩
    · rw [hnil] at hmem
      cases hmem
    · cases hsome
      have hnodup := h.beside.chained.nodup
      rw [hcons] at hmem hnodup
      exact (List.nodup_cons.1 hnodup).1 hmem
  refine ⟨⟨fun b hb => ?_, fun b hb => ?_, ?_, fun b hb => ?_⟩, ⟨h.beside.chained, fun b hb => ?_⟩,
    fun b hb => ?_⟩
  · rcases List.mem_append.1 hb with hb | hb
    · exact h.shielded.cached b hb
    · rw [List.mem_singleton.1 hb]
      exact hspare.cached
  · refine .inr ?_
    rcases List.mem_append.1 hb with hmem | hmem
    · rcases h.shielded.found b hmem with hk | hu | he
      · cases hk
      · rcases hcons b hu with rfl | hrest
        · refine .inr (List.mem_append_right _ (List.mem_filter.2 ⟨List.mem_singleton_self b, ?_⟩))
          exact decide_eq_true (List.mem_append_left _ hmem)
        · exact .inl (List.mem_cons_of_mem _ hrest)
      · rw [hexposed] at he
        cases he
    · rw [List.mem_singleton.1 hmem]
      exact .inl (List.mem_cons_self ..)
  · exact h.beside.chained.replaceHead _ _ _ hsize hoff hupper htracked himage
  · rcases List.mem_cons.1 hb with rfl | hb
    · exact List.mem_append_right _ (List.mem_singleton_self b)
    · exact List.mem_append_left _ (h.shielded.held b (htail b hb))
  · exact List.mem_append_left _ (h.beside.held b hb)
  · rw [hexposed, List.nil_append] at hb
    obtain ⟨hb, hheld⟩ := List.mem_filter.1 hb
    obtain rfl := List.mem_singleton.1 hb
    refine ⟨of_decide_eq_true hheld, fun hmem => ?_⟩
    rcases List.mem_cons.1 hmem with heq | hmem
    · exact hne heq
    · exact hapart hmem

/-- A single block of the allocator, beside a chain that grows. -/
theorem guarded_allocSpare (hsize : 0 < Ctz.blockCount size g.blockSize) (excluded : List ℕ) :
    Guarded g (fun s => Growing g head size upper (some (head, size)) upper s ∧
        s.unpublished.exposed = [])
      (allocBlocks g false excluded (some (head, size)) 1)
      (fun blocks s => (Growing g head size upper (some (head, size)) upper s ∧
        s.unpublished.exposed = [] ∧ Unwritten (blocks.getD 0 noBlock) s) ∧
        blocks.getD 0 noBlock < maxTrackedBlocks ∧ head ≠ blocks.getD 0 noBlock)
      (Carries g head size upper) := by
  have halloc := @guarded_allocBlocks g (fun s => Beside g head size upper s ∧
    s.unpublished.exposed = []) (Carries g head size upper) [] excluded upper (some (head, size))
    nofun (fun s cache h => ⟨Beside.cacheFree s cache h.1, h.2⟩) false 1
    fun s hshield h => h.1.carries hshield
  refine halloc.conseq (fun s hs => ⟨hs.1.shielded, hs.1.beside, hs.2⟩) ?_ fun _ _ h => h
  rintro blocks s ⟨hshield, ⟨hbeside, hexposed⟩, hfresh⟩
  obtain ⟨b, rfl⟩ := List.length_eq_one_iff.1 hfresh.length
  have hb : b ∈ [b] := List.mem_singleton_self b
  refine ⟨⟨⟨hshield, hbeside, ?_⟩, hexposed, hfresh.free b hb, hfresh.cached b hb⟩,
    hfresh.tracked b hb, fun heq => ?_⟩
  · rw [hexposed]
    exact fun b hb => (by cases hb)
  · exact hfresh.head head size rfl hsize (List.mem_singleton.2 heq)

/-- The rebuilt tail is in flight in place of the old one, which is exposed. -/
theorem guarded_rebuildTail (hsize : 0 < Ctz.blockCount size g.blockSize)
    (hoff : 4 * Ctz.skipPointersInBlock (Ctz.blockCount size g.blockSize - 1) ≤ off)
    (left : ℕ) (excluded : List ℕ) :
    Guarded g (fun s => Growing g head size upper (some (head, size)) upper s ∧
        s.unpublished.exposed = [])
      (rebuildTail g head off fill (some (head, size)) left excluded)
      (fun fresh => Growing g head size upper (some (fresh, size)) (fresh :: upper.tail))
      (Carries g head size upper) := by
  have hround : ∀ (blocks : List ℕ) (m : FsM ℕ),
      Guarded g (fun s => Growing g head size upper (some (head, size)) upper s ∧
        s.unpublished.exposed = []) m
        (fun fresh => Growing g head size upper (some (fresh, size)) (fresh :: upper.tail))
        (Carries g head size upper) →
      Guarded g (fun s => (Growing g head size upper (some (head, size)) upper s ∧
          s.unpublished.exposed = [] ∧ Unwritten (blocks.getD 0 noBlock) s) ∧
          blocks.getD 0 noBlock < maxTrackedBlocks ∧ head ≠ blocks.getD 0 noBlock)
        (do
          let fresh := blocks.getD 0 noBlock
          let old ← query fun d => d.read head
          if ← eraseAndProgramBytes fresh (old.slice 0 off ++ fill) then
            hold [fresh]
            expose [head]
            pure fresh
          else m)
        (fun fresh => Growing g head size upper (some (fresh, size)) (fresh :: upper.tail))
        (Carries g head size upper) := by
    intro blocks m hm
    refine Triple.pre fun ⟨htracked, hne⟩ => ?_
    set fresh := blocks.getD 0 noBlock with hfresh
    refine Triple.bind (R := fun old s => (Growing g head size upper (some (head, size)) upper s ∧
      s.unpublished.exposed = [] ∧ Unwritten fresh s) ∧ s.device.get head = old)
      (Triple.query (fun _ _ hs hread => ⟨hs, (Device.read_eq_ok.1 hread).2⟩)
        fun _ _ hs _ => hs.1.carries) fun old => ?_
    have hstable : Stable fresh fun s => (Growing g head size upper (some (head, size)) upper s ∧
        s.unpublished.exposed = [] ∧ Unwritten fresh s) ∧ s.device.get head = old := by
      rintro s s' ⟨⟨hs, hexposed, hspare⟩, hold⟩ hw
      refine ⟨⟨hw.growing hs hspare.free, ?_, hw.unwritten hspare⟩, (hw.other head hne).trans hold⟩
      rw [hw.unpublished]
      exact hexposed
    refine Triple.bind (guarded_eraseAndProgramBytes hstable (fun s hs => hs.1.2.2.free) _)
      fun ok => Triple.ite (fun hok => ?_) fun _ => ?_
    · refine Triple.seq (R := fun s => ∃ u : Unpublished, s.unpublished =
        { u with blocks := u.blocks ++ [fresh] } ∧
        Growing g head size upper (some (fresh, size)) (fresh :: upper.tail)
          { s with unpublished := { u with
            blocks := u.blocks ++ [fresh]
            exposed := u.exposed ++ [head].filter (· ∈ u.blocks ++ [fresh]) } })
        (Triple.modify ?_) ?_
      · rintro s ⟨⟨⟨hs, hexposed, hspare⟩, hold⟩, himage⟩
        have hcopy : s.device.get fresh = .raw ((s.device.get head).slice 0 off ++ fill) := by
          rw [himage hok, hold]
        exact ⟨s.unpublished, rfl, hs.copied hexposed hsize hoff hspare htracked hne hcopy⟩
      · refine Triple.seq (R := Growing g head size upper (some (fresh, size))
          (fresh :: upper.tail))
          (Triple.modify ?_) (Triple.pure fun _ h => h)
        rintro s ⟨u, hu, hs⟩
        rw [hu]
        exact hs
    · exact hm.strengthen fun s hs => ⟨hs.1.1.1, hs.1.1.2.1⟩
  induction left generalizing excluded with
  | zero =>
      rw [rebuildTail]
      exact Triple.bind (guarded_allocSpare hsize excluded) fun blocks =>
        hround blocks _ (Triple.fail fun _ hs => hs.1.carries)
  | succ left ih =>
      rw [rebuildTail]
      exact Triple.bind (guarded_allocSpare hsize excluded) fun blocks => hround blocks _
        (Triple.seq (guarded_invalidateAllocCache fun s hs => ⟨hs.1.dropCache, hs.2⟩) (ih _))

end Copy

/-! ## The tail plan -/

/-- The chain an extension hands to the allocator for the new blocks. -/
def chainOver (g : Geometry) (tail size : ℕ) : Option (ℕ × ℕ) :=
  if 0 < Ctz.blockCount size g.blockSize then some (tail, size) else none

theorem chainOver_eq_some {tail size t n : ℕ} (h : chainOver g tail size = some (t, n)) :
    t = tail ∧ n = size := by
  unfold chainOver at h
  split_ifs at h
  cases h
  exact ⟨rfl, rfl⟩

/-- A fill left for later goes into the old tail, behind its pointers. -/
def Deferred (g : Geometry) (head size tail : ℕ) (fill : Option (ℕ × List Byte)) : Prop :=
  ∀ off data, fill = some (off, data) → tail = head ∧ 0 < Ctz.blockCount size g.blockSize ∧
    4 * Ctz.skipPointersInBlock (Ctz.blockCount size g.blockSize - 1) ≤ off

section Plan

variable {head size : ℕ} {old upper : List ℕ}

theorem Growing.over {s : Fs} {tail : ℕ} (h : Growing g head size old (some (tail, size)) upper s) :
    Growing g head size old (chainOver g tail size) upper s := by
  unfold chainOver
  split_ifs with hsize
  · exact h
  · have hlen := (h.shielded.chained.descends size tail fun t n ht => by
      cases ht
      exact ⟨rfl, rfl⟩).2.1
    obtain rfl : upper = [] := List.eq_nil_of_length_eq_zero (by omega)
    exact ⟨⟨h.shielded.cached, h.shielded.found, upperChain_nil, h.shielded.held⟩, h.beside,
      h.exposed⟩

/-- The plan leaves a tail whose chain is in flight, and a deferred fill for the old one. -/
theorem guarded_planTail (data : List Byte) :
    Guarded g (fun s => Growing g head size upper (some (head, size)) upper s ∧
        s.unpublished.exposed = [])
      (planTail g head size data)
      (fun plan s => (∃ upper', Growing g head size upper (chainOver g plan.1 size) upper' s) ∧
        Deferred g head size plan.1 plan.2.1)
      (Carries g head size upper) := by
  rw [planTail]
  refine Triple.ite (fun _ => Triple.pure fun s hs => ⟨⟨upper, hs.1.over⟩, by simp [Deferred]⟩)
    fun hcount => ?_
  have hsize : 0 < Ctz.blockCount size g.blockSize := Nat.pos_of_ne_zero hcount
  refine Triple.ite (fun _ => Triple.pure fun s hs => ⟨⟨upper, hs.1.over⟩, by simp [Deferred]⟩)
    fun _ => ?_
  refine Triple.bind (R := fun _ s => Growing g head size upper (some (head, size)) upper s ∧
    s.unpublished.exposed = []) (Triple.query (fun _ _ hs _ => hs) fun _ _ hs _ => hs.1.carries)
    fun tail => Triple.ite (fun _ => Triple.pure fun s hs => ⟨⟨upper, hs.1.over⟩, ?_⟩) fun _ => ?_
  · intro off fill h
    cases h
    exact ⟨rfl, hsize, Nat.le_add_right _ _⟩
  · refine Triple.bind (guarded_rebuildTail hsize (Nat.le_add_right _ _) _ []) fun fresh =>
      Triple.pure fun s hs => ⟨⟨_, hs.over⟩, by simp [Deferred]⟩

end Plan

/-! ## New blocks -/

/-- The pointers of a block name the two blocks below it. -/
structure Pointers (i : ℕ) (below pointers : List ℕ) : Prop where
  length : pointers.length = Ctz.skipPointersInBlock i
  next : ∀ c p, below[0]? = some c → pointers[0]? = some p → p = c
  skip : ∀ c p, below[1]? = some c → pointers[1]? = some p → p = c

/-- The first `j` of the new blocks lie on top of the upper part. -/
structure Stacked (g : Geometry) (head size : ℕ) (old : List ℕ) (tail : ℕ) (upper news : List ℕ)
    (j : ℕ) (s : Fs) : Prop where
  shielded : Shielded g (news.take j) (chainOver g tail size) upper s
  beside : Beside g head size old s
  linked : Ctz.Descends s.device (Ctz.blockCount size g.blockSize + j - 1)
    ((news.take j).reverse ++ upper)
  exposed : ∀ b ∈ s.unpublished.exposed, b ∈ s.unpublished.blocks ∧ b ∉ upper ∧ b ∉ news
  cached : ∀ b ∈ news, s.Cached b
  built : ∀ b ∈ news.take j, b ∈ s.unpublished.blocks
  free : ∀ b ∈ news.drop j, b ∉ s.unpublished.blocks

/-- The new blocks are apart from each other and from what they are put on. -/
structure Apart (g : Geometry) (old upper : List ℕ) (size tail : ℕ) (news : List ℕ) : Prop where
  nodup : news.Nodup
  tracked : ∀ b ∈ news, b < maxTrackedBlocks
  upper : ∀ b ∈ news, b ∉ upper
  old : ∀ b ∈ news, b ∉ old
  tail : 0 < Ctz.blockCount size g.blockSize → tail ∉ news

section Stack

variable {head size tail : ℕ} {old upper news : List ℕ} {j : ℕ} {s s' : Fs}

theorem Stacked.carries (h : Stacked g head size old tail upper news j s) :
    Carries g head size old s :=
  h.beside.carries h.shielded

/-- The address `extendPointers` finds for the block of index `target`. -/
def PointsTo (g : Geometry) (d : Device) (news : List ℕ) (tail n target p : ℕ) : Prop :=
  (n ≤ target ∧ p = news.getD (target - n) 0) ∨
    (target < n ∧ Ctz.seekBlock g d tail (n - 1) target = .ok p)

/-- The block one or two below new block `j` is where its pointer points. -/
theorem Stacked.below (h : Stacked g head size old tail upper news j s) (hj : j < news.length)
    {k c p : ℕ} (hk : k ≤ 1) (hc : ((news.take j).reverse ++ upper)[k]? = some c)
    (hp : PointsTo g s.device news tail (Ctz.blockCount size g.blockSize)
      (Ctz.blockCount size g.blockSize + j - (k + 1)) p) : p = c := by
  obtain ⟨hlinks, hlen, hhead⟩ := h.shielded.chained.descends size tail
    fun t n ht => chainOver_eq_some ht
  set n := Ctz.blockCount size g.blockSize with hn
  have hcount : (news.take j).reverse.length = j := by
    rw [List.length_reverse, List.length_take, Nat.min_eq_left (Nat.le_of_lt hj)]
  by_cases hnew : k < j
  · rcases hp with ⟨-, hp⟩ | ⟨hlt, -⟩
    · rw [List.getElem?_append_left (by omega), List.getElem?_reverse
        (by rw [List.length_reverse] at hcount; omega),
        List.length_take, Nat.min_eq_left (Nat.le_of_lt hj), List.getElem?_take_of_lt
          (by omega)] at hc
      rw [hp, show n + j - (k + 1) - n = j - 1 - k by omega, List.getD_eq_getElem?_getD, hc]
      rfl
    · omega
  rw [List.getElem?_append_right (by omega), hcount] at hc
  have hpos : k - j < n := Nat.lt_of_lt_of_le (List.getElem?_eq_some_iff.1 hc).1 hlen
  rcases hp with ⟨hle, -⟩ | ⟨-, hp⟩
  · omega
  by_cases hself : k = j
  · -- the tail itself
    rw [show k - j = 0 by omega] at hc
    rw [show n + j - (k + 1) = n - 1 by omega] at hp
    rw [Ctz.seekBlock_self hp, hhead c hc]
  · -- the block below the tail
    rw [show k - j = 1 by omega] at hc
    obtain ⟨m, hm⟩ : ∃ m, n = m + 2 := ⟨n - 2, by omega⟩
    rw [show n + j - (k + 1) = m by omega, show n - 1 = m + 1 by omega] at hp
    cases upper with
    | nil => cases hc
    | cons c' rest =>
        obtain rfl := hhead c' rfl
        rw [Ctz.seekBlock_pred hp]
        exact hlinks.1.next c hc

theorem guarded_extendPointers (n i : ℕ) (s₀ : Fs) (ks : List ℕ) :
    Guarded g (fun s => s = s₀) (extendPointers g news tail n i ks)
      (fun bytes s => s = s₀ ∧ ∃ pointers : List ℕ, bytes = pointers.flatMap le32 ∧
        pointers.length = ks.length ∧ ∀ m k p : ℕ, ks[m]? = some k → pointers[m]? = some p →
          PointsTo g s₀.device news tail n (i - 2 ^ k) p) (fun s => s = s₀) := by
  induction ks with
  | nil => exact Triple.pure fun s hs => ⟨hs, [], rfl, rfl, fun _ _ _ h => (by cases h)⟩
  | cons k ks ih =>
      refine Triple.ite (fun _ => Triple.fail fun _ hs => hs) fun _ => ?_
      refine Triple.bind (R := fun phys s => s = s₀ ∧
        PointsTo g s₀.device news tail n (i - 2 ^ k) phys) ?_ fun phys => Triple.pre fun hphys => ?_
      · refine Triple.query (fun s phys hs hphys => ⟨hs, ?_⟩) fun _ _ hs _ => hs
        subst hs
        replace hphys : (if n ≤ i - 2 ^ k then .ok (news.getD (i - 2 ^ k - n) 0)
          else Ctz.seekBlock g s.device tail (n - 1) (i - 2 ^ k)) = .ok phys := hphys
        split_ifs at hphys with hnew
        · cases hphys
          exact .inl ⟨hnew, rfl⟩
        · exact .inr ⟨Nat.lt_of_not_le hnew, hphys⟩
      · refine Triple.bind ih fun more => Triple.pure ?_
        rintro s ⟨hs, pointers, rfl, hlen, hpoints⟩
        refine ⟨hs, phys :: pointers, rfl, by rw [List.length_cons, hlen, List.length_cons],
          fun m k' p hk hp => ?_⟩
        cases m with
        | zero =>
            cases hk
            cases hp
            exact hphys
        | succ m => exact hpoints m k' p hk hp

/-- The pointers written into new block `j`. -/
theorem guarded_newPointers (hj : j < news.length) :
    Guarded g (Stacked g head size old tail upper news j)
      (extendPointers g news tail (Ctz.blockCount size g.blockSize)
        (Ctz.blockCount size g.blockSize + j)
        (List.range (Ctz.skipPointersInBlock (Ctz.blockCount size g.blockSize + j))))
      (fun bytes s => Stacked g head size old tail upper news j s ∧ ∃ pointers : List ℕ,
        bytes = pointers.flatMap le32 ∧ Pointers (Ctz.blockCount size g.blockSize + j)
          ((news.take j).reverse ++ upper) pointers)
      (Carries g head size old) := by
  refine ⟨fun s hs hev => ?_⟩
  refine (Triple.conseq (@guarded_extendPointers g tail news _ _ s _)
    (fun _ h => h) ?_ ?_).post s rfl hev
  · rintro bytes s' ⟨rfl, pointers, hbytes, hlen, hpoints⟩
    rw [List.length_range] at hlen
    refine ⟨hs, pointers, hbytes, hlen, fun c p hc hp => ?_, fun c p hc hp => ?_⟩
    · have hlt := (List.getElem?_eq_some_iff.1 hp).1
      exact hs.below hj (Nat.zero_le _) hc (hpoints 0 0 p (List.getElem?_range (hlen ▸ hlt)) hp)
    · have hlt := (List.getElem?_eq_some_iff.1 hp).1
      exact hs.below hj (Nat.le_refl _) hc (hpoints 1 1 p (List.getElem?_range (hlen ▸ hlt)) hp)
  · rintro e s' rfl
    exact hs.carries

theorem List.drop_eq_cons_getElem? {α : Type} {xs todo : List α} {j : ℕ} {x : α}
    (h : xs.drop j = x :: todo) : xs[j]? = some x := by
  rw [← List.head?_drop, h]
  rfl

/-- Writes to a new block that is not in place yet keep what is. -/
theorem Stacked.stable (hapart : Apart g old upper size tail news) {block : ℕ}
    (hget : news[j]? = some block) : Stable block (Stacked g head size old tail upper news j) := by
  intro s s' h hw
  have hmem : block ∈ news := List.mem_of_getElem? hget
  have hfree : block ∉ s.unpublished.blocks := by
    refine h.free block ?_
    rw [List.mem_iff_getElem?]
    exact ⟨0, by rw [List.getElem?_drop, Nat.add_zero, hget]⟩
  refine ⟨hw.shielded h.shielded (hapart.upper block hmem), hw.beside h.beside
    (hapart.old block hmem), h.linked.congr fun b hb => hw.sameLinks ?_, ?_,
    fun b hb used hused => ?_, ?_, ?_⟩
  · rintro rfl
    rcases List.mem_append.1 hb with hb | hb
    · exact hfree (h.built b (List.mem_reverse.1 hb))
    · exact hapart.upper b hmem hb
  · rw [hw.unpublished]
    exact h.exposed
  · rw [hw.usedCache] at hused
    exact h.cached b hb used hused
  · rw [hw.unpublished]
    exact h.built
  · rw [hw.unpublished]
    exact h.free

/-- A new block with its pointers is put on top. -/
theorem Stacked.push (h : Stacked g head size old tail upper news j s)
    (hapart : Apart g old upper size tail news) {block : ℕ} {pointers : List ℕ}
    {content : List Byte} (hget : news[j]? = some block)
    (hpointers : Pointers (Ctz.blockCount size g.blockSize + j) ((news.take j).reverse ++ upper)
      pointers)
    (hcontent : s.device.get block = .raw (pointers.flatMap le32 ++ content)) :
    Stacked g head size old tail upper news (j + 1)
      { s with unpublished :=
        { s.unpublished with blocks := s.unpublished.blocks ++ [block] } } := by
  have hmem : block ∈ news := List.mem_of_getElem? hget
  have hlt : j < news.length := (List.getElem?_eq_some_iff.1 hget).1
  have htake : news.take (j + 1) = news.take j ++ [block] := by
    rw [List.take_add_one, hget]
    rfl
  have hdrop : news.drop j = block :: news.drop (j + 1) := by
    rw [List.drop_eq_getElem_cons hlt, (List.getElem?_eq_some_iff.1 hget).2]
  obtain ⟨-, hlen, -⟩ := h.shielded.chained.descends size tail
    fun t n ht => chainOver_eq_some ht
  have hbelow : ((news.take j).reverse ++ upper).length ≤ Ctz.blockCount size g.blockSize + j := by
    rw [List.length_append, List.length_reverse, List.length_take]
    omega
  refine ⟨?_, ⟨h.beside.chained, fun b hb => List.mem_append_left _ (h.beside.held b hb)⟩, ?_,
    fun b hb => ?_, h.cached, fun b hb => ?_, fun b hb => ?_⟩
  · rw [htake]
    exact h.shielded.hold (List.forall_mem_singleton.2 (h.cached block hmem))
  · rw [htake, List.reverse_append]
    refine ⟨?_, h.linked⟩
    show Ctz.Links s.device (Ctz.blockCount size g.blockSize + (j + 1) - 1) block
      ((news.take j).reverse ++ upper)
    rw [← Nat.add_assoc, Nat.add_sub_cancel]
    refine Ctz.links_of_pointers hcontent hpointers.length hbelow (fun c hc => ?_) hpointers.next
      hpointers.skip
    have htracked : c < maxTrackedBlocks := by
      rcases List.mem_append.1 hc with hc | hc
      · exact hapart.tracked c (List.mem_of_mem_take (List.mem_reverse.1 hc))
      · exact h.shielded.chained.tracked c hc
    rw [maxTrackedBlocks] at htracked
    omega
  · obtain ⟨hheld, hrest⟩ := h.exposed b hb
    exact ⟨List.mem_append_left _ hheld, hrest⟩
  · rw [htake] at hb
    rcases List.mem_append.1 hb with hb | hb
    · exact List.mem_append_left _ (h.built b hb)
    · exact List.mem_append_right _ hb
  · intro hmem'
    rcases List.mem_append.1 hmem' with hheld | hlast
    · refine h.free b ?_ hheld
      rw [hdrop]
      exact List.mem_cons_of_mem _ hb
    · obtain rfl := List.mem_singleton.1 hlast
      have hnodup := (hapart.nodup.sublist (List.drop_sublist j news))
      rw [hdrop] at hnodup
      exact (List.nodup_cons.1 hnodup).1 hb

/-- The new blocks are given up again. -/
theorem Stacked.release (h : Stacked g head size old tail upper news j s)
    (hapart : Apart g old upper size tail news) :
    Growing g head size old (chainOver g tail size) upper
      { s with unpublished := { s.unpublished with
        blocks := s.unpublished.blocks.filter (· ∉ news)
        exposed := s.unpublished.exposed.filter (· ∉ news) } } := by
  have hmem : ∀ b, b ∈ s.unpublished.blocks.filter (· ∉ news) ↔
      b ∈ s.unpublished.blocks ∧ b ∉ news := by
    simp [List.mem_filter]
  have hmem' : ∀ b, b ∈ s.unpublished.exposed.filter (· ∉ news) ↔
      b ∈ s.unpublished.exposed ∧ b ∉ news := by
    simp [List.mem_filter]
  refine ⟨⟨fun b hb => ?_, fun b hb => ?_, h.shielded.chained, fun b hb => ?_⟩,
    ⟨h.beside.chained, fun b hb => ?_⟩, fun b hb => ?_⟩
  · exact h.shielded.cached b ((hmem b).1 hb).1
  · obtain ⟨hheld, hnews⟩ := (hmem b).1 hb
    rcases h.shielded.found b hheld with hk | hu | he
    · exact absurd (List.mem_of_mem_take hk) hnews
    · exact .inr (.inl hu)
    · exact .inr (.inr ((hmem' b).2 ⟨he, hnews⟩))
  · exact (hmem b).2 ⟨h.shielded.held b hb, fun hnews => hapart.upper b hnews hb⟩
  · exact (hmem b).2 ⟨h.beside.held b hb, fun hnews => hapart.old b hnews hb⟩
  · obtain ⟨hb, hnews⟩ := (hmem' b).1 hb
    obtain ⟨hheld, hupper, -⟩ := h.exposed b hb
    exact ⟨(hmem b).2 ⟨hheld, hnews⟩, hupper⟩

/-- The write loop puts all new blocks on top, or gives them up. -/
theorem guarded_extendBlocksFrom (hapart : Apart g old upper size tail news) {todo : List ℕ}
    (htodo : news.drop j = todo) (hj : j ≤ news.length) (content : List Byte) :
    Guarded g (Stacked g head size old tail upper news j)
      (extendBlocksFrom g news tail (Ctz.blockCount size g.blockSize) todo
        (Ctz.blockCount size g.blockSize + j) content)
      (fun worn s => match worn with
        | none => Stacked g head size old tail upper news news.length s
        | some _ => Growing g head size old (chainOver g tail size) upper s)
      (Carries g head size old) := by
  induction todo generalizing j content with
  | nil =>
      obtain rfl : j = news.length := Nat.le_antisymm hj (List.drop_eq_nil_iff.1 htodo)
      exact Triple.pure fun _ h => h
  | cons block todo ih =>
      have hget : news[j]? = some block := List.drop_eq_cons_getElem? htodo
      have hlt : j < news.length := (List.getElem?_eq_some_iff.1 hget).1
      have hnext : news.drop (j + 1) = todo := by
        rw [← List.drop_drop, htodo]
        rfl
      refine Triple.bind (guarded_newPointers hlt) fun bytes => ?_
      refine Triple.strengthen (P := fun s => ∃ pointers : List ℕ,
        Stacked g head size old tail upper news j s ∧ bytes = pointers.flatMap le32 ∧
          Pointers (Ctz.blockCount size g.blockSize + j) ((news.take j).reverse ++ upper) pointers)
        (Triple.exists_pre fun pointers => Triple.pre fun ⟨hbytes, hpointers⟩ => ?_)
        fun s ⟨hs, pointers, h⟩ => ⟨pointers, hs, h⟩
      subst hbytes
      refine Triple.bind (guarded_eraseAndProgramBytes (Stacked.stable hapart hget) (fun s hs => ?_)
        _)
        fun ok => Triple.ite (fun hok => ?_) fun _ => ?_
      · refine hs.free block ?_
        rw [htodo]
        exact List.mem_cons_self ..
      · refine Triple.seq (R := Stacked g head size old tail upper news (j + 1))
          (Triple.modify fun s hs => hs.1.push hapart hget hpointers (hs.2 hok))
          (ih hnext hlt _)
      · exact Triple.seq (R := Growing g head size old (chainOver g tail size) upper)
          (Triple.modify fun s hs => hs.1.release hapart) (Triple.pure fun _ h => h)

/-- The new blocks of an allocation, before any is written. -/
theorem guarded_allocNews (newCount : ℕ) (excluded : List ℕ) :
    Guarded g (Growing g head size old (chainOver g tail size) upper)
      (allocBlocks g false excluded (chainOver g tail size) newCount)
      (fun news s => Stacked g head size old tail upper news 0 s ∧
        Apart g old upper size tail news ∧ news.length = newCount)
      (Carries g head size old) := by
  have halloc := @guarded_allocBlocks g (fun s => Beside g head size old s ∧
    ∀ b ∈ s.unpublished.exposed, b ∈ s.unpublished.blocks ∧ b ∉ upper) (Carries g head size old) []
    excluded upper (chainOver g tail size) (fun _ hb => (by cases hb))
    (fun s cache h => ⟨Beside.cacheFree s cache h.1, h.2⟩) false newCount
    fun s hshield h => h.1.carries hshield
  refine halloc.conseq (fun s hs => ⟨hs.shielded, hs.beside, hs.exposed⟩) ?_ fun _ _ h => h
  rintro news s ⟨hshield, ⟨hbeside, hexposed⟩, hfresh⟩
  refine ⟨⟨hshield, hbeside, (hshield.chained.descends _ _ fun t n ht => chainOver_eq_some ht).1,
    fun b hb => ?_, hfresh.cached, fun b hb => (by cases hb), hfresh.free⟩,
    ⟨hfresh.nodup, hfresh.tracked, fun b hb hmem => hfresh.free b hb (hshield.held b hmem),
      fun b hb hmem => hfresh.free b hb (hbeside.held b hmem), fun hsize => ?_⟩, hfresh.length⟩
  · obtain ⟨hheld, hupper⟩ := hexposed b hb
    exact ⟨hheld, hupper, fun hnews => hfresh.free b hnews hheld⟩
  · exact hfresh.head tail size (by rw [chainOver, if_pos hsize]) hsize

/-- The allocate-and-write loop puts the new blocks on top. -/
theorem guarded_extendChain (newCount : ℕ) (content : List Byte) (left : ℕ) (excluded : List ℕ) :
    Guarded g (Growing g head size old (chainOver g tail size) upper)
      (extendChain g tail (Ctz.blockCount size g.blockSize) newCount content
        (chainOver g tail size) left excluded)
      (fun news s => Stacked g head size old tail upper news news.length s ∧
        Apart g old upper size tail news ∧ news.length = newCount)
      (Carries g head size old) := by
  have hround : ∀ news : List ℕ, Guarded g
      (fun s => Stacked g head size old tail upper news 0 s ∧ Apart g old upper size tail news ∧
        news.length = newCount)
      (extendBlocksFrom g news tail (Ctz.blockCount size g.blockSize) news
        (Ctz.blockCount size g.blockSize) content)
      (fun worn s => match worn with
        | none => Stacked g head size old tail upper news news.length s ∧
            Apart g old upper size tail news ∧ news.length = newCount
        | some _ => Growing g head size old (chainOver g tail size) upper s)
      (Carries g head size old) := by
    intro news
    refine Triple.pre fun ⟨hapart, hcount⟩ => ?_
    refine (guarded_extendBlocksFrom (j := 0) hapart (List.drop_zero ..) (Nat.zero_le _)
      content).weaken fun worn s hs => ?_
    cases worn with
    | none => exact ⟨hs, hapart, hcount⟩
    | some bad => exact hs
  induction left generalizing excluded with
  | zero =>
      rw [extendChain]
      refine Triple.bind (guarded_allocNews newCount excluded) fun news =>
        Triple.bind (hround news) fun worn => ?_
      cases worn with
      | none => exact Triple.pure fun _ h => h
      | some bad => exact Triple.fail fun _ h => h.carries
  | succ left ih =>
      rw [extendChain]
      refine Triple.bind (guarded_allocNews newCount excluded) fun news =>
        Triple.bind (hround news) fun worn => ?_
      cases worn with
      | none => exact Triple.pure fun _ h => h
      | some bad =>
          exact Triple.seq (guarded_invalidateAllocCache fun s hs => hs.dropCache) (ih _)

end Stack

/-! ## The extended chain -/

/-- The new blocks lie on the tail of the chain that is extended. -/
structure OnTop (g : Geometry) (size newSize tail : ℕ) (upper news : List ℕ) : Prop where
  count : Ctz.blockCount newSize g.blockSize = Ctz.blockCount size g.blockSize + news.length
  length : upper.length ≤ Ctz.blockCount size g.blockSize
  head : ∀ c, upper[0]? = some c → c = tail
  tail : 0 < Ctz.blockCount size g.blockSize → tail ∉ news

section Grown

variable {head size tail newSize : ℕ} {old upper news : List ℕ} {s s' : Fs}

/-- All of the data fits the tail: the chain keeps its blocks. -/
theorem Growing.resize (h : Growing g head size old (chainOver g tail size) upper s)
    (hcount : Ctz.blockCount newSize g.blockSize = Ctz.blockCount size g.blockSize) :
    Growing g head size old (some (tail, newSize)) upper s ∧
      OnTop g size newSize tail upper [] := by
  obtain ⟨hlinks, hlen, hhead⟩ := h.shielded.chained.descends size tail
    fun t n ht => chainOver_eq_some ht
  refine ⟨⟨⟨h.shielded.cached, h.shielded.found, ⟨h.shielded.chained.nodup,
    h.shielded.chained.tracked, ?_⟩, h.shielded.held⟩, h.beside, h.exposed⟩,
    ⟨hcount, hlen, hhead, fun _ => List.not_mem_nil⟩⟩
  cases upper with
  | nil => exact .inl rfl
  | cons c rest =>
      obtain rfl := hhead c rfl
      rw [← hcount] at hlen hlinks
      exact .inr ⟨c, newSize, rest, rfl, rfl, hlen, hlinks⟩

/-- All new blocks are in place: they are the upper part of the extended chain. -/
theorem Stacked.grown (h : Stacked g head size old tail upper news news.length s)
    (hapart : Apart g old upper size tail news) (hpos : 0 < news.length)
    (hcount : Ctz.blockCount newSize g.blockSize =
      Ctz.blockCount size g.blockSize + news.length) :
    Growing g head size old (some (news.getD (news.length - 1) noBlock, newSize))
        (news.reverse ++ upper) s ∧ OnTop g size newSize tail upper news := by
  obtain ⟨-, hlen, hhead⟩ := h.shielded.chained.descends size tail
    fun t n ht => chainOver_eq_some ht
  have hlinked := h.linked
  have hbuilt := h.built
  have hfound := h.shielded.found
  rw [List.take_length] at hlinked hbuilt hfound
  have hmem : ∀ b, b ∈ news.reverse ++ upper ↔ b ∈ news ∨ b ∈ upper := by
    simp [List.mem_append]
  have hne : news.reverse ≠ [] := by
    rw [ne_eq, List.reverse_eq_nil_iff]
    exact List.ne_nil_of_length_pos hpos
  have hlast : news.getD (news.length - 1) noBlock = news.reverse.head hne := by
    rw [List.head_reverse, List.getLast_eq_getElem, List.getD_eq_getElem]
  refine ⟨⟨⟨h.shielded.cached, fun b hb => ?_, ⟨?_, fun b hb => ?_, .inr ?_⟩, fun b hb => ?_⟩,
    h.beside, fun b hb => ?_⟩, ⟨hcount, hlen, hhead, hapart.tail⟩⟩
  · rcases hfound b hb with hk | hu | he
    · exact .inr (.inl ((hmem b).2 (.inl hk)))
    · exact .inr (.inl ((hmem b).2 (.inr hu)))
    · exact .inr (.inr he)
  · rw [List.nodup_append]
    refine ⟨List.nodup_reverse.2 hapart.nodup, h.shielded.chained.nodup, fun a ha b hb hab => ?_⟩
    exact hapart.upper a (List.mem_reverse.1 ha) (hab ▸ hb)
  · rcases (hmem b).1 hb with hb | hb
    · exact hapart.tracked b hb
    · exact h.shielded.chained.tracked b hb
  · refine ⟨_, newSize, news.reverse.tail ++ upper, rfl, ?_, ?_, ?_⟩
    · rw [hlast, ← List.cons_append, List.cons_head_tail]
    · rw [List.length_append, List.length_reverse, hcount]
      omega
    · rw [hcount]
      exact hlinked
  · rcases (hmem b).1 hb with hb | hb
    · exact hbuilt b hb
    · exact h.shielded.held b hb
  · obtain ⟨hheld, hupper, hnews⟩ := h.exposed b hb
    exact ⟨hheld, fun hb => ((hmem b).1 hb).elim hnews hupper⟩

/-- The new blocks make up the extended chain. -/
theorem guarded_appendBlocks {content : List Byte}
    (hnone : content = [] → Ctz.blockCount newSize g.blockSize = Ctz.blockCount size g.blockSize)
    (hsome : content ≠ [] → Ctz.blockCount size g.blockSize < Ctz.blockCount newSize g.blockSize) :
    Guarded g (Growing g head size old (chainOver g tail size) upper)
      (appendBlocks g tail size
        (Ctz.blockCount newSize g.blockSize - Ctz.blockCount size g.blockSize) content)
      (fun newHead s => ∃ news, Growing g head size old (some (newHead, newSize))
        (news.reverse ++ upper) s ∧ OnTop g size newSize tail upper news)
      (Carries g head size old) := by
  rw [appendBlocks]
  refine Triple.ite (fun hempty => Triple.pure fun s hs => ⟨[], hs.resize (hnone hempty)⟩)
    fun hcontent => ?_
  have hgrows := hsome hcontent
  refine Triple.bind (guarded_extendChain _ content _ []) fun news => Triple.pure ?_
  rintro s ⟨hs, hapart, hlen⟩
  refine ⟨news, ?_⟩
  rw [← hlen]
  exact hs.grown hapart (by omega) (by omega)

end Grown

/-! ## The fill in place -/

/-- A chain whose headers keep their bytes stays linked. -/
theorem Ctz.Descends.rewrite {d d' : Device} {index : ℕ} {blocks : List ℕ}
    (h : Ctz.Descends d index blocks) (hlen : blocks.length ≤ index + 1)
    (hsame : ∀ k b, blocks[k]? = some b → ∀ p < 4 * Ctz.skipPointersInBlock (index - k),
      (d'.get b).bytes.getD p 0xFF = (d.get b).bytes.getD p 0xFF) :
    Ctz.Descends d' index blocks := by
  induction blocks generalizing index with
  | nil => exact True.intro
  | cons block rest ih =>
      rw [List.length_cons] at hlen
      refine ⟨h.1.congr (by omega) (hsame 0 block rfl), ?_⟩
      cases rest with
      | nil => exact True.intro
      | cons c rest =>
          rw [List.length_cons] at hlen
          refine ih h.2 (by rw [List.length_cons]; omega) fun k b hb p hp => ?_
          refine hsame (k + 1) b hb p ?_
          rwa [show index - (k + 1) = index - 1 - k by omega]

/-- A write to one block behind its header. -/
structure FillsBehind (g : Geometry) (head size : ℕ) (s s' : Fs) : Prop where
  only : WritesOnly head s s'
  header : ∀ p < 4 * Ctz.skipPointersInBlock (Ctz.blockCount size g.blockSize - 1),
    (s'.device.get head).bytes.getD p 0xFF = (s.device.get head).bytes.getD p 0xFF

section Fill

variable {head size newSize newHead : ℕ} {old upper news : List ℕ} {s s' : Fs}

/-- A chain that has the block in its place only stays linked through the write. -/
theorem FillsBehind.upperChain (h : FillsBehind g head size s s')
    (hchain : UpperChain g s.device (some (newHead, newSize)) (news.reverse ++ upper))
    (htop : OnTop g size newSize head upper news) (hsize : 0 < Ctz.blockCount size g.blockSize) :
    UpperChain g s'.device (some (newHead, newSize)) (news.reverse ++ upper) := by
  refine ⟨hchain.nodup, hchain.tracked, ?_⟩
  rcases hchain.linked with hnil | ⟨t, n, rest, hsome, hcons, hlen, hlinks⟩
  · exact .inl hnil
  cases hsome
  refine .inr ⟨newHead, newSize, rest, rfl, hcons, hlen, hlinks.rewrite (by omega) ?_⟩
  intro k b hb p hp
  by_cases hne : b = head
  · subst hne
    -- the old tail lies right below the new blocks
    have hk : k = news.length := by
      have hright : news.reverse.length ≤ k := by
        by_contra hlt
        rw [List.getElem?_append_left (Nat.lt_of_not_le hlt)] at hb
        exact htop.tail hsize (List.mem_reverse.1 (List.mem_of_getElem? hb))
      rw [List.getElem?_append_right hright] at hb
      have hnodup := (List.nodup_append.1 hchain.nodup).2.1
      have hpos : 0 < upper.length := List.length_pos_of_mem (List.mem_of_getElem? hb)
      have hfirst : upper[0]? = some b := by
        rw [List.getElem?_eq_getElem hpos, htop.head _ (List.getElem?_eq_getElem hpos)]
      have hzero : 0 = k - news.reverse.length :=
        (List.getElem?_inj hpos hnodup).1 (hfirst.trans hb.symm)
      rw [List.length_reverse] at hright hzero
      omega
    rw [hk, htop.count] at hp
    exact h.header p (by rwa [show Ctz.blockCount size g.blockSize + news.length - 1 - news.length =
      Ctz.blockCount size g.blockSize - 1 by omega] at hp)
  · rw [h.only.other b hne]

/-- The old chain, as one with no new blocks on it. -/
theorem Beside.onTop (h : Beside g head size old s) : OnTop g size size head old [] := by
  obtain ⟨-, hlen, hhead⟩ := h.chained.descends size head fun t n ht => by
    cases ht
    exact ⟨rfl, rfl⟩
  exact ⟨rfl, hlen, hhead, fun _ => List.not_mem_nil⟩

/-- The fill in place keeps both chains. -/
theorem FillsBehind.growing (h : FillsBehind g head size s s')
    (hs : Growing g head size old (some (newHead, newSize)) (news.reverse ++ upper) s)
    (htop : OnTop g size newSize head upper news) (hsize : 0 < Ctz.blockCount size g.blockSize) :
    Growing g head size old (some (newHead, newSize)) (news.reverse ++ upper) s' := by
  have hu : s'.unpublished = s.unpublished := h.only.unpublished
  have hold : UpperChain g s'.device (some (head, size)) ([].reverse ++ old) :=
    h.upperChain hs.beside.chained hs.beside.onTop hsize
  refine ⟨⟨fun b hb used hused => ?_, ?_, h.upperChain hs.shielded.chained htop hsize, ?_⟩,
    ⟨hold, ?_⟩, ?_⟩
  · rw [h.only.usedCache] at hused
    rw [hu] at hb
    exact hs.shielded.cached b hb used hused
  · rw [hu]
    exact hs.shielded.found
  · rw [hu]
    exact hs.shielded.held
  · rw [hu]
    exact hs.beside.held
  · rw [hu]
    exact hs.exposed

theorem guarded_fillTail {tail : ℕ} {fill : Option (ℕ × List Byte)}
    (hdeferred : Deferred g head size tail fill) (htop : OnTop g size newSize tail upper news) :
    Guarded g (Growing g head size old (some (newHead, newSize)) (news.reverse ++ upper))
      (fillTail head fill)
      (fun _ => Growing g head size old (some (newHead, newSize)) (news.reverse ++ upper))
      (Carries g head size old) := by
  cases fill with
  | none => exact Triple.pure fun _ h => h
  | some p =>
      obtain ⟨off, data⟩ := p
      obtain ⟨rfl, hsize, hoff⟩ := hdeferred off data rfl
      refine Triple.bind (R := fun _ => Growing g tail size old (some (newHead, newSize))
        (news.reverse ++ upper)) ?_ fun report =>
          Triple.ite (fun _ => Triple.pure fun _ h => h) fun _ => Triple.fail fun _ h => h.carries
      refine (triple_programBytes off data (fun _ _ => True.intro) fun _ _ => True.intro).weaken ?_
      rintro report s' ⟨s, hs, hw, hcontent, -⟩
      refine FillsBehind.growing ⟨hw, fun p hp => ?_⟩ hs htop hsize
      rcases hcontent with hsame | ⟨n, htorn⟩
      · rw [hsame]
      · rw [htorn]
        exact getD_programAt (Nat.lt_of_lt_of_le hp hoff)

/-! ## The whole extension -/

/-- The grown chain is what the operation holds from then on. -/
theorem Growing.holding (h : Growing g head size old (some (newHead, newSize)) upper s) :
    Holding g newHead newSize
      { s with unpublished := ⟨s.unpublished.blocks.filter (· ∉ s.unpublished.exposed), [],
        some (newHead, newSize)⟩ } := by
  have hmem : ∀ b, b ∈ s.unpublished.blocks.filter (· ∉ s.unpublished.exposed) ↔
      b ∈ s.unpublished.blocks ∧ b ∉ s.unpublished.exposed := by
    simp [List.mem_filter]
  refine ⟨rfl, upper, fun b hb => ?_, fun b hb => ?_, h.shielded.chained, fun b hb => ?_⟩
  · exact h.shielded.cached b ((hmem b).1 hb).1
  · obtain ⟨hheld, hexposed⟩ := (hmem b).1 hb
    rcases h.shielded.found b hheld with hk | hu | he
    · exact .inl hk
    · exact .inr (.inl hu)
    · exact absurd he hexposed
  · exact (hmem b).2 ⟨h.shielded.held b hb, fun he => (h.exposed b he).2 hb⟩

/-- A chain in flight is one that grows out of itself. -/
theorem Shielded.growing (h : Shielded g [] (some (head, size)) upper s)
    (hexposed : s.unpublished.exposed = []) :
    Growing g head size upper (some (head, size)) upper s := by
  refine ⟨h, ⟨h.chained, h.held⟩, ?_⟩
  rw [hexposed]
  exact fun b hb => (by cases hb)

/-- `stream_ctz_extend` goes from one chain in flight to another, or leaves the old one. -/
theorem guarded_streamCtzExtend (hB : 128 ≤ g.blockSize) (data : List Byte) :
    Guarded g (fun s => Shielded g [] (some (head, size)) upper s ∧ s.unpublished.exposed = [])
      (streamCtzExtend g head size data) (fun r => Holding g r.1 r.2)
      (Carries g head size upper) := by
  refine Triple.strengthen (P := fun s => Growing g head size upper (some (head, size)) upper s ∧
    s.unpublished.exposed = []) ?_ fun s hs => ⟨hs.1.growing hs.2, hs.2⟩
  rw [streamCtzExtend]
  refine Triple.ite (fun _ => Triple.fail fun _ h => h.1.carries) fun _ =>
    Triple.ite (fun _ => Triple.fail fun _ h => h.1.carries) fun hmax => ?_
  have hrange : Ctz.SizeInRange g.blockSize (size + data.length) :=
    Ctz.sizeInRange_of_blockCount hB (Nat.le_trans (Nat.le_of_not_lt hmax) (by decide))
  have hold := Ctz.sizeInRange_of_le hrange (Nat.le_add_right size data.length)
  refine Triple.bind (R := fun h s => (Growing g head size upper (some (head, size)) upper s ∧
    s.unpublished.exposed = []) ∧ (0 < Ctz.blockCount size g.blockSize → head < g.blockCount))
    (Triple.lift (fun s a hs ha => ⟨hs, fun hpos => ?_⟩) fun _ _ hs _ => hs.1.carries) fun _ =>
      Triple.pre fun hhead => ?_
  · rw [if_pos hpos] at ha
    exact (Ctz.requireInBounds_eq_ok.1 ha).1
  refine Triple.seq (R := fun s => Growing g head size upper (some (head, size)) upper s ∧
    s.unpublished.exposed = []) ?_ ?_
  · exact Triple.get_bind fun s hs => Triple.note fun s' h' _ => ⟨True.intro, h' ▸ hs⟩
  refine Triple.bind ((guarded_planTail data).result fun s plan hplan =>
    Yields.of_result (yields_planTail hB hold hhead) hplan) fun plan => ?_
  obtain ⟨tail, deferred, consumed⟩ := plan
  refine Triple.pre fun hfills => Triple.pre fun hdeferred => Triple.exists_pre fun upper' => ?_
  have hnone : data.drop consumed = [] →
      Ctz.blockCount (size + data.length) g.blockSize = Ctz.blockCount size g.blockSize := by
    intro hempty
    have hall : data.length ≤ consumed := List.drop_eq_nil_iff.1 hempty
    refine Nat.le_antisymm ((Ctz.blockCount_le_iff hB hrange).2 ?_)
      (Ctz.blockCount_mono hB hrange (Nat.le_add_right _ _))
    exact Nat.le_trans (Nat.add_le_add_left hall size) hfills.room
  have hsome : data.drop consumed ≠ [] →
      Ctz.blockCount size g.blockSize < Ctz.blockCount (size + data.length) g.blockSize := by
    intro hmore
    have hless : consumed < data.length := by
      by_contra hge
      exact hmore (List.drop_eq_nil_of_le (Nat.le_of_not_lt hge))
    have hfull := hfills.full hless
    by_contra hle
    have hcover := (Ctz.blockCount_le_iff hB hrange).1 (Nat.le_of_not_lt hle)
    exact absurd (Nat.le_trans hcover (Nat.le_of_eq hfull.symm)) (by simp only; omega)
  refine Triple.bind (guarded_appendBlocks hnone hsome) fun newHead => Triple.exists_pre fun news =>
    Triple.pre fun htop => ?_
  refine Triple.seq (guarded_fillTail hdeferred htop) ?_
  exact Triple.seq (R := Holding g newHead (size + data.length))
    (Triple.modify fun s hs => hs.holding) (Triple.pure fun _ h => h)

end Fill

end LittlefsPure
