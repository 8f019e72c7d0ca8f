import LittlefsPure.Scan.Plain

/-!
# When the single-buffer scan succeeds

`scan_used_with_single_buf` has one block buffer and cannot tell which half of a pair is the
active one.  It follows every tag of both halves, those that a later tag deleted or superseded
included, so its outcome depends on what the blocks hold now that the filesystem has given up.

`RawSound` says what the references have to be like for the scan to succeed.  On a filesystem
in use they need not be like that: a chain that was given up may lead out of the device once
its blocks hold something else, and forty rewrites of one file leave more chain structs in a
pair than the scan has room for.  The plain scan succeeds on both.

## Which references count

A reference that nothing looks at does no harm.  The search passes over a pair when both its
blocks are marked already, by the pairs visited before it or by their chains, and it then never
sees what the pair names.  This happens on healthy filesystems: a removed directory leaves a
tag that names its pair, the two blocks are used again for a file, and the file's chain is
marked before the old pair has its turn.  So the references that count are those of the pairs
that the search comes to, in its order, and that order is what `Alloc.ComesTo` describes: the
search through the references of the device, with no limit and no check.

## How the two scans are compared

The condition is a property of the device before the scan and nothing else.  It is necessary as
well as sufficient, so the single-buffer scan fails beside a plain scan that succeeds exactly
where some reference on that way is unsound, or where there are too many of them.
-/

namespace LittlefsPure

open Logic

/-! ## The raw references of a pair -/

/-- The pair a raw tag names: a directory struct's child, or a tail that is not the end. -/
def TagEntry.rawChild (t : TagEntry) : Option BlockPair :=
  match t.tagType with
  | .dirStruct => if t.body.length = 8 then some t.body.pair else none
  | .hardTail | .softTail =>
      if t.body.length = 8 ∧ t.body.pair.isNull = false then some t.body.pair else none
  | _ => none

/-- The chain a raw tag names. -/
def TagEntry.rawChain (t : TagEntry) : Option (ℕ × ℕ) :=
  match t.tagType with
  | .ctzStruct => if t.body.length = 8 then some (t.body.word 0, t.body.word 1) else none
  | _ => none

/-- The tags of both halves. -/
def Device.rawTags (g : Geometry) (d : Device) (p : BlockPair) : List TagEntry :=
  match d.readers g p with
  | .ok (a, b) => a.tags ++ b.tags
  | .error _ => []

/-- The pairs that the two halves of a pair name. -/
def rawRefs (g : Geometry) (d : Device) (p : BlockPair) : List BlockPair :=
  (d.rawTags g p).filterMap TagEntry.rawChild

/-- The chains that the two halves of a pair name. -/
def rawChains (g : Geometry) (d : Device) (p : BlockPair) : List (ℕ × ℕ) :=
  (d.rawTags g p).filterMap TagEntry.rawChain

/-- The blocks that the two halves of a pair name, and the halves. -/
def RawOwns (g : Geometry) (d : Device) (p : BlockPair) (b : ℕ) : Prop :=
  p.Holds b ∨ ∃ c ∈ rawChains g d p, Ctz.InChain g d c b

/-- The pairs reached through the tags of both halves. -/
def RawReaches (g : Geometry) (d : Device) (root p : BlockPair) : Prop :=
  Relation.ReflTransGen (fun p c => c ∈ rawRefs g d p) root p

/-- A chain that leads through blocks of the device that the bitmap tracks. -/
def Ctz.Walks (g : Geometry) (d : Device) (chain : ℕ × ℕ) : Prop :=
  ∃ blocks, Ctz.chainBlocks g d chain.1 chain.2 = .ok blocks ∧ ∀ b ∈ blocks, b < maxTrackedBlocks

/-- What the references of one pair have to be. -/
structure SoundRefs (g : Geometry) (d : Device) (p : BlockPair) : Prop where
  halves : ∀ b, p.Holds b → b < d.blocks.length ∧ b < maxTrackedBlocks
  bounds : ∀ c ∈ rawRefs g d p, g.pairInBounds c = true
  few : (rawChains g d p).length ≤ maxQueuedPairs
  walks : ∀ c ∈ rawChains g d p, Ctz.Walks g d c

/-- The blocks that a visit of a pair marks. -/
def rawMarks (g : Geometry) (d : Device) (p : BlockPair) : List ℕ :=
  p.a :: p.b ::
    (rawChains g d p).flatMap fun c => (Ctz.chainBlocks g d c.1 c.2).toOption.getD []

theorem mem_rawMarks {g : Geometry} {d : Device} {p : BlockPair} {b : ℕ} :
    b ∈ rawMarks g d p ↔ RawOwns g d p b := by
  have hchain : ∀ c : ℕ × ℕ, b ∈ (Ctz.chainBlocks g d c.1 c.2).toOption.getD [] ↔
      Ctz.InChain g d c b := fun c => by
    rw [Ctz.InChain]
    cases Ctz.chainBlocks g d c.1 c.2 with
    | error e => simp [Except.toOption]
    | ok blocks => simp [Except.toOption]
  simp only [rawMarks, List.mem_cons, List.mem_flatMap, hchain, RawOwns, BlockPair.Holds, or_assoc]

/-- The pairs that the search through raw tags visits, and those that wait. -/
abbrev RawComesTo (g : Geometry) (d : Device) (root : BlockPair) :
    List BlockPair → List BlockPair → Prop :=
  Alloc.ComesTo (rawRefs g d) (rawMarks g d) root

/-- What the references have to be: those of each pair that the search comes to are sound, and
it comes to no more pairs than the queue holds. -/
structure RawSound (g : Geometry) (d : Device) (root : BlockPair) : Prop where
  sound : ∀ done p waiting, RawComesTo g d root done (p :: waiting) → SoundRefs g d p
  room : ∀ done waiting, RawComesTo g d root done waiting →
    (done ++ waiting).length ≤ maxQueuedPairs

/-! ## The order of the halves -/

section Order

variable {g : Geometry} {d : Device} {root p q : BlockPair}

theorem rawTags_swap (g : Geometry) (d : Device) (p : BlockPair) :
    (d.rawTags g p.swap).Perm (d.rawTags g p) := by
  simp only [Device.rawTags, Device.readers, BlockPair.swap, bind, Except.bind]
  cases d.read p.a with
  | error e => cases d.read p.b <;> exact .refl _
  | ok a =>
      cases d.read p.b with
      | error e => exact .refl _
      | ok b => exact List.perm_append_comm

theorem rawTags_same (h : q.isSamePair p = true) : (d.rawTags g q).Perm (d.rawTags g p) := by
  rcases BlockPair.isSamePair_iff.1 h with rfl | rfl
  · exact .refl _
  · exact rawTags_swap g d p

theorem rawRefs_same (h : q.isSamePair p = true) : (rawRefs g d q).Perm (rawRefs g d p) :=
  (rawTags_same h).filterMap _

theorem rawChains_same (h : q.isSamePair p = true) : (rawChains g d q).Perm (rawChains g d p) :=
  (rawTags_same h).filterMap _

/-- Both halves are followed, so their order does not matter. -/
theorem raw_unordered :
    Alloc.Unordered (fun p c => c ∈ rawRefs g d p) (RawOwns g d) root := by
  intro p q _ _ hsame
  refine ⟨fun c hc => (rawRefs_same hsame).mem_iff.2 hc, fun b hb => ?_⟩
  refine hb.imp (BlockPair.holds_congr hsame b).2 ?_
  rintro ⟨c, hc, hchain⟩
  exact ⟨c, (rawChains_same hsame).mem_iff.2 hc, hchain⟩

end Order

/-! ## One visit -/

namespace Alloc

variable {g : Geometry} {d : Device} {p : BlockPair} {used used' : Bitmap}
  {ts us : List TagEntry} {children children' : List BlockPair} {chains chains' : List (ℕ × ℕ)}

/-- One raw tag: a pair to collect, a chain to keep, or neither. -/
theorem collectRawTags_cons (t : TagEntry) :
    collectRawTags g used (t :: ts) children chains =
      match t.rawChild, t.rawChain with
      | some c, _ => do
          let children ← collectChild g used children c
          collectRawTags g used ts children chains
      | none, some c =>
          if maxQueuedPairs ≤ chains.length then .error .outOfRange
          else collectRawTags g used ts children (chains ++ [c])
      | none, none => collectRawTags g used ts children chains := by
  rw [collectRawTags]
  cases htype : t.tagType <;> simp only [TagEntry.rawChild, TagEntry.rawChain, htype] <;>
    split_ifs <;> rfl

theorem rawChain_of_rawChild {t : TagEntry} {c : BlockPair} (h : t.rawChild = some c) :
    t.rawChain = none := by
  unfold TagEntry.rawChild at h
  unfold TagEntry.rawChain
  cases htype : t.tagType <;> simp_all

theorem collectRawTags_append :
    collectRawTags g used (ts ++ us) children chains =
      (collectRawTags g used ts children chains).bind fun r =>
        collectRawTags g used us r.1 r.2 := by
  induction ts generalizing children chains with
  | nil => rfl
  | cons t ts ih =>
      rw [List.cons_append, collectRawTags_cons, collectRawTags_cons]
      cases t.rawChild with
      | some c =>
          simp only [bind, Except.bind]
          cases collectChild g used children c with
          | error e => rfl
          | ok children₁ => exact ih
      | none =>
          cases t.rawChain with
          | some c =>
              simp only
              split_ifs
              · rfl
              · exact ih
          | none => exact ih

theorem collectRawTags_eq_ok (h : collectRawTags g used ts children chains =
    .ok (children', chains')) :
    Collected g used used children children' (ts.filterMap TagEntry.rawChild) ∧
      chains' = chains ++ ts.filterMap TagEntry.rawChain ∧
      (chains.length ≤ maxQueuedPairs → chains'.length ≤ maxQueuedPairs) := by
  induction ts generalizing children chains with
  | nil =>
      cases h
      exact ⟨.refl (Bitmap.Le.refl _), by simp, id⟩
  | cons t ts ih =>
      rw [collectRawTags_cons] at h
      cases hchild : t.rawChild with
      | some c =>
          have hchain := rawChain_of_rawChild hchild
          simp only [hchild] at h
          obtain ⟨children₁, hcollect, h⟩ := bind_eq_ok.1 h
          obtain ⟨hcollected, hchains, hfew⟩ := ih h
          refine ⟨?_, by simp [hchains, hchain], hfew⟩
          rw [List.filterMap_cons_some hchild]
          exact (collectChild_collected hcollect).trans hcollected
      | none =>
          rw [List.filterMap_cons_none hchild]
          cases hchain : t.rawChain with
          | some c =>
              simp only [hchild, hchain] at h
              split_ifs at h with hfull
              obtain ⟨hcollected, hchains, hfew⟩ := ih h
              refine ⟨hcollected, by simp [hchains, hchain], fun _ => hfew ?_⟩
              rw [List.length_append, List.length_singleton]
              omega
          | none =>
              simp only [hchild, hchain] at h
              obtain ⟨hcollected, hchains, hfew⟩ := ih h
              exact ⟨hcollected, by simp [hchains, hchain], hfew⟩

/-- The pairs are collected in the order of their tags. -/
theorem collectRawTags_offers
    (h : collectRawTags g used ts children chains = .ok (children', chains')) :
    children' = (uncovered used.marked (ts.filterMap TagEntry.rawChild)).foldl offer children := by
  induction ts generalizing children chains with
  | nil =>
      cases h
      rfl
  | cons t ts ih =>
      rw [collectRawTags_cons] at h
      cases hchild : t.rawChild with
      | some c =>
          simp only [hchild] at h
          obtain ⟨children₁, hcollect, h⟩ := bind_eq_ok.1 h
          rw [ih h, List.filterMap_cons_some hchild]
          by_cases hcovers : used.Covers c
          · obtain ⟨rfl, -⟩ | ⟨-, hnot, -⟩ := (collectChild_eq_ok hcollect).2
            · rw [uncovered, uncovered, List.filter_cons_of_neg (by simpa using hcovers)]
            · exact absurd hcovers hnot
          · rw [uncovered, uncovered, List.filter_cons_of_pos (by simpa using hcovers),
              List.foldl_cons, offer]
            obtain ⟨rfl, hold⟩ | ⟨rfl, -, hnew⟩ := (collectChild_eq_ok hcollect).2
            · rw [if_pos (hold.resolve_left hcovers)]
            · rw [if_neg (by simp [hnew])]
      | none =>
          rw [List.filterMap_cons_none hchild]
          cases hchain : t.rawChain with
          | some c =>
              simp only [hchild, hchain] at h
              split_ifs at h
              exact ih h
          | none =>
              simp only [hchild, hchain] at h
              exact ih h

/-- Tags whose pairs are in the device are collected, when the chains fit and the pairs that
are not covered do. -/
theorem exists_collectRawTags
    (hbounds : ∀ c ∈ ts.filterMap TagEntry.rawChild, g.pairInBounds c = true)
    (hfew : (chains ++ ts.filterMap TagEntry.rawChain).length ≤ maxQueuedPairs)
    (hroom : ((uncovered used.marked (ts.filterMap TagEntry.rawChild)).foldl offer
      children).length ≤ maxQueuedPairs) :
    ∃ r, collectRawTags g used ts children chains = .ok r := by
  induction ts generalizing children chains with
  | nil => exact ⟨_, rfl⟩
  | cons t ts ih =>
      rw [collectRawTags_cons]
      cases hchild : t.rawChild with
      | some c =>
          have hchain := rawChain_of_rawChild hchild
          rw [List.filterMap_cons_some hchild] at hbounds hroom
          rw [List.filterMap_cons_none hchain] at hfew
          rw [List.forall_mem_cons] at hbounds
          obtain ⟨children₁, hcollect⟩ : ∃ r, collectChild g used children c = .ok r := by
            refine exists_collectChild hbounds.1 fun hcovers hnew => ?_
            rw [uncovered, List.filter_cons_of_pos (by simpa using hcovers), List.foldl_cons]
              at hroom
            have hlen := length_le_foldl_offer.trans hroom
            rw [offer, if_neg (by simp [hnew]), List.length_append, List.length_singleton] at hlen
            omega
          simp only [bind, Except.bind, hcollect]
          refine ih hbounds.2 hfew ?_
          have hone : collectRawTags g used [t] children chains = .ok (children₁, chains) := by
            rw [collectRawTags_cons, hchild]
            simp only [bind, Except.bind, hcollect]
            rfl
          have hoffers := collectRawTags_offers hone
          rw [List.filterMap_cons_some hchild, List.filterMap_nil] at hoffers
          rwa [hoffers, ← List.foldl_append, uncovered, uncovered, ← List.filter_append]
      | none =>
          rw [List.filterMap_cons_none hchild] at hbounds hroom
          cases hchain : t.rawChain with
          | some c =>
              rw [List.filterMap_cons_some hchain] at hfew
              simp only
              rw [if_neg (by simp at hfew; omega)]
              exact ih hbounds (by simpa using hfew) hroom
          | none =>
              rw [List.filterMap_cons_none hchain] at hfew
              exact ih hbounds hfew hroom

theorem markChains_eq_ok (h : markChains g d chains used = .ok used') :
    used.Le used' ∧ (∀ c ∈ chains, Ctz.Walks g d c) ∧
      ∀ b, b ∈ used'.marked ↔ b ∈ used.marked ∨ ∃ c ∈ chains, Ctz.InChain g d c b := by
  induction chains generalizing used with
  | nil =>
      cases h
      exact ⟨Bitmap.Le.refl _, by simp, by simp⟩
  | cons c rest ih =>
      obtain ⟨used₁, hwalk, h⟩ := bind_eq_ok.1 h
      obtain ⟨blocks, hblocks, hcap, hmarks⟩ := Ctz.walkCtzChain_collects hwalk
      obtain ⟨hle, hwalks, hrest⟩ := ih h
      refine ⟨(Ctz.walkCtzChain_le hwalk).trans hle, ?_, fun b => ?_⟩
      · exact List.forall_mem_cons.2 ⟨⟨blocks, hblocks, hcap⟩, hwalks⟩
      · have hchain : Ctz.InChain g d c b ↔ b ∈ blocks := by
          simp [Ctz.InChain, hblocks]
        rw [hrest, hmarks]
        simp [hchain, or_assoc]

theorem exists_markChains (used : Bitmap) (h : ∀ c ∈ chains, Ctz.Walks g d c) :
    ∃ used', markChains g d chains used = .ok used' := by
  induction chains generalizing used with
  | nil => exact ⟨used, rfl⟩
  | cons c rest ih =>
      obtain ⟨⟨blocks, hblocks, hcap⟩, hrest⟩ := List.forall_mem_cons.1 h
      obtain ⟨used₁, hwalk⟩ := Ctz.exists_walkCtzChain used hblocks hcap
      obtain ⟨used', hused⟩ := ih used₁ hrest
      refine ⟨used', ?_⟩
      rw [markChains, hwalk]
      exact hused

/-- One visit of the single-buffer scan. -/
theorem scanPairRaw_eq_ok (h : scanPairRaw g d p used = .ok (used', children)) :
    SoundRefs g d p ∧
      ∃ used₂ : Bitmap, (∀ x, x ∈ used₂.marked ↔ x ∈ used.marked ∨ p.Holds x) ∧
        Collected g used₂ used' [] children (rawRefs g d p) ∧
        ∀ b, b ∈ used'.marked ↔ b ∈ used.marked ∨ RawOwns g d p b := by
  obtain ⟨used₁, ha, h⟩ := bind_eq_ok.1 h
  obtain ⟨used₂, hb, h⟩ := bind_eq_ok.1 h
  obtain ⟨⟨la, lb⟩, hreaders, h⟩ := bind_eq_ok.1 h
  obtain ⟨⟨children₁, chains₁⟩, hcollect₁, h⟩ := bind_eq_ok.1 h
  obtain ⟨⟨children₂, chains₂⟩, hcollect₂, h⟩ := bind_eq_ok.1 h
  obtain ⟨used₃, hmark, h⟩ := bind_eq_ok.1 h
  cases h
  have hmem := mem_of_halves ha hb
  have htags : d.rawTags g p = la.tags ++ lb.tags := by
    rw [Device.rawTags, hreaders]
  have hcollect : collectRawTags g used₂ (d.rawTags g p) [] [] = .ok (children, chains₂) := by
    rw [htags, collectRawTags_append, hcollect₁]
    exact hcollect₂
  obtain ⟨hcollected, rfl, hfew⟩ := collectRawTags_eq_ok hcollect
  rw [List.nil_append] at hfew hmark
  obtain ⟨hle, hwalks, hmarks⟩ := markChains_eq_ok hmark
  refine ⟨⟨?_, hcollected.bounds, hfew (by simp), hwalks⟩, used₂, hmem, ?_, fun b => ?_⟩
  · obtain ⟨ba, hba, hreaders⟩ := bind_eq_ok.1 hreaders
    obtain ⟨bb, hbb, -⟩ := bind_eq_ok.1 hreaders
    rintro b (rfl | rfl)
    · exact ⟨(Device.read_eq_ok.1 hba).1, Bitmap.lt_of_set ha⟩
    · exact ⟨(Device.read_eq_ok.1 hbb).1, Bitmap.lt_of_set hb⟩
  · have hgrown := hcollected.trans (.refl hle : Collected g used₂ used' children children [])
    rwa [List.append_nil] at hgrown
  · rw [hmarks, hmem, or_assoc]
    rfl

theorem scanPairRaw_visits (g : Geometry) (d : Device) :
    Visits (scanPairRaw g d) (fun p c => c ∈ rawRefs g d p) (RawOwns g d) where
  halves _ _ hx := .inl hx
  marks p used used' children h := by
    obtain ⟨_, _, _, _, hmarks⟩ := scanPairRaw_eq_ok h
    exact hmarks
  sound p used used' children h c hc := by
    obtain ⟨_, _, _, hcollected, _⟩ := scanPairRaw_eq_ok h
    exact ((hcollected.sound c hc).resolve_left List.not_mem_nil).1
  complete p used used' children h := by
    obtain ⟨_, _, _, hcollected, _⟩ := scanPairRaw_eq_ok h
    exact hcollected.complete
  fresh p used used' children h c hc := by
    obtain ⟨_, used₂, hmem, hcollected, _⟩ := scanPairRaw_eq_ok h
    exact exists_fresh hmem ((hcollected.sound c hc).resolve_left List.not_mem_nil).2

/-- The visit collects what the halves name, in the order of their tags. -/
theorem scanPairRaw_collects (g : Geometry) (d : Device) :
    Collects (scanPairRaw g d) (rawRefs g d) := by
  intro p used used' children h
  obtain ⟨used₁, ha, h⟩ := bind_eq_ok.1 h
  obtain ⟨used₂, hb, h⟩ := bind_eq_ok.1 h
  obtain ⟨⟨la, lb⟩, hreaders, h⟩ := bind_eq_ok.1 h
  obtain ⟨⟨children₁, chains₁⟩, hcollect₁, h⟩ := bind_eq_ok.1 h
  obtain ⟨⟨children₂, chains₂⟩, hcollect₂, h⟩ := bind_eq_ok.1 h
  obtain ⟨used₃, -, h⟩ := bind_eq_ok.1 h
  cases h
  have htags : d.rawTags g p = la.tags ++ lb.tags := by
    rw [Device.rawTags, hreaders]
  have hcollect : collectRawTags g used₂ (d.rawTags g p) [] [] = .ok (children, chains₂) := by
    rw [htags, collectRawTags_append, hcollect₁]
    exact hcollect₂
  rw [collectRawTags_offers hcollect]
  refine congrArg (List.foldl offer []) (uncovered_congr fun b => ?_)
  rw [mem_of_halves ha hb]
  simp [BlockPair.Holds]

/-- A pair with sound references can be visited, when the queue has a slot for each of them
that is not covered. -/
theorem exists_scanPairRaw (used : Bitmap) (h : SoundRefs g d p)
    (hroom : ((uncovered (used.marked ++ [p.a, p.b]) (rawRefs g d p)).foldl offer []).length ≤
      maxQueuedPairs) :
    ∃ r, scanPairRaw g d p used = .ok r := by
  obtain ⟨hin, hcapa⟩ := h.halves p.a (.inl rfl)
  obtain ⟨hinb, hcapb⟩ := h.halves p.b (.inr rfl)
  obtain ⟨used₁, ha⟩ := Bitmap.exists_set used hcapa
  obtain ⟨used₂, hb⟩ := Bitmap.exists_set used₁ hcapb
  have hreaders : d.readers g p = .ok ((d.get p.a).reader g, (d.get p.b).reader g) := by
    rw [Device.readers, Device.read_eq_ok.2 ⟨hin, rfl⟩, Device.read_eq_ok.2 ⟨hinb, rfl⟩]
    rfl
  have htags : d.rawTags g p = ((d.get p.a).reader g).tags ++ ((d.get p.b).reader g).tags := by
    rw [Device.rawTags, hreaders]
  have hseen : ∀ b, b ∈ used.marked ++ [p.a, p.b] ↔ b ∈ used₂.marked := fun b => by
    rw [mem_of_halves ha hb]
    simp [BlockPair.Holds]
  rw [uncovered_congr hseen] at hroom
  obtain ⟨⟨children, chains⟩, hcollect⟩ :
      ∃ r, collectRawTags g used₂ (d.rawTags g p) [] [] = .ok r :=
    exists_collectRawTags h.bounds (by rw [List.nil_append]; exact h.few) hroom
  obtain ⟨-, hchains, -⟩ := collectRawTags_eq_ok hcollect
  rw [List.nil_append] at hchains
  obtain ⟨used', hmark⟩ : ∃ used', markChains g d chains used₂ = .ok used' :=
    exists_markChains used₂ (hchains ▸ h.walks)
  rw [htags, collectRawTags_append] at hcollect
  obtain ⟨r, hfirst, hsecond⟩ := bind_eq_ok.1 hcollect
  refine ⟨(used', children), ?_⟩
  rw [scanPairRaw, ha]
  simp only [bind, Except.bind, hb, hreaders, hfirst, hsecond, hmark]
  rfl

end Alloc

/-! ## The scan -/

/-- The single-buffer scan succeeds on sound references and on no others. -/
theorem scanUsedWithSingleBuf_ok_iff (g : Geometry) (d : Device) (root : BlockPair) :
    (∃ used, Alloc.scanUsedWithSingleBuf g d root .empty = .ok used) ↔ RawSound g d root := by
  have hsound : ∀ p used r, Alloc.scanPairRaw g d p used = .ok r → SoundRefs g d p := by
    rintro p used ⟨used', children⟩ h
    exact (Alloc.scanPairRaw_eq_ok h).1
  refine (Alloc.scanLoop_ok_iff (Alloc.scanPairRaw_visits g d) (fun _ _ => mem_rawMarks)
    (Alloc.scanPairRaw_collects g d) hsound fun _ used => Alloc.exists_scanPairRaw used).trans ?_
  exact ⟨fun h => ⟨h.1, h.2⟩, fun h => ⟨h.sound, h.room⟩⟩

/-- On any device, the single-buffer scan does not fail beside a plain scan that succeeds just
where the references that its search comes to are sound. -/
theorem singleBuf_succeeds_with_plain_iff (g : Geometry) (d : Device) (root : BlockPair) :
    ((∃ used, Alloc.scanUsedBlocks g d root .empty = .ok used) →
        ∃ used, Alloc.scanUsedWithSingleBuf g d root .empty = .ok used) ↔
      ((∃ used, Alloc.scanUsedBlocks g d root .empty = .ok used) → RawSound g d root) := by
  rw [scanUsedWithSingleBuf_ok_iff]

/-! ## A block given up and used again

A file of two blocks is removed.  The block that was the head of its chain becomes the content
of another file, and where the chain had its pointer there are bytes of that file now.  The
removal only appended a tag, so the chain struct is still in the log. -/

def reuseGeometry : Geometry := ⟨16, 16, 512, 16, 0⟩

def reuseRun : Run Fs Error Event Unit :=
  performAll reuseGeometry 1
    [.format, .mount, .writeToRoot [0x66] (List.replicate 600 7), .removeFromRoot [0x66], .mount,
      .writeToRoot [0x67] (List.replicate 200 7), .writeToRoot [0x68] (List.replicate 200 7)]
    (Fs.init reuseGeometry (Device.blank 8) [])

theorem reuseRun_corrupt :
    Alloc.scanUsedWithSingleBuf reuseGeometry reuseRun.state.device rootBlockPair .empty =
      .error .corrupt := by decide +kernel

/-- Every call succeeds and so does the plain scan, but the single-buffer scan does not. -/
theorem reuse_fails_scan :
    reuseRun.result = .ok () ∧
      (∃ used, Alloc.scanUsedBlocks reuseGeometry reuseRun.state.device rootBlockPair .empty =
        .ok used) ∧
      Alloc.scanUsedWithSingleBuf reuseGeometry reuseRun.state.device rootBlockPair .empty =
        .error .corrupt :=
  ⟨by decide +kernel, ⟨⟨[3, 2, 1, 0]⟩, by decide +kernel⟩, reuseRun_corrupt⟩

end LittlefsPure
