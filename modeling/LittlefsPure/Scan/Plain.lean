import LittlefsPure.Fs.Run
import LittlefsPure.Replay.Walkers
import LittlefsPure.Scan.Search
import Mathlib.Data.List.Induction

/-!
# What the plain scan marks

A block is in use when it belongs to a pair that the root reaches through live directory
structs and tails, or to the chain that an entry of such a pair names in its latest STRUCT tag.
`scan_used_blocks` asks `gather_live_structs` instead, which passes over an inline struct, so
an entry rewritten from a chain to inline content goes on holding the chain: until a rebuild
drops the old tag, the scan marks the blocks that the rewrite gave up.

`scanUsedBlocks_exact_iff` says when this matters: the marks are the blocks in use exactly when
every block that a superseded pointer still names is in use anyway.

## Why the failing blocks are named

The scan errs on one side only: what it marks without need stays unusable until a rebuild, and
nothing in use is ever left unmarked.  An allocator may live with that, but the statement asks for
equality, and so it asks for which devices the superseded pointers are harmless.  They are when
every block behind one of them is in use by another way, and not otherwise.
-/

namespace LittlefsPure

open Logic

/-! ## The STRUCT tags of an entry -/

/-- What a STRUCT tag points at: a chain, a pair, or nothing. -/
def TagEntry.pointer (t : TagEntry) : LiveStruct :=
  if t.body.length = 8 then
    match t.tagType with
    | .ctzStruct => .ctz (t.body.word 0) (t.body.word 1)
    | .dirStruct => .dir t.body.pair
    | _ => .none
  else .none

/-- All the STRUCT tags of each live entry, oldest first. -/
def gatherStructTags (l : MetadataLog) : Except Error (Roster (List TagEntry)) :=
  walkTags [] (fun _ _ ts => .ok ts) (fun _ t ts => .ok (ts ++ [t])) l.tags 4 (Roster.new [])

/-- What the latest STRUCT tag of an entry points at. -/
def latestPointer (ts : List TagEntry) : LiveStruct :=
  (ts.getLast?.map TagEntry.pointer).getD .none

/-- What `gather_live_structs` has recorded after the STRUCT tags of an entry. -/
def recordedPointer (ts : List TagEntry) : LiveStruct :=
  ts.foldl (fun s t => if t.pointer = .none then s else t.pointer) .none

theorem latestPointer_concat (ts : List TagEntry) (t : TagEntry) :
    latestPointer (ts ++ [t]) = t.pointer := by
  simp [latestPointer]

theorem recordedPointer_concat (ts : List TagEntry) (t : TagEntry) :
    recordedPointer (ts ++ [t]) = if t.pointer = .none then recordedPointer ts else t.pointer := by
  simp [recordedPointer]

/-- A latest tag that points somewhere is what is recorded. -/
theorem recordedPointer_of_latest {ts : List TagEntry} (h : latestPointer ts ≠ .none) :
    recordedPointer ts = latestPointer ts := by
  induction ts using List.reverseRecOn with
  | nil => exact absurd rfl h
  | append_singleton ts t _ =>
      rw [latestPointer_concat] at h
      rw [latestPointer_concat, recordedPointer_concat, if_neg h]

/-- `gather_live_structs` keeps the recorded pointer of each entry. -/
theorem gatherLiveStructs_recorded (l : MetadataLog) :
    gatherLiveStructs l = (gatherStructTags l).map (Roster.map recordedPointer) := by
  have hempty : recordedPointer [] = .none := rfl
  rw [gatherLiveStructs, ← hempty, ← Roster.map_new recordedPointer [], gatherStructTags]
  refine walkTags_commutes recordedPointer (4 + tagsSize l.tags) (fun _ _ _ _ => rfl)
    (fun _ t ts _ => ?_) (Nat.le_refl _)
  rw [Except.map, recordedPointer_concat]
  by_cases hlen : t.body.length = 8
  · cases htype : t.tagType <;> simp [TagEntry.pointer, hlen, htype]
  · simp [TagEntry.pointer, hlen]

/-- The latest STRUCT tag of an entry, as `gather_live_slots` keeps it. -/
def latestStruct (ts : List TagEntry) : Option (TagType × Body) :=
  ts.getLast?.map fun t => (t.tagType, t.body)

theorem gatherLiveSlots_latest (l : MetadataLog) (hl : l.committedEnd ≤ 0xFFFF) :
    (gatherLiveSlots l).map (Roster.map Slot.struct) =
      (gatherStructTags l).map (Roster.map latestStruct) := by
  have hempty : Slot.struct Slot.empty = latestStruct [] := rfl
  rw [← walker_eq hl Slot.struct (fun _ _ s => .ok s) (fun _ t _ => .ok (some (t.tagType, t.body)))
    (fun _ _ _ => rfl) (fun _ _ _ => rfl), hempty, ← Roster.map_new latestStruct [],
      gatherStructTags]
  refine walkTags_commutes latestStruct (4 + tagsSize l.tags) (fun _ _ _ _ => rfl)
    (fun _ t ts _ => ?_) (Nat.le_refl _)
  simp [Except.map, latestStruct]

/-! ## What a pair holds -/

/-- The child pair a live struct names. -/
def LiveStruct.child : LiveStruct → Option BlockPair
  | .dir pair => some pair
  | _ => Option.none

/-- The chain a live struct names, by head and size. -/
def LiveStruct.chain : LiveStruct → Option (ℕ × ℕ)
  | .ctz head size => some (head, size)
  | _ => Option.none

/-- The log of the active half of a pair. -/
def Device.activeLog (g : Geometry) (d : Device) (p : BlockPair) : Except Error MetadataLog := do
  let (a, b) ← d.readers g p
  let parsed ← MetadataPair.parse p a b
  pure parsed.reader

/-- The STRUCT tags of each live entry of a pair. -/
def Device.entryTags (g : Geometry) (d : Device) (p : BlockPair) : List (List TagEntry) :=
  match (d.activeLog g p).bind gatherStructTags with
  | .ok r => r.live
  | .error _ => []

/-- The pair its tail names. -/
def Device.tailPair (g : Geometry) (d : Device) (p : BlockPair) : Option BlockPair :=
  match d.activeLog g p with
  | .ok l => l.tail
  | .error _ => none

/-- A block of the chain with a given head and size. -/
def Ctz.InChain (g : Geometry) (d : Device) (chain : ℕ × ℕ) (b : ℕ) : Prop :=
  ∃ blocks, Ctz.chainBlocks g d chain.1 chain.2 = .ok blocks ∧ b ∈ blocks

section Reach

variable (point : List TagEntry → LiveStruct) (g : Geometry) (d : Device)

/-- The pairs a pair refers to, when its entries point where `point` says. -/
def refs (p : BlockPair) : List BlockPair :=
  (d.entryTags g p).filterMap (fun ts => (point ts).child) ++ (d.tailPair g p).toList

/-- The chains of its entries. -/
def chains (p : BlockPair) : List (ℕ × ℕ) :=
  (d.entryTags g p).filterMap fun ts => (point ts).chain

/-- The blocks a pair owns: its halves, and the blocks of its chains. -/
def Owns (p : BlockPair) (b : ℕ) : Prop :=
  p.Holds b ∨ ∃ c ∈ chains point g d p, Ctz.InChain g d c b

/-- The pairs reached from a root. -/
def Reaches (root p : BlockPair) : Prop :=
  Relation.ReflTransGen (fun p c => c ∈ refs point g d p) root p

/-- The blocks that the pairs reached from a root own. -/
def HeldFrom (root : BlockPair) (b : ℕ) : Prop := ∃ p, Reaches point g d root p ∧ Owns point g d p b

end Reach

/-- The blocks in use: live structs are what the latest STRUCT tags point at. -/
abbrev InUse (g : Geometry) (d : Device) (root : BlockPair) (b : ℕ) : Prop :=
  HeldFrom latestPointer g d root b

/-- The pointers of a pair's entries that a later STRUCT tag has superseded with inline
content and that `gather_live_structs` still records. -/
def superseded (g : Geometry) (d : Device) (p : BlockPair) : List LiveStruct :=
  ((d.entryTags g p).filter fun ts => latestPointer ts = .none).map recordedPointer

/-- The blocks a pointer names. -/
def LiveStruct.Names (g : Geometry) (d : Device) (s : LiveStruct) (b : ℕ) : Prop :=
  (∃ pair, s.child = some pair ∧ pair.Holds b) ∨ ∃ c, s.chain = some c ∧ Ctz.InChain g d c b

/-! ## One visit -/

namespace Alloc

variable {g : Geometry} {d : Device}

/-- The live structs of a pair: their child pairs are collected, their chains marked. -/
theorem markLiveStructs_eq_ok {structs : List LiveStruct} {used used' : Bitmap}
    {children children' : List BlockPair}
    (h : markLiveStructs g d structs used children = .ok (used', children')) :
    Collected g used used' children children' (structs.filterMap LiveStruct.child) ∧
      ∀ b, b ∈ used'.marked ↔
        b ∈ used.marked ∨ ∃ c ∈ structs.filterMap LiveStruct.chain, Ctz.InChain g d c b := by
  induction structs generalizing used children with
  | nil =>
      cases h
      exact ⟨.refl (Bitmap.Le.refl _), by simp⟩
  | cons s rest ih =>
      cases s with
      | none => exact ih h
      | ctz head size =>
          obtain ⟨used₁, hwalk, h⟩ := bind_eq_ok.1 h
          obtain ⟨blocks, hblocks, -, hmarks⟩ := Ctz.walkCtzChain_collects hwalk
          obtain ⟨hcollected, hrest⟩ := ih h
          refine ⟨Collected.trans (.refl (Ctz.walkCtzChain_le hwalk)) hcollected, fun b => ?_⟩
          have hchain : Ctz.InChain g d (head, size) b ↔ b ∈ blocks := by
            simp [Ctz.InChain, hblocks]
          rw [hrest, hmarks]
          simp [LiveStruct.chain, hchain, or_assoc]
      | dir child =>
          obtain ⟨children₁, hcollect, h⟩ := bind_eq_ok.1 h
          obtain ⟨hcollected, hrest⟩ := ih h
          exact ⟨(collectChild_collected hcollect).trans hcollected, hrest⟩

theorem entryTags_eq {p : BlockPair} {l : MetadataLog} {live : Roster LiveStruct}
    (hl : d.activeLog g p = .ok l) (hlive : gatherLiveStructs l = .ok live) :
    live.live = (d.entryTags g p).map recordedPointer := by
  rw [gatherLiveStructs_recorded] at hlive
  obtain ⟨r, hr, rfl⟩ := map_eq_ok.1 hlive
  rw [Device.entryTags, hl]
  simp only [Except.bind, hr]
  exact Roster.live_map ..

/-- The two halves of a pair, marked before anything else. -/
theorem mem_of_halves {p : BlockPair} {used used₁ used₂ : Bitmap} (ha : used.set p.a = .ok used₁)
    (hb : used₁.set p.b = .ok used₂) (x : ℕ) :
    x ∈ used₂.marked ↔ x ∈ used.marked ∨ p.Holds x := by
  rw [Bitmap.mem_of_set hb, Bitmap.mem_of_set ha, or_assoc]
  rfl

/-- A pair that is not covered once the halves of another are marked has a block of its own. -/
theorem exists_fresh {p c : BlockPair} {used used₂ : Bitmap}
    (hmem : ∀ x, x ∈ used₂.marked ↔ x ∈ used.marked ∨ p.Holds x) (h : ¬ used₂.Covers c) :
    ∃ x, c.Holds x ∧ x ∉ used.marked ∧ ¬ p.Holds x := by
  by_contra hcon
  push Not at hcon
  have hset : ∀ x, c.Holds x → used₂.isSet x = true := fun x hx =>
    Bitmap.isSet_iff.2 (.inr ((hmem x).2 (or_iff_not_imp_left.2 (hcon x hx))))
  exact h ⟨hset c.a (.inl rfl), hset c.b (.inr rfl)⟩

/-- One visit of the plain scan. -/
theorem scanPair_eq_ok {p : BlockPair} {used used' : Bitmap} {children : List BlockPair}
    (h : scanPair g d p used = .ok (used', children)) :
    ∃ used₂ : Bitmap, (∀ x, x ∈ used₂.marked ↔ x ∈ used.marked ∨ p.Holds x) ∧
      Collected g used₂ used' [] children (refs recordedPointer g d p) ∧
      ∀ b, b ∈ used'.marked ↔ b ∈ used.marked ∨ Owns recordedPointer g d p b := by
  obtain ⟨used₁, ha, h⟩ := bind_eq_ok.1 h
  obtain ⟨used₂, hb, h⟩ := bind_eq_ok.1 h
  obtain ⟨⟨la, lb⟩, hreaders, h⟩ := bind_eq_ok.1 h
  obtain ⟨parsed, hparsed, h⟩ := bind_eq_ok.1 h
  obtain ⟨live, hlive, h⟩ := bind_eq_ok.1 h
  obtain ⟨⟨used₃, children₃⟩, hmark, h⟩ := bind_eq_ok.1 h
  have hmem := mem_of_halves ha hb
  have hlog : d.activeLog g p = .ok parsed.reader := by
    rw [Device.activeLog, hreaders]
    simp only [bind, Except.bind, hparsed]
    rfl
  obtain ⟨hcollected, hmarks⟩ := markLiveStructs_eq_ok hmark
  have htails : used₃ = used' ∧
      Collected g used' used' children₃ children (d.tailPair g p).toList := by
    rw [Device.tailPair, hlog]
    simp only
    cases hlast : parsed.reader.tail with
    | none =>
        simp only [hlast] at h
        cases h
        exact ⟨rfl, .refl (Bitmap.Le.refl _)⟩
    | some t =>
        simp only [hlast] at h
        obtain ⟨children₄, htail, h⟩ := bind_eq_ok.1 h
        cases h
        exact ⟨rfl, collectChild_collected htail⟩
  obtain ⟨rfl, htails⟩ := htails
  rw [entryTags_eq hlog hlive, List.filterMap_map] at hcollected hmarks
  refine ⟨used₂, hmem, hcollected.trans htails, fun b => ?_⟩
  rw [hmarks, hmem, or_assoc]
  rfl

/-- A visit of the plain scan, as the search sees it. -/
theorem scanPair_visits (g : Geometry) (d : Device) :
    Visits (scanPair g d) (fun p c => c ∈ refs recordedPointer g d p)
      (Owns recordedPointer g d) where
  halves _ _ hx := .inl hx
  marks p used used' children h := by
    obtain ⟨_, _, _, hmarks⟩ := scanPair_eq_ok h
    exact hmarks
  sound p used used' children h c hc := by
    obtain ⟨_, _, hcollected, _⟩ := scanPair_eq_ok h
    exact ((hcollected.sound c hc).resolve_left List.not_mem_nil).1
  complete p used used' children h := by
    obtain ⟨_, _, hcollected, _⟩ := scanPair_eq_ok h
    exact hcollected.complete
  fresh p used used' children h c hc := by
    obtain ⟨used₂, hmem, hcollected, -⟩ := scanPair_eq_ok h
    exact exists_fresh hmem ((hcollected.sound c hc).resolve_left List.not_mem_nil).2

end Alloc

/-! ## The marks of the scan -/

section Exact

variable {g : Geometry} {d : Device} {root p : BlockPair} {b : ℕ}

theorem mem_refs {point : List TagEntry → LiveStruct} {c : BlockPair} :
    c ∈ refs point g d p ↔
      (∃ ts ∈ d.entryTags g p, (point ts).child = some c) ∨ d.tailPair g p = some c := by
  simp [refs]

theorem mem_chains {point : List TagEntry → LiveStruct} {c : ℕ × ℕ} :
    c ∈ chains point g d p ↔ ∃ ts ∈ d.entryTags g p, (point ts).chain = some c := by
  simp [chains]

theorem child_recorded {ts : List TagEntry} {c : BlockPair}
    (h : (latestPointer ts).child = some c) : (recordedPointer ts).child = some c := by
  rwa [recordedPointer_of_latest]
  rintro hnone
  rw [hnone] at h
  cases h

theorem chain_recorded {ts : List TagEntry} {c : ℕ × ℕ}
    (h : (latestPointer ts).chain = some c) : (recordedPointer ts).chain = some c := by
  rwa [recordedPointer_of_latest]
  rintro hnone
  rw [hnone] at h
  cases h

theorem refs_recorded : refs latestPointer g d p ⊆ refs recordedPointer g d p := by
  intro c hc
  rw [mem_refs] at hc ⊢
  exact hc.imp_left fun ⟨ts, hts, h⟩ => ⟨ts, hts, child_recorded h⟩

theorem Reaches.recorded (h : Reaches latestPointer g d root p) :
    Reaches recordedPointer g d root p := by
  induction h with
  | refl => exact .refl
  | tail _ hc ih => exact ih.tail (refs_recorded hc)

theorem Owns.recorded (h : Owns latestPointer g d p b) : Owns recordedPointer g d p b := by
  refine h.imp_right fun ⟨c, hc, hb⟩ => ⟨c, ?_, hb⟩
  obtain ⟨ts, hts, h⟩ := mem_chains.1 hc
  exact mem_chains.2 ⟨ts, hts, chain_recorded h⟩

theorem mem_superseded {s : LiveStruct} :
    s ∈ superseded g d p ↔
      ∃ ts ∈ d.entryTags g p, latestPointer ts = .none ∧ recordedPointer ts = s := by
  simp [superseded, and_assoc]

/-- What a superseded pointer names is held by what the scan walks. -/
theorem heldFrom_of_superseded {s : LiveStruct} (hp : Reaches latestPointer g d root p)
    (hs : s ∈ superseded g d p) (hb : s.Names g d b) : HeldFrom recordedPointer g d root b := by
  obtain ⟨ts, hts, -, rfl⟩ := mem_superseded.1 hs
  rcases hb with ⟨pair, hpair, hb⟩ | ⟨c, hc, hb⟩
  · exact ⟨pair, hp.recorded.tail (mem_refs.2 (.inl ⟨ts, hts, hpair⟩)), .inl hb⟩
  · exact ⟨p, hp.recorded, .inr ⟨c, mem_chains.2 ⟨ts, hts, hc⟩, hb⟩⟩

/-- The scan reaches no other pairs than the live ones, when what the superseded pointers name
is in use anyway. -/
theorem reaches_of_recorded
    (hun : Alloc.Unhidden (fun p c => c ∈ refs recordedPointer g d p) (Owns recordedPointer g d)
      root)
    (hord : Alloc.Unordered (fun p c => c ∈ refs recordedPointer g d p) (Owns recordedPointer g d)
      root)
    (hold : ∀ p, Reaches latestPointer g d root p → ∀ s ∈ superseded g d p, ∀ b, s.Names g d b →
      InUse g d root b)
    (h : Reaches recordedPointer g d root p) :
    ∃ q, Reaches latestPointer g d root q ∧ q.isSamePair p = true := by
  induction h with
  | refl => exact ⟨root, .refl, BlockPair.isSamePair_self root⟩
  | @tail p c hp hc ih =>
      obtain ⟨q, hq, hsame⟩ := ih
      have hqc := (hord p q hp hq.recorded hsame).1 c hc
      rcases mem_refs.1 hqc with ⟨ts, hts, hchild⟩ | htail
      · by_cases hlatest : latestPointer ts = .none
        · -- a superseded child: its own block is in use, so it is a live pair
          obtain ⟨x, hx, -, howned⟩ := hun c (hp.tail hc)
          obtain ⟨q', hq', hown⟩ := hold q hq (recordedPointer ts)
            (mem_superseded.2 ⟨ts, hts, hlatest, rfl⟩) x (.inl ⟨c, hchild, hx⟩)
          exact ⟨q', hq', howned q' hq'.recorded hown.recorded⟩
        · rw [recordedPointer_of_latest hlatest] at hchild
          exact ⟨c, hq.tail (mem_refs.2 (.inl ⟨ts, hts, hchild⟩)), BlockPair.isSamePair_self c⟩
      · exact ⟨c, hq.tail (mem_refs.2 (.inr htail)), BlockPair.isSamePair_self c⟩

end Exact

/-- The plain scan of a filesystem none of whose pairs is hidden behind the blocks of others
marks exactly the blocks in use if and only if every block that a superseded pointer of a live
entry names is in use anyway. -/
theorem scanUsedBlocks_exact_iff (g : Geometry) (d : Device) (root : BlockPair) (used : Bitmap)
    (hun : Alloc.Unhidden (fun p c => c ∈ refs recordedPointer g d p) (Owns recordedPointer g d)
      root)
    (hord : Alloc.Unordered (fun p c => c ∈ refs recordedPointer g d p) (Owns recordedPointer g d)
      root)
    (h : Alloc.scanUsedBlocks g d root .empty = .ok used) :
    (∀ b, b ∈ used.marked ↔ InUse g d root b) ↔
      ∀ p, Reaches latestPointer g d root p → ∀ s ∈ superseded g d p, ∀ b, s.Names g d b →
        InUse g d root b := by
  have hmarks : ∀ b, b ∈ used.marked ↔ HeldFrom recordedPointer g d root b :=
    Alloc.scanLoop_marks (Alloc.scanPair_visits g d) hun hord h
  constructor
  · intro hexact p hp s hs b hb
    exact (hexact b).1 ((hmarks b).2 (heldFrom_of_superseded hp hs hb))
  · intro hold b
    rw [hmarks]
    constructor
    · rintro ⟨p, hp, hown⟩
      obtain ⟨q, hq, hsame⟩ := reaches_of_recorded hun hord hold hp
      rcases (hord p q hp hq.recorded hsame).2 b hown with hhalf | ⟨c, hc, hb⟩
      · exact ⟨q, hq, .inl hhalf⟩
      · obtain ⟨ts, hts, hchain⟩ := mem_chains.1 hc
        by_cases hlatest : latestPointer ts = .none
        · exact hold q hq (recordedPointer ts) (mem_superseded.2 ⟨ts, hts, hlatest, rfl⟩) b
            (.inr ⟨c, hchain, hb⟩)
        · rw [recordedPointer_of_latest hlatest] at hchain
          exact ⟨q, hq, .inr ⟨c, mem_chains.2 ⟨ts, hts, hchain⟩, hb⟩⟩
    · rintro ⟨p, hp, hown⟩
      exact ⟨p, hp.recorded, hown.recorded⟩

/-! ## A file rewritten to inline content

A file of 200 bytes takes one block of content.  Writing one byte to it appends an inline
struct behind the old one, and the block stays marked. -/

def rewriteGeometry : Geometry := ⟨16, 16, 256, 16, 0⟩

def rewriteRun : Run Fs Error Event Unit :=
  performAll rewriteGeometry 1
    [.format, .mount, .writeToRoot [0x66] (List.replicate 200 7), .writeToRoot [0x66] [1]]
    (Fs.init rewriteGeometry (Device.blank 16) [])

def rewriteMarks : Bitmap := ⟨[2, 1, 0]⟩

theorem rewriteRun_scanned :
    Alloc.scanUsedBlocks rewriteGeometry rewriteRun.state.device rootBlockPair .empty =
      .ok rewriteMarks := by decide +kernel

theorem rewriteRun_refs :
    refs recordedPointer rewriteGeometry rewriteRun.state.device rootBlockPair = [] := by
  decide +kernel

theorem rewriteRun_released : ¬ InUse rewriteGeometry rewriteRun.state.device rootBlockPair 2 := by
  rintro ⟨p, hp, hown⟩
  have hroot : p = rootBlockPair :=
    Alloc.reaches_leaf (fun c hc => by simpa [rewriteRun_refs] using refs_recorded hc) hp
  have hchains : chains latestPointer rewriteGeometry rewriteRun.state.device rootBlockPair =
      [] := by
    decide +kernel
  subst hroot
  rcases hown with hhalf | ⟨c, hc, -⟩
  · revert hhalf
    decide
  · rw [hchains] at hc
    cases hc

/-- Every call succeeds, and the scan marks a block that nothing uses. -/
theorem rewrite_keeps_chain :
    rewriteRun.result = .ok () ∧
      Alloc.scanUsedBlocks rewriteGeometry rewriteRun.state.device rootBlockPair .empty =
        .ok rewriteMarks ∧
      2 ∈ rewriteMarks.marked ∧
        ¬ InUse rewriteGeometry rewriteRun.state.device rootBlockPair 2 :=
  ⟨by decide +kernel, rewriteRun_scanned, by decide, rewriteRun_released⟩

theorem scanUsedBlocks_exact_iff_rewrite :
    ¬ ∀ p, Reaches latestPointer rewriteGeometry rewriteRun.state.device rootBlockPair p →
      ∀ s ∈ superseded rewriteGeometry rewriteRun.state.device p, ∀ b,
        s.Names rewriteGeometry rewriteRun.state.device b →
          InUse rewriteGeometry rewriteRun.state.device rootBlockPair b := by
  rw [← scanUsedBlocks_exact_iff rewriteGeometry rewriteRun.state.device rootBlockPair rewriteMarks
    (.leaf (fun c hc => by simp [rewriteRun_refs] at hc) (by decide))
    (.leaf fun c hc => by simp [rewriteRun_refs] at hc) rewriteRun_scanned]
  exact fun h => rewriteRun_released ((h 2).1 (by decide))

end LittlefsPure
