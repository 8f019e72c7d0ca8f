import LittlefsPure.Store.Divide
import LittlefsPure.Store.Walks

/-!
# Replacing a node

A commit replaces one node of a directory at rest: by the same pair under a longer log, by
the same pair with its halves exchanged, or by that pair and the continuations of a split.
Each time the directory is at rest again, and the entries of what replaces the node are those
the operation makes of its entries.

## Why the other nodes do not matter

A commit writes two blocks, or a few fresh ones.  What the other nodes hold is left alone, and a
directory is at rest node by node, so all there is to show is that the new node stands and that the
chain is linked through it.  The tail that the node carries is kept by each of the three ways.
-/

namespace LittlefsPure

open Logic

/-- The node with a dirty window behind its log, as a cut append leaves it. -/
def Node.dirtied (n : Node) : Node := { n with log := { n.log with erased := false } }

/-- The node that `format` makes: its first entry is the superblock. -/
structure Node.Heads (g : Geometry) (n : Node) : Prop where
  first : n.entries.head? = some (superEntry g)
  labelled : n.log.Labelled g

/-- An operation that a commit may carry out on a node. -/
structure Node.Takes (g : Geometry) (n : Node) (op : WriteOp) : Prop where
  addresses : op.Addresses n.entries.length
  names : op.WritesName
  formed : op.WellFormed
  inlineOnly : op.InlineOnly
  spares : n.entries.head? = some (superEntry g) → op.target ≠ some 0

/-- What replaces a node that an operation is carried out on. -/
structure Node.Becomes (g : Geometry) (n : Node) (op : WriteOp) (mid : List Node) : Prop where
  entries : mid.flatMap Node.entries = op.apply n.entries
  head : ∃ first rest, mid = first :: rest ∧ first.pair = n.pair ∧ (n.Heads g → first.Heads g)

section Replace

variable {g : Geometry} {d d' : Device} {root : BlockPair} {pre post mid : List Node} {n : Node}
  {pairs : List BlockPair} {op : WriteOp}

/-- The blocks of the other nodes are none of a node's. -/
theorem AtRest.others (h : AtRest g d root (pre ++ n :: post)) {x : ℕ}
    (hx : x ∈ nodeBlocks (pre ++ post)) : x ∉ n.blocks := by
  have hperm : (nodeBlocks (pre ++ n :: post)).Perm (n.blocks ++ nodeBlocks (pre ++ post)) := by
    simp only [nodeBlocks, List.flatMap_append, List.flatMap_cons]
    exact List.perm_append_comm_assoc ..
  exact fun hmem => List.disjoint_of_nodup_append (hperm.nodup_iff.1 h.apart) hmem hx

/-- The frame rule for a node: the others stay, and what takes its place links up. -/
theorem AtRest.replace (h : AtRest g d root (pre ++ n :: post)) {extra : List ℕ}
    (hlen : d'.blocks.length = d.blocks.length)
    (hothers : ∀ x ∈ nodeBlocks (pre ++ n :: post), x ∉ n.blocks → d'.get x = d.get x)
    (hlinked : Linked (some (n.pair, true)) n.log.tailLink (mid.map fun n => (n.pair, n.log)))
    (hstands : ∀ m ∈ mid, m.Stands g d' ((pre ++ mid ++ post).map Node.pair))
    (hpair : n.pair ∈ mid.map Node.pair) (hblocks : (nodeBlocks mid).Perm (n.blocks ++ extra))
    (hextra : extra.Nodup) (hfresh : ∀ x ∈ extra, x ∉ nodeBlocks (pre ++ n :: post))
    (hshort : (pre ++ mid ++ post).length ≤ maxQueuedPairs) :
    AtRest g d' root (pre ++ mid ++ post) where
  size := hlen.trans h.size
  linked := by
    obtain ⟨hpre, hpost⟩ := h.split_linked
    rw [List.map_append, List.map_append, Linked.append]
    exact ⟨_, Linked.append.2 ⟨_, hpre, hlinked⟩, hpost⟩
  stands := by
    have hsub : ∀ p ∈ (pre ++ n :: post).map Node.pair, p ∈ (pre ++ mid ++ post).map Node.pair := by
      intro p hp
      obtain ⟨m, hm, rfl⟩ := List.mem_map.1 hp
      simp only [List.map_append, List.mem_append]
      rcases List.mem_append.1 hm with hm | hm
      · exact .inl (.inl (List.mem_map_of_mem hm))
      rcases List.mem_cons.1 hm with rfl | hm
      · exact .inl (.inr hpair)
      · exact .inr (List.mem_map_of_mem hm)
    have hother : ∀ m ∈ pre ++ post, m.Stands g d' ((pre ++ mid ++ post).map Node.pair) := by
      intro m hm
      have hold : m ∈ pre ++ n :: post := by
        rcases List.mem_append.1 hm with hm | hm
        · exact List.mem_append_left _ hm
        · exact List.mem_append_right _ (List.mem_cons_of_mem _ hm)
      have hsame : ∀ x, x = m.active ∨ x = m.alternate → d'.get x = d.get x := fun x hx =>
        hothers x (mem_nodeBlocks.2 ⟨m, hold, hx⟩) (h.others (mem_nodeBlocks.2 ⟨m, hm, hx⟩))
      exact ((h.stands m hold).congr (hsame _ (.inl rfl)) (hsame _ (.inr rfl))).mono hsub
    intro m hm
    rcases List.mem_append.1 hm with hm | hm
    · rcases List.mem_append.1 hm with hm | hm
      · exact hother m (List.mem_append_left _ hm)
      · exact hstands m hm
    · exact hother m (List.mem_append_right _ hm)
  apart := by
    have hold : (nodeBlocks (pre ++ n :: post) ++ extra).Nodup :=
      List.nodup_append'.2 ⟨h.apart, hextra, fun x hx hmem => hfresh x hmem hx⟩
    refine (List.Perm.nodup_iff ?_).1 hold
    simp only [nodeBlocks, List.flatMap_append, List.flatMap_cons, List.append_assoc]
    refine List.Perm.append_left _ ?_
    refine List.Perm.trans ?_ (List.Perm.append_right _ hblocks.symm)
    rw [List.append_assoc]
    exact List.Perm.append_left _ List.perm_append_comm
  short := hshort

/-- A node gives way to one of the same pair that leads on to the same node. -/
theorem AtRest.replace_one (h : AtRest g d root (pre ++ n :: post)) {m : Node}
    (hpair : m.pair = n.pair) (hblocks : m.blocks.Perm n.blocks)
    (htail : m.log.tailLink = n.log.tailLink)
    (hstands : m.Stands g d' ((pre ++ n :: post).map Node.pair))
    (hlen : d'.blocks.length = d.blocks.length)
    (hothers : ∀ x, x ∉ n.blocks → d'.get x = d.get x) : AtRest g d' root (pre ++ m :: post) := by
  have hpairs : (pre ++ [m] ++ post).map Node.pair = (pre ++ n :: post).map Node.pair := by
    simp [hpair]
  have hperm : (nodeBlocks [m]).Perm (n.blocks ++ []) := by
    simpa [nodeBlocks] using hblocks
  have hrest : AtRest g d' root (pre ++ [m] ++ post) :=
    h.replace hlen (fun x _ hx => hothers x hx)
      ⟨congrArg (fun p => some (p, true)) hpair.symm, htail⟩
      (List.forall_mem_singleton.2 (hpairs.symm ▸ hstands)) (by simp [hpair]) hperm List.nodup_nil
      nofun (by simpa using h.short)
  rwa [List.append_assoc] at hrest

/-- A node whose log has a dirty window stands as it did. -/
theorem Node.Stands.dirtied (h : n.Stands g d pairs)
    (hactive : d'.get n.active = .log n.dirtied.log)
    (halternate : d'.get n.alternate = d.get n.alternate) : n.dirtied.Stands g d' pairs where
  halves := h.halves
  bounds := h.bounds
  tracked := h.tracked
  stored := hactive
  yields := halternate ▸ h.yields
  commits := h.commits
  carries := ⟨h.carries.placed, h.carries.entries, h.carries.move, h.carries.relocate, rfl⟩
  room := h.room
  gathered := h.gathered
  inline := h.inline
  flat := h.flat
  stale := halternate ▸ h.stale

theorem liveLink_tailLink (l : MetadataLog) : liveLink l.tailLink = l.tailLink := by
  rw [MetadataLog.tailLink_eq, liveLink, liveLink, Option.filter_filter]
  simp

theorem WriteOp.length_apply_le (op : WriteOp) (entries : Entries) :
    (op.apply entries).length ≤ entries.length + if op.opAddsEntry = true then 1 else 0 := by
  have hpart := op.part_length_le entries (Nat.zero_le (op.total entries.length))
  rw [op.part_total] at hpart
  exact hpart

theorem WriteOp.inline_apply {op : WriteOp} (hop : op.InlineOnly) {entries : Entries}
    (hentries : ∀ e ∈ entries, e.Inline) : ∀ e ∈ op.apply entries, e.Inline := by
  rw [← op.part_total]
  exact WriteOp.inline_part hop hentries 0 _

/-- An operation addressed to another entry leaves the first one. -/
theorem WriteOp.head_part {op : WriteOp} {entries : Entries} {e : Entry}
    (hhead : entries.head? = some e) (htarget : op.target ≠ some 0) {hi : ℕ} (hhi : 0 < hi) :
    (op.part entries 0 hi).head? = some e := by
  obtain ⟨hi, rfl⟩ : ∃ m, hi = m + 1 := ⟨hi - 1, by omega⟩
  cases entries with
  | nil => cases hhead
  | cons e' entries =>
      cases hhead
      have hkeep : op.onEntry 0 e = some e := if_neg fun h => htarget h.1
      rw [WriteOp.part, List.zipIdx_cons, List.take_succ_cons, List.drop_zero,
        List.filterMap_cons, hkeep]
      rfl

theorem WriteOp.head_apply {op : WriteOp} {entries : Entries} {e : Entry}
    (hhead : entries.head? = some e) (htarget : op.target ≠ some 0) :
    (op.apply entries).head? = some e := by
  rw [← op.part_total]
  refine WriteOp.head_part hhead htarget ?_
  cases entries with
  | nil => cases hhead
  | cons e' entries =>
      rw [WriteOp.total, List.length_cons]
      omega

/-- An append puts the node under a longer log. -/
theorem Node.Stands.appended (h : n.Stands g d pairs) (hop : n.Takes g op) {slots : Roster Slot}
    (hslots : gatherLiveSlots n.log = .ok slots) (hlim : (Event.append n.log slots op).WithinLimits)
    {l : MetadataLog} (hl : buildAppend g n.log { pair := n.pair, op := op } = .ok l)
    (hactive : d'.get n.active = .log l) (halternate : d'.get n.alternate = d.get n.alternate) :
    Node.Stands g d' pairs { n with log := l, entries := op.apply n.entries } ∧
      l.tailLink = n.log.tailLink := by
  have hcarries := buildAppend_carries (r := { pair := n.pair, op := op }) h.carries h.room
    hop.addresses hop.names ⟨nofun, nofun⟩ hl
  have htail : l.tailLink = n.log.tailLink := hcarries.tail.trans (liveLink_tailLink n.log)
  have hwithin := buildAppend_withinLimits (r := { pair := n.pair, op := op }) hslots hop.formed
    hlim hl
  have hcount : slots.count = n.entries.length := (h.carries.shows hslots).2.count
  have hroom : (op.apply n.entries).length ≤ maxLiveEntries := by
    have hle := op.length_apply_le n.entries
    have hroom := h.room
    have hadds := hlim.1
    split_ifs at hle with hadd
    · have := hadds hadd
      omega
    · omega
  have hcarries' : l.Carries (op.apply n.entries) zeroMove zeroRelocate l.tailLink :=
    ⟨hcarries.placed, hcarries.entries, hcarries.move, hcarries.relocate, rfl⟩
  have hrevision : l.revision = n.log.revision ∧ l.hasCommits = true := by
    obtain ⟨c, fcrc, hc, rfl⟩ := buildAppend_eq_ok hl
    refine ⟨rfl, ?_⟩
    have hcommits := h.commits
    simp only [MetadataLog.hasCommits, Bool.not_eq_true', List.isEmpty_eq_false_iff] at hcommits ⊢
    exact List.append_ne_nil_of_left_ne_nil hcommits _
  refine ⟨⟨h.halves, h.bounds, h.tracked, hactive, ?_, hrevision.2, hcarries', hroom,
    hcarries'.gathered hwithin hroom, WriteOp.inline_apply hop.inlineOnly h.inline,
    buildAppend_flat h.flat hop.inlineOnly hop.names rfl hl, ?_⟩, htail⟩
  · rw [halternate]
    have hyields := h.yields
    unfold Block.Yields Prevails at hyields ⊢
    rw [hrevision.1]
    exact hyields
  · rw [halternate]
    exact h.stale

/-- The view a commit has of a node. -/
def Node.view (n : Node) (slots : Roster Slot) : PairView :=
  ⟨n.pair, n.active, n.alternate, n.log, slots⟩

/-- The rebuild a commit on a node falls back to. -/
abbrev Node.rebuild (n : Node) (slots : Roster Slot) (op : WriteOp) : Rebuild :=
  rebuildOf (n.view slots) n.log { pair := n.pair, op := op }

/-- The rebuild of a node at rest carries no state. -/
theorem Node.Stands.rebuild_state (h : n.Stands g d pairs) (slots : Roster Slot) (op : WriteOp) :
    (n.rebuild slots op).moveState = none ∧ (n.rebuild slots op).relocateState = none :=
  ⟨if_pos h.carries.move, if_pos h.carries.relocate⟩

/-- The rebuild of a node at rest names what its log names. -/
theorem Node.Stands.rebuild_flat (h : n.Stands g d pairs) (hop : n.Takes g op) {slots : Roster Slot}
    (hslots : gatherLiveSlots n.log = .ok slots) : (n.rebuild slots op).Flat pairs where
  slots := ⟨_, hslots⟩
  names := hop.names
  formed := hop.formed
  inlineOnly := hop.inlineOnly
  inline := by
    intro s hs st hst
    obtain ⟨-, hshows⟩ := h.carries.shows hslots
    have hs' : s ∈ n.entries.map Entry.slot := hshows.live ▸ hs
    obtain ⟨e, he, rfl⟩ := List.mem_map.1 hs'
    exact h.inline e he st hst
  tail := by
    intro link hlink
    have htail : n.log.tailLink = some link := (liveLink_tailLink n.log).symm.trans hlink
    obtain ⟨t, ht, hchild⟩ := rawChild_of_tailLink htail
    exact (h.flat t ht).2 _ hchild

/-- A rebuild of a node, of all its entries or of those in front of a cut. -/
structure Node.Rebuilds (g : Geometry) (n : Node) (op : WriteOp) (slots : Roster Slot) (r : Rebuild)
    (hi : ℕ) (l : MetadataLog) : Prop where
  same : (n.rebuild slots op).SameEntries r
  revision : r.newRevision = (n.log.revision + 1) % 2 ^ 32
  stateless : r.moveState = none ∧ r.relocateState = none
  pos : 0 < hi
  le : hi ≤ (n.rebuild slots op).total
  within : (Event.rebuild r.source r.slots r.op 0 hi).WithinLimits
  built : r.build g 0 hi = .ok l

/-- A rebuild puts the node on its other half. -/
theorem Node.Stands.rebuilt (h : n.Stands g d pairs) (hop : n.Takes g op) {slots : Roster Slot}
    (hslots : gatherLiveSlots n.log = .ok slots) {r : Rebuild} {hi : ℕ} {l : MetadataLog}
    (hl : n.Rebuilds g op slots r hi l) (pairs' : List BlockPair) (hpairs : ∀ p ∈ pairs, p ∈ pairs')
    (htail : ∀ link, liveLink r.tail = some link → link.1 ∈ pairs')
    (hactive : d'.get n.active = d.get n.active) (halternate : d'.get n.alternate = .log l) :
    Node.Stands g d' pairs' ⟨n.pair, n.alternate, n.active, l, op.part n.entries 0 hi⟩ ∧
      l.tailLink = liveLink r.tail := by
  obtain ⟨hsource, hrslots, hrop⟩ := hl.same
  have hrslots' : r.slots = slots := hrslots
  have hrop' : r.op = op := hrop
  have hentries : r.slots.entries r.source = n.entries := by
    rw [hrslots', hsource]
    exact h.carries.entries_eq hslots
  have hpart : r.op.part (r.slots.entries r.source) 0 hi = op.part n.entries 0 hi := by
    rw [hrop', hentries]
  have hsized : r.Sized := by
    constructor
    · rw [hl.stateless.1]
      exact nofun
    · rw [hl.stateless.2]
      exact nofun
  have hflat : r.Flat pairs' := (h.rebuild_flat hop hslots).sameEntries hl.same htail
  have hcarries := Rebuild.build_entries (hrslots' ▸ hslots) hflat.names hsized hl.built
  rw [hpart, hl.stateless.1, hl.stateless.2] at hcarries
  have hone := Rebuild.room (hrslots' ▸ hslots) hflat.names hflat.formed hl.within hl.built
  rw [hpart] at hone
  have hlflat := hflat.build hsized hl.within hl.built
  refine ⟨⟨h.halves.symm, h.bounds, fun b hb => h.tracked b ?_, halternate, ?_,
    Rebuild.build_hasCommits hl.built, ⟨hcarries.placed, hcarries.entries, hcarries.move,
      hcarries.relocate, rfl⟩, hone, hlflat.gathered,
    WriteOp.inline_part hop.inlineOnly h.inline 0 hi, hlflat.tags, ?_⟩, hcarries.tail⟩
  · rcases List.mem_pair.1 hb with rfl | rfl
    · exact List.mem_cons_of_mem _ (List.mem_cons_self ..)
    · exact List.mem_cons_self ..
  · refine .inr (prevails_next ?_)
    show l.revision = ((d'.get n.active).reader g).revision.succ % 2 ^ 32
    rw [hactive, h.stored, Rebuild.build_revision hl.built, hl.revision]
    rfl
  · rw [hactive, h.stored]
    exact fun t ht => (h.flat t ht).mono hpairs

theorem forEachLiveAttr_eq_nil {l : MetadataLog} {i : ℕ}
    (h : ∀ a, (forEachLiveAttr l i).lookup a = none) : forEachLiveAttr l i = [] := by
  cases hattrs : forEachLiveAttr l i with
  | nil => rfl
  | cons x xs =>
      have hx := h x.1
      rw [hattrs] at hx
      simp at hx

/-- What takes the place of the first node starts with the superblock again. -/
theorem Node.Rebuilds.labelled (h : n.Stands g d pairs) (hop : n.Takes g op) {slots : Roster Slot}
    (hslots : gatherLiveSlots n.log = .ok slots) {r : Rebuild} {hi : ℕ} {l : MetadataLog}
    (hl : n.Rebuilds g op slots r hi l) (hhead : n.entries.head? = some (superEntry g)) :
    l.Labelled g := by
  obtain ⟨hsource, hrslots, hrop⟩ := hl.same
  have hentries := h.carries.entries_eq hslots
  obtain ⟨rest, hcons⟩ : ∃ rest, n.entries = superEntry g :: rest := by
    cases hn : n.entries with
    | nil =>
        rw [hn] at hhead
        cases hhead
    | cons e rest =>
        rw [hn] at hhead
        cases hhead
        exact ⟨rest, rfl⟩
  have hlive : r.slots.live = (superEntry g).slot :: rest.map Entry.slot := by
    have hs := slots.entries_slot n.log
    rw [hentries, hcons] at hs
    exact hrslots ▸ hs
  refine Rebuild.build_labelled hlive (forEachLiveAttr_eq_nil fun a => ?_) ?_ hl.pos hl.built
  · rw [hsource]
    have hsourced := slots.entries_sourced n.log 0 (superEntry g) (by rw [hentries, hcons]; rfl) a
    exact hsourced
  · rw [hrop]
    exact hop.spares hhead

end Replace

/-! ## Continuations -/

/-- The nodes of the continuations of a split. -/
def contNodes (conts : List (BlockPair × MetadataLog)) (es : List Entries) : List Node :=
  List.zipWith (fun c e => ⟨c.1, c.1.a, c.1.b, c.2, e⟩) conts es

section Continuations

variable {g : Geometry} {d : Device} {conts : List (BlockPair × MetadataLog)} {es : List Entries}

theorem contNodes_chain (h : conts.length = es.length) :
    (contNodes conts es).map (fun n => (n.pair, n.log)) = conts ∧
      (contNodes conts es).flatMap Node.entries = es.flatten ∧
      nodeBlocks (contNodes conts es) = chainBlocks conts := by
  induction conts generalizing es with
  | nil =>
      cases es with
      | nil => exact ⟨rfl, rfl, rfl⟩
      | cons e es => cases h
  | cons c conts ih =>
      cases es with
      | nil => cases h
      | cons e es =>
          obtain ⟨hchain, hentries, hblocks⟩ := ih (Nat.succ.inj h)
          refine ⟨congrArg (c :: ·) hchain, ?_, ?_⟩
          · show e ++ (contNodes conts es).flatMap Node.entries = _
            rw [hentries, List.flatten_cons]
          · show [c.1.a, c.1.b] ++ nodeBlocks (contNodes conts es) = _
            rw [hblocks]
            rfl

theorem mem_contNodes {n : Node} (hn : n ∈ contNodes conts es) :
    ∃ c ∈ conts, ∃ e ∈ es, (c, e) ∈ conts.zip es ∧ n = ⟨c.1, c.1.a, c.1.b, c.2, e⟩ := by
  rw [contNodes, ← List.map_uncurry_zip_eq_zipWith] at hn
  obtain ⟨⟨c, e⟩, hmem, rfl⟩ := List.mem_map.1 hn
  exact ⟨c, (List.of_mem_zip hmem).1, e, (List.of_mem_zip hmem).2, hmem, rfl⟩

/-- A continuation stands as it was written. -/
theorem Dividing.stands {root : BlockPair} {chain : List Node} {d₀ : Device} {r₀ : Rebuild}
    {excluded : List ℕ} {tail : Option TailLink} {stop : ℕ} {s : Fs} {pairs : List BlockPair}
    (h : Dividing g root chain d₀ r₀ excluded tail stop conts es s)
    (hpairs : ∀ p ∈ conts.map Prod.fst ++ chain.map Node.pair, p ∈ pairs)
    (hd : ∀ x ∈ chainBlocks conts, d.get x = s.device.get x) :
    ∀ n ∈ contNodes conts es, n.Stands g d pairs := by
  intro n hn
  obtain ⟨c, hc, e, he, hzip, rfl⟩ := mem_contNodes hn
  have hstanding := h.cutting.standing c hc
  obtain ⟨hcarries, hle⟩ := List.forall₂_iff_zip.1 h.cutting.parts |>.2 hzip
  have hflat := (h.flat c hc).mono hpairs
  have ha : c.1.a ∈ chainBlocks conts := mem_chainBlocks.2 ⟨c, hc, .inl rfl⟩
  have hb : c.1.b ∈ chainBlocks conts := mem_chainBlocks.2 ⟨c, hc, .inr rfl⟩
  refine ⟨.inl ⟨rfl, rfl⟩, hstanding.bounds, fun b hb' => h.tracked b ?_, ?_, ?_,
    hstanding.commits, hcarries, hle, hflat.gathered,
    fun x hx => h.inline x (List.mem_flatten.2 ⟨e, he, hx⟩), hflat.tags, ?_⟩
  · rcases List.mem_pair.1 hb' with rfl | rfl
    · exact ha
    · exact hb
  · exact (hd _ ha).trans hstanding.first
  · rw [hd _ hb, hstanding.second]
    exact Block.erased_yields
  · rw [hd _ hb, hstanding.second]
    rw [Block.erased_tags]
    exact nofun

end Continuations

end LittlefsPure
