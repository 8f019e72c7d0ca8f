import LittlefsPure.Store.Replace

/-!
# A commit on a directory at rest

One commit on a node, on a device without faults and with wear levelling off: the append,
the rebuild on the other half and the split.  A commit that returns leaves the directory at
rest with the node replaced, one that fails leaves it as it was, and whatever a power cut
leaves in between is the directory as it was, at most with a dirty window behind the log.

## Why wear levelling is off

A pair that has been rebuilt often enough is moved, and its parent is told in a second commit.
Between the two the directory is reached by its old address and the new pair is complete; if the
second commit fails the first is not undone.  That is a result of its own, and not one about a
single commit, so the number of cycles is zero here and no pair of a directory at rest ever moves.
-/

namespace LittlefsPure

open FsM Logic

/-- What a power cut in a commit on a node leaves. -/
def Survivor (g : Geometry) (root : BlockPair) (pre : List Node) (n : Node) (post : List Node)
    (d : Device) : Prop :=
  AtRest g d root (pre ++ n :: post) ∨ AtRest g d root (pre ++ n.dirtied :: post)

/-- The directory at rest behind a commit. -/
def Committed (g : Geometry) (root : BlockPair) (pre : List Node) (n : Node) (post : List Node)
    (op : WriteOp) (s : Fs) : Prop :=
  ∃ mid, n.Becomes g op mid ∧ Rested g root (pre ++ mid ++ post) s

section Commit

variable {g : Geometry} {root : BlockPair} {pre post : List Node} {n : Node} {op : WriteOp}
  {d : Device} {s : Fs}

theorem Event.Survives.mono {Good Good' : Device → Prop} (h : ∀ d, Good d → Good' d) {e : Event}
    (he : e.Survives g Good) : e.Survives g Good' := fun d hd => h d (he d hd)

/-- Writing what a block holds changes nothing. -/
theorem AtRest.rewrite {chain : List Node} (h : AtRest g d root chain) {x : ℕ}
    (hx : x < d.blocks.length) : AtRest g (d.write x (d.get x)) root chain := by
  refine h.congr ⟨fun y _ => ?_, Device.length_write ..⟩
  by_cases hxy : x = y
  · rw [← hxy, Device.get_write_self hx]
  · exact Device.get_write_ne d hxy _

theorem Node.mem_blocks (n : Node) : n.active ∈ n.blocks ∧ n.alternate ∈ n.blocks :=
  ⟨List.mem_cons_self .., List.mem_cons_of_mem _ (List.mem_cons_self ..)⟩

/-- A write to a half of a node leaves the blocks of the others. -/
theorem Device.get_write_of_notMem (d : Device) {x : ℕ} {blocks : List ℕ} (hx : x ∈ blocks)
    (b : Block) : ∀ y, y ∉ blocks → (d.write x b).get y = d.get y := fun _ hy =>
  Device.get_write_ne d (by rintro rfl; exact hy hx) b

/-! ## The append -/

/-- What a cut program of an append leaves. -/
theorem AtRest.survives_append (h : AtRest g d root (pre ++ n :: post)) :
    Event.Survives g (Survivor g root pre n post) (.program d n.active) := by
  have hn := AtRest.mem_mid pre n post
  have hstand := h.stands n hn
  have hlt := hstand.active_lt h.size
  rintro d' ⟨b, hcut, rfl⟩
  rcases hcut with rfl | ⟨herased, -⟩ | ⟨l, hl, rfl⟩
  · exact .inl (h.rewrite hlt)
  · rw [hstand.stored] at herased
    cases herased
  · rw [hstand.stored] at hl
    cases hl
    refine .inr (h.replace_one rfl (List.Perm.refl _) rfl (hstand.dirtied
      (Device.get_write_self hlt _) (Device.get_write_ne d (h.node_apart hn) _))
      (Device.length_write ..) (d.get_write_of_notMem n.mem_blocks.1 _))

theorem Node.Becomes.single {m : Node} (hentries : m.entries = op.apply n.entries)
    (hpair : m.pair = n.pair) (hhead : n.Heads g → m.Heads g) : n.Becomes g op [m] where
  entries := by simp [hentries]
  head := ⟨m, [], rfl, hpair, hhead⟩

/-- The directory behind an append. -/
theorem AtRest.append (h : AtRest g d root (pre ++ n :: post)) (hop : n.Takes g op)
    {slots : Roster Slot} (hslots : gatherLiveSlots n.log = .ok slots)
    (hlim : (Event.append n.log slots op).WithinLimits) {l : MetadataLog}
    (hl : buildAppend g n.log { pair := n.pair, op := op } = .ok l) :
    ∃ m, n.Becomes g op [m] ∧ m.blocks = n.blocks ∧
      AtRest g (d.write n.active (.log l)) root (pre ++ m :: post) := by
  have hn := AtRest.mem_mid pre n post
  have hstand := h.stands n hn
  have hlt := hstand.active_lt h.size
  obtain ⟨hstands, htail⟩ := hstand.appended hop hslots hlim hl
    (Device.get_write_self hlt _) (Device.get_write_ne d (h.node_apart hn) _)
  refine ⟨{ n with log := l, entries := op.apply n.entries }, .single rfl rfl fun hhead => ⟨?_, ?_⟩,
    rfl, h.replace_one rfl (List.Perm.refl _) htail hstands (Device.length_write ..)
      (d.get_write_of_notMem n.mem_blocks.1 _)⟩
  · exact WriteOp.head_apply hhead.first (hop.spares hhead.first)
  · exact buildAppend_labelled hhead.labelled (hop.spares hhead.first) hl

theorem Rested.replace_one (h : Rested g root (pre ++ n :: post) s) {m : Node} {d' : Device}
    (hblocks : m.blocks.Perm n.blocks) (hrest : AtRest g d' root (pre ++ m :: post)) :
    Rested g root (pre ++ [m] ++ post) { s with device := d' } where
  calm := h.calm
  from_root := h.from_root
  rest := by
    rw [List.append_assoc]
    exact hrest
  cache used hused x hx := by
    refine h.cache used hused x ?_
    simp only [nodeBlocks, List.flatMap_append, List.flatMap_cons, List.flatMap_nil,
      List.append_nil, List.mem_append, hblocks.mem_iff] at hx ⊢
    tauto

theorem Committed.account {s' : Fs} (h : Committed g root pre n post op s)
    (hframe : s' = { s with unpublished := s'.unpublished }) :
    Committed g root pre n post op s' := by
  obtain ⟨mid, hbecomes, hguarded⟩ := h
  exact ⟨mid, hbecomes, hguarded.account hframe⟩

/-- The append of a commit. -/
theorem triple_tryAppend_calm (hop : n.Takes g op) {slots : Roster Slot}
    (hslots : gatherLiveSlots n.log = .ok slots) :
    Triple Event.WithinLimits (Event.Survives g (Survivor g root pre n post))
      (Rested g root (pre ++ n :: post))
      (tryAppend g (n.view slots) { pair := n.pair, op := op })
      (fun source s => source = none ∧ Committed g root pre n post op s)
      (fun _ s => Rested g root (pre ++ n :: post) s) := by
  refine Triple.bind (R := fun l s => Rested g root (pre ++ n :: post) s ∧
    buildAppend g n.log { pair := n.pair, op := op } = .ok l)
    (Triple.lift (fun s l hs h => ⟨hs, h⟩) fun s e hs _ => hs) fun l => Triple.pre fun hl => ?_
  refine Triple.seq (R := fun s => Rested g root (pre ++ n :: post) s ∧
    (Event.append n.log slots op).WithinLimits)
    (Triple.note fun s hs hK => ⟨fun _ => False.elim, hs, hK⟩) (Triple.pre fun hlim => ?_)
  refine Triple.bind (R := fun report s => Committed g root pre n post op s ∧ report = .verified)
    (Triple.of_run fun s hs => ?_) fun report => Triple.pre ?_
  · have hn := AtRest.mem_mid pre n post
    have hlt := (hs.rest.stands n hn).active_lt hs.rest.size
    obtain ⟨m, hbecomes, hblocks, hrest⟩ := hs.rest.append hop hslots hlim hl
    refine ⟨_, _, _, programBlock_run hs.calm hlt _ _, List.forall_mem_singleton.2
      hs.rest.survives_append, ⟨[m], hbecomes, ?_⟩, rfl⟩
    exact hs.replace_one (hblocks ▸ List.Perm.refl _) hrest
  · rintro rfl
    exact Triple.seq (R := Committed g root pre n post op)
      (Triple.modify fun s hs => Committed.account hs rfl) (Triple.pure fun s hs => ⟨rfl, hs⟩)

/-! ## The other half -/

/-- What a cut leaves while the other half of a node is rewritten. -/
theorem AtRest.survives_alternate (h : AtRest g d root (pre ++ n :: post)) :
    (∀ u, Event.Survives g (AtRest g · root (pre ++ n :: post)) (.erase d n.alternate u)) ∧
      Event.Survives g (AtRest g · root (pre ++ n :: post))
        (.program (d.write n.alternate .erased) n.alternate) := by
  have hn := AtRest.mem_mid pre n post
  have hstand := h.stands n hn
  have hlt := hstand.alternate_lt h.size
  -- another content of the half keeps the directory if it yields and names nothing new
  have hkeep : ∀ b : Block, b.Yields g n.pair n.active n.log →
      (∀ t ∈ (b.reader g).tags, t.Flat ((pre ++ n :: post).map Node.pair)) →
      AtRest g (d.write n.alternate b) root (pre ++ n :: post) := by
    intro b hyields hstale
    refine h.replace_one rfl (List.Perm.refl _) rfl { hstand with
      stored := ?_, yields := ?_, stale := ?_ } (Device.length_write ..)
      (d.get_write_of_notMem n.mem_blocks.2 _)
    · exact (Device.get_write_ne d (h.node_apart hn).symm _).trans hstand.stored
    · rwa [Device.get_write_self hlt]
    · rwa [Device.get_write_self hlt]
  have hnone : (Block.erased.reader g).tags = [] := Block.erased_tags g
  constructor
  · rintro u d' ⟨b, hcut, rfl⟩
    exact hkeep b (hcut.yields hstand.yields) fun t ht => hstand.stale t (hcut.tags t ht)
  · rintro d' ⟨b, hcut, rfl⟩
    rw [Device.get_write_self hlt] at hcut
    rw [Device.write_write]
    rcases hcut with rfl | ⟨-, revision, rfl⟩ | ⟨l, hl, -⟩
    · exact hkeep _ Block.erased_yields (by rw [hnone]; exact nofun)
    · exact hkeep _ (Block.torn_yields revision false) nofun
    · cases hl

/-- The other half is erased and programmed. -/
theorem triple_programAlternate {P : Fs → Prop} {K : Event → Prop} {E : Error → Fs → Prop}
    (hP : ∀ s, P s → Rested g root (pre ++ n :: post) s) (l : MetadataLog) :
    Triple K (Event.Survives g (AtRest g · root (pre ++ n :: post))) P
      (eraseAndProgramLog n.alternate l)
      (fun ok s' => (∃ s, P s ∧ s' = s.put n.alternate (.log l)) ∧ ok = true) E := by
  refine Triple.of_run fun s hs => ?_
  have h := hP s hs
  have hlt := (h.rest.stands n (AtRest.mem_mid pre n post)).alternate_lt h.rest.size
  obtain ⟨herase, hprogram⟩ := h.rest.survives_alternate
  exact ⟨_, _, _, eraseAndProgramLog_run h.calm hlt l, List.forall_mem_cons.2 ⟨herase _,
    List.forall_mem_singleton.2 hprogram⟩, ⟨s, hs, rfl⟩, rfl⟩

/-- The directory behind a rebuild on the other half. -/
theorem AtRest.rebuild (h : AtRest g d root (pre ++ n :: post)) (hop : n.Takes g op)
    {slots : Roster Slot} (hslots : gatherLiveSlots n.log = .ok slots) {r : Rebuild}
    {l : MetadataLog} (hl : n.Rebuilds g op slots r (n.rebuild slots op).total l)
    (htail : r.tail = n.log.tailLink) :
    ∃ m, n.Becomes g op [m] ∧ m.blocks.Perm n.blocks ∧
      AtRest g (d.write n.alternate (.log l)) root (pre ++ m :: post) := by
  have hn := AtRest.mem_mid pre n post
  have hstand := h.stands n hn
  have hlink : liveLink r.tail = n.log.tailLink := by rw [htail, liveLink_tailLink]
  have htotal : op.part n.entries 0 (n.rebuild slots op).total = op.apply n.entries := by
    have hcount : slots.count = n.entries.length := (hstand.carries.shows hslots).2.count
    show op.part n.entries 0 (slots.count + _) = _
    rw [hcount]
    exact op.part_total _
  obtain ⟨hstands, hnext⟩ := hstand.rebuilt hop hslots hl ((pre ++ n :: post).map Node.pair)
    (fun _ => id) (fun link hlink' => (hstand.rebuild_flat hop hslots).tail link (by
      show liveLink n.log.tailLink = _
      rw [liveLink_tailLink, ← hlink, hlink']))
    (Device.get_write_ne d (h.node_apart hn).symm _)
    (Device.get_write_self (hstand.alternate_lt h.size) _)
  refine ⟨⟨n.pair, n.alternate, n.active, l, _⟩, .single htotal rfl fun hhead => ⟨?_, ?_⟩,
    List.Perm.swap .., h.replace_one rfl (List.Perm.swap ..) (hnext.trans hlink) hstands
      (Device.length_write ..)
      (d.get_write_of_notMem n.mem_blocks.2 _)⟩
  · show (op.part n.entries 0 _).head? = _
    rw [htotal]
    exact WriteOp.head_apply hhead.first (hop.spares hhead.first)
  · exact hl.labelled hstand hop hslots hhead.first

/-- A pair whose wear is not levelled stays where it is. -/
theorem triple_relocationTarget_calm (hcycles : g.blockCycles ≤ 0) {P : Fs → Prop}
    {K O : Event → Prop} {E : Error → Fs → Prop} (v : PairView) (newRevision : ℕ)
    (inflight : Inflight) :
    Triple K O P (relocationTarget g v newRevision inflight)
      (fun fresh s => P s ∧ fresh = none) E := by
  refine Triple.get_bind fun s hs => ?_
  have hstay : shouldRelocate v.pairAddr s.root newRevision g.blockCycles = false := by
    unfold shouldRelocate
    split_ifs
    · rfl
    · rfl
  rw [hstay]
  exact Triple.pure fun s' hs' => ⟨hs' ▸ hs, rfl⟩

/-- A rebuild of all entries of a node, under the tail it has. -/
theorem triple_buildRange_node {hi : ℕ} {slots : Roster Slot} {r : Rebuild} {P : Fs → Prop}
    {Good : Device → Prop} {E : Error → Fs → Prop} (hsame : (n.rebuild slots op).SameEntries r)
    (hrevision : r.newRevision = (n.log.revision + 1) % 2 ^ 32)
    (hstate : r.moveState = none ∧ r.relocateState = none) (hpos : 0 < hi)
    (hle : hi ≤ (n.rebuild slots op).total) (hE : ∀ e s, P s → E e s) :
    Triple Event.WithinLimits (Event.Survives g Good) P (buildRange g r 0 hi)
      (fun l s => P s ∧ n.Rebuilds g op slots r hi l) E :=
  (triple_buildRange_within r 0 hi hE).weaken fun _ _ ⟨hs, hl, hlim⟩ =>
    ⟨hs, hsame, hrevision, hstate, hpos, hle, hlim, hl⟩

/-- The whole node is rebuilt on its other half. -/
theorem triple_compactSingle_calm (hcycles : g.blockCycles ≤ 0) (commit : CommitFn)
    (hop : n.Takes g op) {slots : Roster Slot} (hslots : gatherLiveSlots n.log = .ok slots)
    (hpos : 0 < (n.rebuild slots op).total) (inflight : Inflight) :
    Triple Event.WithinLimits (Event.Survives g (Survivor g root pre n post))
      (Rested g root (pre ++ n :: post))
      (compactSingle g commit (n.view slots) (n.rebuild slots op) inflight)
      (fun moved s => Committed g root pre n post op s ∧ moved = none)
      (fun _ s => Rested g root (pre ++ n :: post) s) := by
  refine Triple.get_bind fun s₀ hs₀ => ?_
  have hstand := hs₀.rest.stands n (AtRest.mem_mid pre n post)
  refine Triple.bind (triple_relocationTarget_calm hcycles (n.view slots) _ inflight)
    fun fresh => Triple.pre ?_
  rintro rfl
  obtain ⟨hmove, hrelocate⟩ := hstand.rebuild_state slots op
  have hstate : (foldState zeroRelocate (n.rebuild slots op).relocateState none) = none := by
    rw [hrelocate]
    rfl
  refine Triple.bind (triple_buildRange_node ⟨rfl, rfl, rfl⟩ rfl ⟨hmove, hstate⟩ hpos
    (Nat.le_refl _) fun e s hs => hs ▸ hs₀) fun l => Triple.pre fun hl => ?_
  refine Triple.bind ((triple_programAlternate (fun s hs => hs ▸ hs₀) l).oblige
    fun _ => Event.Survives.mono fun _ => .inl) fun ok => Triple.pre ?_
  rintro rfl
  rw [if_pos rfl]
  refine Triple.seq (R := Committed g root pre n post op) (Triple.modify ?_)
    (Triple.pure fun s hs => ⟨hs, rfl⟩)
  rintro s' ⟨s, rfl, rfl⟩
  obtain ⟨m, hbecomes, hblocks, hrest⟩ := hs₀.rest.rebuild hop hslots hl rfl
  exact ⟨[m], hbecomes, Rested.account (hs₀.replace_one hblocks hrest) rfl⟩

/-! ## The split -/

theorem Cutting.parts_length {kept excluded : List ℕ} {d₀ : Device} {r₀ : Rebuild}
    {tail : Option TailLink} {stop : ℕ} {conts : List (BlockPair × MetadataLog)} {es : List Entries}
    (h : Cutting g kept d₀ r₀ excluded tail stop conts es s) : conts.length = es.length :=
  h.parts.length_eq

/-- The directory behind a split. -/
theorem Dividing.finish {slots : Roster Slot} {conts : List (BlockPair × MetadataLog)}
    {es : List Entries} {excluded : List ℕ} {cont : BlockPair} {stop : ℕ}
    (h : Dividing g root (pre ++ n :: post) d (n.rebuild slots op) excluded (some (cont, true)) stop
      conts es s) (hop : n.Takes g op) (hslots : gatherLiveSlots n.log = .ok slots)
    (hne : conts ≠ []) (hshort : (pre ++ n :: post).length + conts.length ≤ maxQueuedPairs)
    {l : MetadataLog}
    (hl : n.Rebuilds g op slots { n.rebuild slots op with tail := some (cont, true) } stop l) :
    ∃ mid, n.Becomes g op mid ∧
      AtRest g (s.device.write n.alternate (.log l)) root (pre ++ mid ++ post) := by
  have hrest := h.guarded.rest
  have hn := AtRest.mem_mid pre n post
  have hstand := hrest.stands n hn
  have hlt := hstand.alternate_lt hrest.size
  have hlive := h.cutting.live hne
  obtain ⟨hchain, hentries, hblocks⟩ := contNodes_chain h.cutting.parts_length
  have hpairs : (contNodes conts es).map Node.pair = conts.map Prod.fst := by
    conv_rhs => rw [← hchain, List.map_map]
    rfl
  have hfresh : ∀ x ∈ chainBlocks conts, x ∉ nodeBlocks (pre ++ n :: post) := fun x hx =>
    (h.cutting.apart x hx).2
  -- the pair itself shows the lower half and leads to the continuations
  obtain ⟨hlower, hnext⟩ := hstand.rebuilt hop hslots hl
    (conts.map Prod.fst ++ (pre ++ n :: post).map Node.pair)
      (fun p hp => List.mem_append_right _ hp) (Linked.live_mem (by
      show Linked (liveLink (some (cont, true))) _ conts
      rw [show liveLink (some (cont, true)) = some (cont, true) by
        simp [liveLink, Option.filter, hlive]]
      exact h.cutting.linked) (hstand.rebuild_flat hop hslots).tail)
    (Device.get_write_ne _ (hrest.node_apart hn).symm _) (Device.get_write_self hlt _)
  have hlink : l.tailLink = some (cont, true) := by
    rw [hnext]
    simp [liveLink, Option.filter, hlive]
  have hlinked : Linked (some (cont, true)) n.log.tailLink
      ((contNodes conts es).map fun n => (n.pair, n.log)) := by
    rw [hchain, ← liveLink_tailLink n.log]
    exact h.cutting.linked
  generalize hm : (⟨n.pair, n.alternate, n.active, l, op.part n.entries 0 stop⟩ : Node) =
    m at hlower
  have hsub : ∀ p ∈ conts.map Prod.fst ++ (pre ++ n :: post).map Node.pair,
      p ∈ (pre ++ (m :: contNodes conts es) ++ post).map Node.pair := by
    intro p hp
    subst hm
    simp only [List.map_append, List.map_cons, hpairs, List.mem_append, List.mem_cons] at hp ⊢
    tauto
  have hcount : slots.count = n.entries.length := (hstand.carries.shows hslots).2.count
  refine ⟨m :: contNodes conts es, ⟨?_, m, _, rfl, by rw [← hm], fun hhead => ⟨?_, ?_⟩⟩,
    hrest.replace (Device.length_write ..) (fun x _ hx => s.device.get_write_of_notMem
      n.mem_blocks.2 _ x hx) ?_ (List.forall_mem_cons.2 ⟨hlower.mono hsub, ?_⟩) ?_ ?_ h.nodup hfresh
    ?_⟩
  · rw [List.flatMap_cons, hentries, h.cutting.concat, ← hm]
    show op.part n.entries 0 stop ++ op.part (slots.entries n.log) stop _ = _
    rw [hstand.carries.entries_eq hslots, op.part_append _ (Nat.zero_le _) hl.le]
    show op.part n.entries 0 (slots.count + _) = _
    rw [hcount]
    exact op.part_total _
  · rw [← hm]
    exact WriteOp.head_part hhead.first (hop.spares hhead.first) hl.pos
  · rw [← hm]
    exact hl.labelled hstand hop hslots hhead.first
  · subst hm
    refine ⟨rfl, ?_⟩
    show Linked l.tailLink _ _
    rw [hlink]
    exact hlinked
  · refine h.stands hsub fun x hx => Device.get_write_ne _ ?_ _
    rintro rfl
    exact hfresh _ hx (mem_nodeBlocks.2 ⟨n, hn, .inr rfl⟩)
  · subst hm
    exact List.mem_cons_self ..
  · subst hm
    rw [nodeBlocks, List.flatMap_cons]
    show (_ ++ nodeBlocks (contNodes conts es)).Perm _
    rw [hblocks]
    exact (List.Perm.swap ..).append_right _
  · have hlen : (contNodes conts es).length = conts.length := by
      rw [← hchain, List.length_map, hchain]
    simp only [List.length_append, List.length_cons, hlen] at hshort ⊢
    omega

/-- The lower half is written, and the directory is split. -/
theorem triple_finishSplitLowerHalf_calm (hop : n.Takes g op) {slots : Roster Slot}
    (hslots : gatherLiveSlots n.log = .ok slots) {excluded : List ℕ} {cont : BlockPair} {stop : ℕ}
    (hpos : 0 < stop) (hstop : stop < (n.rebuild slots op).total) (excludedConts : List ℕ) :
    Triple Event.WithinLimits (Event.Survives g (Survivor g root pre n post))
      (fun s => ∃ conts es, conts ≠ [] ∧
        (pre ++ n :: post).length + conts.length ≤ maxQueuedPairs ∧
        Dividing g root (pre ++ n :: post) d (n.rebuild slots op) excluded (some (cont, true)) stop
          conts es s)
      (finishSplitLowerHalf g (n.view slots) (n.rebuild slots op) stop cont excludedConts none)
      (fun moved s => Committed g root pre n post op s ∧ moved = none)
      (fun _ s => Rested g root (pre ++ n :: post) s) := by
  refine Triple.exists_pre fun conts => Triple.exists_pre fun es => Triple.each ?_
  rintro s₀ ⟨hne, hshort, h⟩
  have hstand := h.guarded.rest.stands n (AtRest.mem_mid pre n post)
  refine Triple.bind (triple_buildRange_node ⟨rfl, rfl, rfl⟩ rfl (hstand.rebuild_state slots op)
    hpos
    (Nat.le_of_lt hstop) fun e s hs => hs ▸ h.guarded) fun l => Triple.pre fun hl => ?_
  refine Triple.bind ((triple_programAlternate (fun s hs => hs ▸ h.guarded) l).oblige
    fun _ => Event.Survives.mono fun _ => .inl) fun ok => Triple.pre ?_
  rintro rfl
  rw [if_pos rfl]
  refine Triple.seq (R := fun s => s.script = [] ∧ s.root = root ∧
    ∃ mid, n.Becomes g op mid ∧ AtRest g s.device root (pre ++ mid ++ post)) (Triple.modify ?_)
    (Triple.seq (R := Committed g root pre n post op) (Triple.modify ?_)
      (Triple.pure fun s hs => ⟨hs, rfl⟩))
  · rintro s' ⟨s, rfl, rfl⟩
    exact ⟨h.guarded.calm, h.guarded.from_root, h.finish hop hslots hne hshort hl⟩
  · rintro s ⟨hcalm, hroot, mid, hbecomes, hrest⟩
    exact ⟨mid, hbecomes, hcalm, hroot, hrest, nofun⟩

/-- A node is split. -/
theorem triple_splitDirectoryPair_calm (hop : n.Takes g op) {slots : Roster Slot}
    (hslots : gatherLiveSlots n.log = .ok slots) {split maxCuts : ℕ} (hpos : 0 < split)
    (hsplit : split < (n.rebuild slots op).total)
    (hcuts : (pre ++ n :: post).length + maxCuts ≤ maxQueuedPairs) :
    Triple Event.WithinLimits (Event.Survives g (Survivor g root pre n post))
      (Rested g root (pre ++ n :: post))
      (splitDirectoryPair g (n.view slots) (n.rebuild slots op) split maxCuts {})
      (fun moved s => Committed g root pre n post op s ∧ moved = none)
      (fun _ s => Rested g root (pre ++ n :: post) s) := by
  refine Triple.seq (R := Rested g root (pre ++ n :: post))
    (triple_fitExcluded _ _ fun _ s hs => hs) (Triple.each fun s hs => ?_)
  have hflat := (hs.rest.stands n (AtRest.mem_mid pre n post)).rebuild_flat hop hslots
  -- nothing is cut yet
  have hempty : op.part (slots.entries n.log) (n.rebuild slots op).total
      (n.rebuild slots op).total = [] := by
    have hlen := op.part_length_le (slots.entries n.log) (Nat.le_refl (n.rebuild slots op).total)
    rw [Nat.sub_self] at hlen
    exact List.length_eq_zero_iff.1 (Nat.le_zero.1 hlen)
  have hstart : Dividing g root (pre ++ n :: post) s.device (n.rebuild slots op)
      ([n.active, n.alternate] ++ []) (liveLink (n.rebuild slots op).tail)
      (n.rebuild slots op).total [] [] s :=
    ⟨⟨.refl, rfl, nofun, nofun, .nil, hempty.symm⟩, hs, List.nodup_nil,
      nofun, by simp, by simp⟩
  refine Triple.bind (((triple_cutLoop_calm hflat maxCuts ⟨rfl, rfl, rfl⟩ hpos hsplit
    (Nat.le_refl _)).oblige fun _ => Event.Survives.mono fun _ => .inl).strengthen
      (fun s' hs' => ⟨[], [], Nat.le_of_eq (Nat.zero_add maxCuts), Eq.subst (motive := Dividing g
        root (pre ++ n :: post) s.device _ _ _ _ _ _) hs'.symm hstart⟩)) fun out => ?_
  obtain ⟨cont, stop, excluded⟩ := out
  refine Triple.strengthen (P := fun s' => (∃ conts es, conts ≠ [] ∧
    (pre ++ n :: post).length + conts.length ≤ maxQueuedPairs ∧
    Dividing g root (pre ++ n :: post) s.device (n.rebuild slots op) excluded (some (cont, true))
      stop conts es s') ∧ 0 < stop ∧ stop < (n.rebuild slots op).total) (Triple.pre fun hstop =>
      triple_finishSplitLowerHalf_calm hop hslots hstop.1 hstop.2 excluded) ?_
  rintro s' ⟨hstop, conts, es, hne, hlen, h⟩
  exact ⟨⟨conts, es, hne, by omega, h⟩, hstop⟩

/-! ## The commit -/

/-- What a split may use leaves the directory short enough. -/
theorem triple_splitBudget_calm {chain : List Node} {P : Fs → Prop} {K O : Event → Prop}
    {E : Error → Fs → Prop} (pairAddr : BlockPair) (hP : ∀ s, P s → Rested g root chain s)
    (hE : ∀ e s, P s → E e s) :
    Triple K O P (splitBudget g pairAddr)
      (fun maxCuts s => P s ∧ (0 < maxCuts → chain.length + maxCuts ≤ maxQueuedPairs)) E := by
  refine Triple.get_bind fun s₀ hs₀ => ?_
  have htree : collectLiveTreePairs g s₀.device s₀.root = .ok (chain.map Node.pair) := by
    rw [(hP s₀ hs₀).from_root]
    exact (hP s₀ hs₀).rest.collect
  refine Triple.bind (R := fun tree s => s = s₀ ∧ tree = chain.map Node.pair)
    (Triple.query (fun s tree hs h => ?_) fun s e hs h => hE e s (hs ▸ hs₀)) fun tree =>
      Triple.pre ?_
  · subst hs
    exact ⟨rfl, Except.ok.inj (h.symm.trans htree)⟩
  rintro rfl
  rw [List.length_map]
  have hfits : ∀ m, m ≤ min maxSplitCuts (maxQueuedPairs - chain.length) → 0 < m →
      chain.length + m ≤ maxQueuedPairs := by
    intro m hm hpos
    omega
  refine Triple.ite (fun _ => Triple.pure fun s hs => ⟨hs ▸ hs₀, fun h => absurd h nofun⟩)
    fun hroom => Triple.ite (fun _ => ?_) fun _ => Triple.pure fun s hs =>
      ⟨hs ▸ hs₀, hfits _ (Nat.le_refl _)⟩
  refine Triple.bind (R := fun _ s => s = s₀) (Triple.query (fun s used hs _ => hs)
    fun s e hs _ => hE e s (hs ▸ hs₀)) fun used => Triple.ite (fun _ => Triple.pure fun s hs =>
      ⟨hs ▸ hs₀, fun h => absurd h nofun⟩) fun _ => Triple.pure fun s hs =>
        ⟨hs ▸ hs₀, hfits _ (Nat.min_le_left ..)⟩

/-- A node is rebuilt, in full or split. -/
theorem triple_compactAndProgram_calm (hcycles : g.blockCycles ≤ 0) (commit : CommitFn)
    (hop : n.Takes g op) {slots : Roster Slot} (hslots : gatherLiveSlots n.log = .ok slots)
    (hpos : 0 < (n.rebuild slots op).total) :
    Triple Event.WithinLimits (Event.Survives g (Survivor g root pre n post))
      (Rested g root (pre ++ n :: post))
      (compactAndProgram g commit (n.view slots) (n.rebuild slots op) {} false)
      (fun moved s => Committed g root pre n post op s ∧ moved = none)
      (fun _ s => Rested g root (pre ++ n :: post) s) := by
  refine Triple.get_bind fun s₀ hs₀ => ?_
  rw [if_neg nofun]
  refine Triple.bind (R := fun split s => s = s₀ ∧
    computeSplitIndex g n.log slots op 0 (n.rebuild slots op).total = .ok split)
    (Triple.lift (fun s split hs h => ⟨hs, h⟩) fun s e hs _ => hs ▸ hs₀) fun split =>
      Triple.pre fun hsplit => ?_
  have hsingle := @triple_compactSingle_calm g root pre post n op hcycles commit hop slots hslots
      hpos
    {}
  refine Triple.bind (R := fun maxCuts s => s = s₀ ∧ (0 < maxCuts → 0 < split ∧
    (pre ++ n :: post).length + maxCuts ≤ maxQueuedPairs)) (Triple.ite (fun hpos => ?_) fun _ =>
      Triple.pure fun s hs => ⟨hs, fun h => absurd h nofun⟩) fun maxCuts => Triple.pre fun hcuts =>
      Triple.ite (fun hmax => ?_) fun _ => hsingle.strengthen fun s hs => hs ▸ hs₀
  · exact (triple_splitBudget_calm _ (fun s hs => hs ▸ hs₀) fun e s hs => hs ▸ hs₀).weaken
      fun _ _ ⟨hs, hfits⟩ => ⟨hs, fun h => ⟨hpos, hfits h⟩⟩
  obtain ⟨hcut, hfits⟩ := hcuts hmax
  -- a split that runs out of room falls back on the other half
  refine Triple.bind (R := fun moved s => match moved with
      | .ok moved => Committed g root pre n post op s ∧ moved = none
      | .error _ => Rested g root (pre ++ n :: post) s)
    (Triple.attempt ((triple_splitDirectoryPair_calm hop hslots hcut
      (computeSplitIndex_lt hsplit (Nat.ne_of_gt hcut)) hfits).strengthen fun s hs => hs ▸ hs₀))
    fun moved => ?_
  cases moved with
  | ok moved => exact Triple.pure fun s hs => hs
  | error e =>
      cases e with
      | outOfRange =>
          exact Triple.seq (R := Rested g root (pre ++ n :: post))
            (Triple.modify fun s hs => Rested.account hs rfl) hsingle
      | _ => exact Triple.fail fun s hs => hs

theorem triple_viewPair_calm {K O : Event → Prop} {E : Error → Fs → Prop}
    (hE : ∀ e s, Rested g root (pre ++ n :: post) s → E e s) :
    Triple K O (Rested g root (pre ++ n :: post)) (viewPair g n.pair)
      (fun v s => Rested g root (pre ++ n :: post) s ∧
        ∃ slots, gatherLiveSlots n.log = .ok slots ∧ v = n.view slots) E := by
  refine Triple.bind (R := fun pair s => Rested g root (pre ++ n :: post) s ∧
    pair = ⟨n.active, n.alternate, n.log⟩) (Triple.query (fun s pair hs h => ⟨hs, ?_⟩)
      fun s e hs _ => hE e s hs) fun pair => Triple.pre ?_
  · exact Except.ok.inj (h.symm.trans (hs.rest.fetch (AtRest.mem_mid pre n post)))
  · rintro rfl
    exact Triple.bind (R := fun slots s => Rested g root (pre ++ n :: post) s ∧
      gatherLiveSlots n.log = .ok slots) (Triple.lift (fun s slots hs h => ⟨hs, h⟩)
        fun s e hs _ => hE e s hs) fun slots => Triple.pure fun s hs => ⟨hs.1, slots, hs.2, rfl⟩

/-- One commit on a node of a directory at rest. -/
theorem triple_commitWith_calm (hcycles : g.blockCycles ≤ 0) (commit : CommitFn)
    (hop : n.Takes g op) (hpos : 0 < op.total n.entries.length) :
    Triple Event.WithinLimits (Event.Survives g (Survivor g root pre n post))
      (Rested g root (pre ++ n :: post)) (commitWith g commit { pair := n.pair, op := op })
      (fun _ s => Committed g root pre n post op s)
      (fun _ s => Rested g root (pre ++ n :: post) s) := by
  refine Triple.get_bind fun s₀ hs₀ => ?_
  refine Triple.seq (R := Rested g root (pre ++ n :: post))
    (Triple.note fun s hs _ => ⟨fun _ => False.elim, hs ▸ hs₀⟩) ?_
  refine Triple.bind (triple_viewPair_calm fun _ _ hs => hs) fun v => ?_
  refine Triple.strengthen (P := fun s => ∃ slots, Rested g root (pre ++ n :: post) s ∧
    gatherLiveSlots n.log = .ok slots ∧ v = n.view slots) (Triple.exists_pre fun slots =>
      Triple.pre ?_) fun s ⟨hs, slots, hslots, hv⟩ => ⟨slots, hs, hslots, hv⟩
  rintro ⟨hslots, rfl⟩
  have hstand := hs₀.rest.stands n (AtRest.mem_mid pre n post)
  refine Triple.ite (fun _ => ?_) fun _ => ?_
  · refine Triple.bind (triple_tryAppend_calm hop hslots) fun source => ?_
    refine Triple.strengthen (P := fun s => Committed g root pre n post op s ∧ source = none)
      (Triple.pre ?_) fun s hs => ⟨hs.2, hs.1⟩
    rintro rfl
    exact Triple.pure fun s hs => hs
  · have hcount : slots.count = n.entries.length := (hstand.carries.shows hslots).2.count
    have hpos' : 0 < (n.rebuild slots op).total := by
      show 0 < slots.count + _
      rw [hcount]
      exact hpos
    refine Triple.bind (triple_compactAndProgram_calm hcycles commit hop hslots hpos') fun moved =>
      Triple.pre ?_
    rintro rfl
    exact Triple.pure fun s hs => hs

end Commit

end LittlefsPure
