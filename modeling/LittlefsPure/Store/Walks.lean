import LittlefsPure.Store.Guard
import LittlefsPure.Store.Logs

/-!
# Reading a directory at rest

The walks of `fs.rs` over a directory at rest: along the chain in the search for a name and
in listing, over the thread and the tree for the pairs and the pending state.  Each of them
is a function of the entries that the nodes of the chain carry.

## Why the walks are bounded by the nodes

Every walk of `fs.rs` along a chain or over the tree carries a bound.  On a directory at rest the
nodes are distinct pairs of the device, so there are fewer of them than any of the bounds, and the
tails of the nodes lead from each to the next; the walks end at the last node for that reason.
-/

namespace LittlefsPure

open Logic

/-! ## One log -/

/-- The entry of a node that a lookup finds. -/
def Node.find (n : Node) (name : Body) : Option Resolved :=
  n.entries.zipIdx.findSome? fun x => x.1.slot.hit name x.2

/-- The entries of a node that a listing shows. -/
def Node.listing (n : Node) : List DirEntry :=
  n.entries.zipIdx.filterMap fun x => x.1.slot.listed.map fun e => ⟨x.2, e.1, e.2⟩

section Log

variable {l : MetadataLog} {entries : Entries} {move : MoveBody} {relocate : RelocateBody}
  {tail : Option TailLink}

theorem MetadataLog.Carries.play (h : l.Carries entries move relocate tail)
    (hle : entries.length ≤ maxLiveEntries) : Entries.play l.tags [] = .ok entries := by
  rw [h.entries, Entries.checked_of_le hle]

theorem MetadataLog.Carries.lookup (h : l.Carries entries move relocate tail)
    (hle : entries.length ≤ maxLiveEntries) (name : Body) :
    lookupChecked l name = .ok (entries.zipIdx.findSome? fun x => x.1.slot.hit name x.2) := by
  have hslots := (h.lists hle).slots
  unfold lookupSlots at hslots
  obtain ⟨r, hr, hlive⟩ := map_eq_ok.1 hslots
  rw [lookupChecked, hr]
  show Except.ok (List.findSome? _ r.live.zipIdx) = _
  rw [hlive, List.zipIdx_map, List.findSome?_map]
  refine congrArg Except.ok (congrArg (List.findSome? · _) (funext fun x => ?_))
  obtain ⟨⟨name', struct, attrs⟩, i⟩ := x
  cases name' with
  | none => rfl
  | some n =>
      obtain ⟨type, body⟩ := n
      simp only [Function.comp, Prod.map, Entry.lookupSlot, Entry.slot, Slot.hit, Option.map_some,
        Option.bind_some, id]
      cases type.entryKind with
      | none => rfl
      | some k =>
          cases struct with
          | none => rfl
          | some b => rfl

theorem listed_reads : Reads (fun e : Entry => e.slot.listed) none
    (fun _ t _ => .ok (t.tagType.entryKind.map fun k => (t.body, k))) (fun _ _ s => .ok s) where
  empty := rfl
  name off t e s h := by
    cases h
    rfl
  struct off t e s h := by
    cases h
    rfl
  attr _ _ _ := rfl

theorem MetadataLog.Carries.live (h : l.Carries entries move relocate tail)
    (hle : entries.length ≤ maxLiveEntries) :
    ∃ count, liveEntries l = .ok (count, entries.zipIdx.filterMap fun x =>
      x.1.slot.listed.map fun e => ⟨x.2, e.1, e.2⟩) := by
  have hwalk := walkTags_eq_play listed_reads (fun _ _ _ _ h => by cases h)
    (fun _ _ _ _ h => by cases h) (Roster.new_shows _) (h.placed.mono fun _ _ h => h.struct) 4
  rw [h.play hle] at hwalk
  obtain ⟨r, hr, hlive⟩ := map_eq_ok.1 hwalk
  refine ⟨r.count, ?_⟩
  rw [liveEntries, hr]
  show Except.ok (r.count, List.filterMap _ r.live.zipIdx) = _
  rw [hlive, List.zipIdx_map, List.filterMap_map]
  rfl

end Log

section Stands

variable {g : Geometry} {d : Device} {pairs : List BlockPair} {n : Node}

theorem Node.Stands.lookup (h : n.Stands g d pairs) (name : Body) :
    lookupChecked n.log name = .ok (n.find name) :=
  h.carries.lookup h.room name

theorem Node.Stands.listed (h : n.Stands g d pairs) :
    ∃ count, liveEntries n.log = .ok (count, n.listing) :=
  h.carries.live h.room

/-- The slots of a node are those of its entries. -/
theorem Node.Stands.slots (h : n.Stands g d pairs) :
    ∃ slots, gatherLiveSlots n.log = .ok slots ∧ slots.count = n.entries.length ∧
      slots.live = n.entries.map Entry.slot ∧ slots.entries n.log = n.entries := by
  obtain ⟨slots, hslots⟩ := h.gathered
  obtain ⟨-, hshows⟩ := h.carries.shows hslots
  exact ⟨slots, hslots, hshows.count, hshows.live, h.carries.entries_eq hslots⟩

/-- Inline entries name no child. -/
theorem Node.Stands.childless (h : n.Stands g d pairs) {slots : Roster Slot}
    (hlive : slots.live = n.entries.map Entry.slot) : childPairs slots = [] := by
  rw [childPairs, hlive, List.filterMap_eq_nil_iff]
  intro s hs
  obtain ⟨e, he, rfl⟩ := List.mem_map.1 hs
  unfold Slot.childPair
  cases hst : e.slot.struct with
  | none => rfl
  | some st =>
      obtain ⟨type, body⟩ := st
      have htype : type = .inlineStruct := h.inline e he _ hst
      rw [htype]

end Stands

/-! ## The chain -/

theorem Linked.append {tail last : Option TailLink} {xs ys : List (BlockPair × MetadataLog)} :
    Linked tail last (xs ++ ys) ↔ ∃ mid, Linked tail mid xs ∧ Linked mid last ys := by
  induction xs generalizing tail with
  | nil => exact ⟨fun h => ⟨tail, rfl, h⟩, fun ⟨mid, h, h'⟩ => Eq.subst (motive := fun t =>
      Linked t last ys) (Eq.symm h) h'⟩
  | cons x xs ih =>
      constructor
      · rintro ⟨hfirst, hrest⟩
        obtain ⟨mid, hxs, hys⟩ := ih.1 hrest
        exact ⟨mid, ⟨hfirst, hxs⟩, hys⟩
      · rintro ⟨mid, ⟨hfirst, hxs⟩, hys⟩
        exact ⟨hfirst, ih.2 ⟨mid, hxs, hys⟩⟩

namespace AtRest

variable {g : Geometry} {d : Device} {root : BlockPair} {chain pre post : List Node} {n : Node}

/-- The links in front of a node and behind it. -/
theorem split_linked (h : AtRest g d root (pre ++ n :: post)) :
    Linked (some (root, true)) (some (n.pair, true)) (pre.map fun n => (n.pair, n.log)) ∧
      Linked n.log.tailLink none (post.map fun n => (n.pair, n.log)) := by
  have hlinked := h.linked
  rw [List.map_append, Linked.append] at hlinked
  obtain ⟨mid, hpre, hmid, hpost⟩ := hlinked
  rw [hmid] at hpre
  exact ⟨hpre, hpost⟩

/-- A node leads to the next one. -/
theorem tailLink (h : AtRest g d root (pre ++ n :: post)) :
    n.log.tailLink = post.head?.map fun m => (m.pair, true) := by
  obtain ⟨-, hpost⟩ := h.split_linked
  cases post with
  | nil => exact hpost
  | cons m post => exact hpost.1

theorem tail (h : AtRest g d root (pre ++ n :: post)) :
    n.log.tail = post.head?.map Node.pair := by
  rw [MetadataLog.tail, h.tailLink, Option.map_map]
  rfl

theorem isHardTail (h : AtRest g d root (pre ++ n :: post)) :
    n.log.isHardTail = post.head?.isSome := by
  rw [MetadataLog.isHardTail, h.tailLink]
  cases post.head? <;> rfl

theorem hardNext (h : AtRest g d root (pre ++ n :: post)) :
    n.log.hardNext = post.head?.map Node.pair := by
  rw [MetadataLog.hardNext, h.isHardTail, h.tail]
  cases post.head? <;> rfl

theorem mem_mid (pre : List Node) (n : Node) (post : List Node) : n ∈ pre ++ n :: post :=
  List.mem_append_right _ (List.mem_cons_self ..)

/-- A node is known by its pair, in whatever order its halves are named. -/
theorem eq_of_samePair (h : AtRest g d root chain) {m : Node} (hn : n ∈ chain) (hm : m ∈ chain)
    (hsame : n.pair.isSamePair m.pair = true) : n = m := by
  have hactive : n.active ∈ n.blocks := List.mem_cons_self ..
  refine h.eq_of_holds hn hm hactive ((h.owns_iff hm).1 (.inl ?_))
  rw [← BlockPair.holds_congr hsame]
  rcases (h.stands n hn).halves with ⟨ha, -⟩ | ⟨-, hb⟩
  · exact .inl ha.symm
  · exact .inr hb.symm

/-- The nodes behind a node are not among those in front of them. -/
theorem not_seen (h : AtRest g d root (pre ++ n :: post)) :
    containsPair (pre.map Node.pair) n.pair = false := by
  rw [containsPair, List.any_eq_false]
  intro p hp hsame
  obtain ⟨m, hm, rfl⟩ := List.mem_map.1 hp
  obtain rfl := h.eq_of_samePair (List.mem_append_left _ hm) (mem_mid pre n post) hsame
  have hdisjoint : List.Disjoint (nodeBlocks pre) (nodeBlocks (m :: post)) :=
    List.disjoint_of_nodup_append (by rw [← List.flatMap_append]; exact h.apart)
  have hactive : m.active ∈ m.blocks := List.mem_cons_self ..
  exact hdisjoint (List.mem_flatMap.2 ⟨m, hm, hactive⟩)
    (List.mem_flatMap.2 ⟨m, List.mem_cons_self .., hactive⟩)

/-- A chain has no more nodes than the device has blocks. -/
theorem length_le (h : AtRest g d root chain) : 2 * chain.length ≤ g.blockCount := by
  have hsub : nodeBlocks chain ⊆ List.range g.blockCount := by
    intro x hx
    obtain ⟨n, hn, hx⟩ := mem_nodeBlocks.1 hx
    have hstand := h.stands n hn
    rw [List.mem_range, ← h.size]
    rcases hx with rfl | rfl
    · exact hstand.active_lt h.size
    · exact hstand.alternate_lt h.size
  have hle := (List.subperm_of_subset h.apart hsub).length_le
  have hlen : (nodeBlocks chain).length = 2 * chain.length := by
    rw [nodeBlocks, List.length_flatMap]
    show (chain.map fun _ => 2).sum = _
    rw [List.map_const', List.sum_replicate_nat, Nat.mul_comm]
  rwa [hlen, List.length_range] at hle

theorem chainFuel_le (h : AtRest g d root chain) : chain.length ≤ chainFuel g := by
  have hle := h.length_le
  have hsq := Nat.le_mul_self g.blockCount
  rw [chainFuel]
  omega

end AtRest

/-! ## Along the chain -/

theorem BrentTailWalk.advance_of_ne {walk : BrentTailWalk} {next : BlockPair}
    (h : next ≠ walk.saved) :
    ∃ walk', walk.advance next = .ok walk' ∧ (walk'.saved = next ∨ walk'.saved = walk.saved) := by
  unfold BrentTailWalk.advance
  rw [if_neg h]
  split_ifs
  · exact ⟨_, rfl, .inl rfl⟩
  · exact ⟨_, rfl, .inr rfl⟩

section Chain

variable {g : Geometry} {d : Device} {root : BlockPair} {chain : List Node}

/-- The search of a chain: the first node with the name, or else the last node. -/
inductive Seek (chain : List Node) (name : Body) : ChainSeek → Prop
  | found (pre : List Node) (n : Node) (post : List Node) (r : Resolved)
      (hchain : chain = pre ++ n :: post) (hpre : ∀ m ∈ pre, m.find name = none)
      (hfind : n.find name = some r) : Seek chain name (.found n.pair r.entry.id r.entry.kind)
  | absent (pre : List Node) (n : Node) (hchain : chain = pre ++ [n])
      (hnone : ∀ m ∈ chain, m.find name = none) :
      Seek chain name (.absent n.pair n.entries.length)

/-- The test for a cycle lets a walk over a directory at rest go on. -/
theorem AtRest.advance {pre post : List Node} {n m : Node}
    (h : AtRest g d root (pre ++ n :: m :: post)) {walk : BrentTailWalk}
    (hsaved : walk.saved ∈ (pre ++ [n]).map Node.pair) :
    ∃ walk', walk.advance m.pair = .ok walk' ∧
      walk'.saved ∈ (pre ++ [n] ++ [m]).map Node.pair := by
  rw [List.append_cons] at h
  have hne : m.pair ≠ walk.saved := by
    intro heq
    have hseen := h.not_seen
    rw [containsPair, List.any_eq_false] at hseen
    exact hseen _ hsaved (heq ▸ BlockPair.isSamePair_self _)
  obtain ⟨walk', hwalk, hsaved' | hsaved'⟩ := BrentTailWalk.advance_of_ne hne
  · exact ⟨walk', hwalk, hsaved' ▸ by simp⟩
  · refine ⟨walk', hwalk, ?_⟩
    rw [hsaved', List.map_append]
    exact List.mem_append_left _ hsaved

theorem AtRest.seekFrom {name : Body} {fuel : ℕ} (pre : List Node) {post : List Node} {n : Node}
    (h : AtRest g d root (pre ++ n :: post)) (hpre : ∀ m ∈ pre, m.find name = none)
    {walk : BrentTailWalk} (hsaved : walk.saved ∈ (pre ++ [n]).map Node.pair)
    (hfuel : post.length < fuel) :
    ∃ found, seekEntryFrom g d name fuel n.pair walk = .ok found ∧
      Seek (pre ++ n :: post) name found := by
  induction post generalizing pre n walk fuel with
  | nil =>
      obtain ⟨fuel, rfl⟩ : ∃ m, fuel = m + 1 := ⟨fuel - 1, by omega⟩
      have hn := AtRest.mem_mid pre n []
      obtain ⟨slots, hslots, hcount, -⟩ := (h.stands n hn).slots
      rw [seekEntryFrom, h.fetch hn]
      simp only [bind, Except.bind, (h.stands n hn).lookup, hslots]
      cases hfind : n.find name with
      | some r => exact ⟨_, rfl, .found pre n [] r rfl hpre hfind⟩
      | none =>
          simp only [h.hardNext, List.head?_nil, Option.map_none, hcount]
          refine ⟨_, rfl, .absent pre n rfl fun m hm => ?_⟩
          rcases List.mem_append.1 hm with hm | hm
          · exact hpre m hm
          · rw [List.mem_singleton.1 hm, hfind]
  | cons m post ih =>
      obtain ⟨fuel, rfl⟩ : ∃ m, fuel = m + 1 := ⟨fuel - 1, by omega⟩
      have hn := AtRest.mem_mid pre n (m :: post)
      obtain ⟨slots, hslots, -⟩ := (h.stands n hn).slots
      rw [seekEntryFrom, h.fetch hn]
      simp only [bind, Except.bind, (h.stands n hn).lookup, hslots]
      cases hfind : n.find name with
      | some r => exact ⟨_, rfl, .found pre n (m :: post) r rfl hpre hfind⟩
      | none =>
          obtain ⟨walk', hwalk, hsaved'⟩ := h.advance hsaved
          simp only [h.hardNext, List.head?_cons, Option.map_some, hwalk]
          rw [List.append_cons] at h ⊢
          refine ih _ h (fun m' hm' => ?_) hsaved' (Nat.lt_of_succ_lt_succ hfuel)
          rcases List.mem_append.1 hm' with hm' | hm'
          · exact hpre m' hm'
          · rw [List.mem_singleton.1 hm', hfind]

/-- The search for a name in a directory at rest. -/
theorem AtRest.seek (h : AtRest g d root chain) (name : Body) :
    ∃ found, seekEntryInChain g d root name = .ok found ∧ Seek chain name found := by
  obtain ⟨first, rest, rfl, rfl⟩ := h.head
  exact seekFrom [] h nofun (List.mem_singleton_self _) h.chainFuel_le

theorem AtRest.leafFrom {name : Body} {fuel : ℕ} (pre : List Node) {post : List Node} {n : Node}
    (h : AtRest g d root (pre ++ n :: post)) {walk : BrentTailWalk}
    (hsaved : walk.saved ∈ (pre ++ [n]).map Node.pair) (hfuel : post.length < fuel) :
    resolveLeafFrom g d name fuel n.pair walk =
      match (n :: post).findSome? fun m => (m.find name).map fun r => (m, r) with
      | some (m, r) => .ok ⟨⟨m.active, m.alternate⟩, r.entry, r.structType, r.structBody⟩
      | none => .error .notFound := by
  induction post generalizing pre n walk fuel with
  | nil =>
      obtain ⟨fuel, rfl⟩ : ∃ m, fuel = m + 1 := ⟨fuel - 1, by omega⟩
      have hn := AtRest.mem_mid pre n []
      rw [resolveLeafFrom, h.fetch hn]
      simp only [bind, Except.bind, (h.stands n hn).lookup, List.findSome?_cons]
      cases hfind : n.find name with
      | some r => rfl
      | none => simp only [h.isHardTail, List.head?_nil]; rfl
  | cons m post ih =>
      obtain ⟨fuel, rfl⟩ : ∃ m, fuel = m + 1 := ⟨fuel - 1, by omega⟩
      have hn := AtRest.mem_mid pre n (m :: post)
      rw [resolveLeafFrom, h.fetch hn, List.findSome?_cons]
      simp only [bind, Except.bind, (h.stands n hn).lookup]
      cases hfind : n.find name with
      | some r => rfl
      | none =>
          obtain ⟨walk', hwalk, hsaved'⟩ := h.advance hsaved
          simp only [h.isHardTail, h.tail, List.head?_cons, Option.map_some, Option.isSome_some,
            if_true, hwalk, Option.map_none]
          rw [List.append_cons] at h
          exact ih _ h hsaved' (Nat.lt_of_succ_lt_succ hfuel)

/-- The final lookup of a path of one component. -/
theorem AtRest.leaf (h : AtRest g d root chain) (name : Body) :
    resolveLeafFrom g d name (chainFuel g) root (.new root) =
      match chain.findSome? fun m => (m.find name).map fun r => (m, r) with
      | some (m, r) => .ok ⟨⟨m.active, m.alternate⟩, r.entry, r.structType, r.structBody⟩
      | none => .error .notFound := by
  obtain ⟨first, rest, rfl, rfl⟩ := h.head
  exact leafFrom [] h (List.mem_singleton_self _) h.chainFuel_le

theorem AtRest.listFrom {fuel : ℕ} (pre : List Node) {post : List Node} {n : Node}
    (h : AtRest g d root (pre ++ n :: post)) {walk : BrentTailWalk}
    (hsaved : walk.saved ∈ (pre ++ [n]).map Node.pair) (hfuel : post.length < fuel) :
    listPairChainFrom g d fuel n.pair walk = .ok ((n :: post).flatMap Node.listing) := by
  induction post generalizing pre n walk fuel with
  | nil =>
      obtain ⟨fuel, rfl⟩ : ∃ m, fuel = m + 1 := ⟨fuel - 1, by omega⟩
      have hn := AtRest.mem_mid pre n []
      obtain ⟨count, hlist⟩ := (h.stands n hn).listed
      rw [listPairChainFrom, h.fetch hn]
      simp only [bind, Except.bind, hlist, h.hardNext, List.head?_nil, Option.map_none,
        List.flatMap_cons, List.flatMap_nil, List.append_nil]
      rfl
  | cons m post ih =>
      obtain ⟨fuel, rfl⟩ : ∃ m, fuel = m + 1 := ⟨fuel - 1, by omega⟩
      have hn := AtRest.mem_mid pre n (m :: post)
      obtain ⟨count, hlist⟩ := (h.stands n hn).listed
      obtain ⟨walk', hwalk, hsaved'⟩ := h.advance hsaved
      rw [listPairChainFrom, h.fetch hn]
      simp only [bind, Except.bind, hlist, h.hardNext, List.head?_cons, Option.map_some, hwalk]
      rw [List.append_cons] at h
      rw [ih _ h hsaved' (Nat.lt_of_succ_lt_succ hfuel), List.flatMap_cons]
      rfl

/-- A listing of a directory at rest shows the entries of its nodes in turn. -/
theorem AtRest.list (h : AtRest g d root chain) :
    listPairChain g d root = .ok (chain.flatMap Node.listing) := by
  obtain ⟨first, rest, rfl, rfl⟩ := h.head
  exact listFrom [] h (List.mem_singleton_self _) h.chainFuel_le

end Chain

/-! ## Over the tree -/

section Tree

variable {g : Geometry} {d : Device} {root : BlockPair} {chain : List Node}

/-- The next node is queued. -/
theorem AtRest.enqueue_next {pre post : List Node} {n : Node}
    (h : AtRest g d root (pre ++ n :: post)) :
    enqueueAll g (post.head?.map Node.pair).toList ((pre ++ [n]).map Node.pair) [] =
      .ok ((pre ++ [n] ++ post.take 1).map Node.pair, (post.take 1).map Node.pair) := by
  cases post with
  | nil => simp [enqueueAll]
  | cons m post =>
      have hbounds := (h.stands m (by simp)).bounds
      have hshort := h.short
      rw [List.append_cons] at h
      have hseen := h.not_seen
      have hroom : ¬ maxQueuedPairs ≤ ((pre ++ [n]).map Node.pair).length := by
        simp only [List.length_append, List.length_cons, List.length_map, List.length_nil]
          at hshort ⊢
        omega
      simp only [List.head?_cons, Option.map_some, Option.toList_some, enqueueAll, enqueue, hbounds,
        hseen, if_neg hroom, Bool.not_true, Bool.false_eq_true, if_false, bind, Except.bind]
      simp

theorem AtRest.collectFrom {fuel : ℕ} (pre : List Node) {post : List Node} {n : Node}
    (h : AtRest g d root (pre ++ n :: post)) (hfuel : post.length < fuel) :
    collectTreeFrom g d fuel ((pre ++ [n]).map Node.pair) [n.pair] =
      .ok ((pre ++ n :: post).map Node.pair) := by
  induction post generalizing pre n fuel with
  | nil =>
      obtain ⟨fuel, rfl⟩ : ∃ m, fuel = m + 1 := ⟨fuel - 1, by omega⟩
      have hstand := h.stands n (AtRest.mem_mid pre n [])
      obtain ⟨slots, hslots, -, hlive, -⟩ := hstand.slots
      rw [collectTreeFrom, h.fetch (AtRest.mem_mid pre n [])]
      have hnext := h.enqueue_next
      simp only [List.take_nil, List.append_nil, List.map_nil] at hnext
      simp only [bind, Except.bind, h.hardNext, hnext, hslots, hstand.childless hlive, enqueueAll,
        collectTreeFrom]
  | cons m post ih =>
      obtain ⟨fuel, rfl⟩ : ∃ m, fuel = m + 1 := ⟨fuel - 1, by omega⟩
      have hstand := h.stands n (AtRest.mem_mid pre n (m :: post))
      obtain ⟨slots, hslots, -, hlive, -⟩ := hstand.slots
      rw [collectTreeFrom, h.fetch (AtRest.mem_mid pre n (m :: post))]
      simp only [bind, Except.bind, h.hardNext, h.enqueue_next, hslots, hstand.childless hlive,
        enqueueAll, List.take_succ_cons, List.take_zero, List.map_cons, List.map_nil]
      rw [List.append_cons pre n (m :: post)] at h ⊢
      exact ih _ h (Nat.lt_of_succ_lt_succ hfuel)

/-- The tree of a directory at rest is its chain. -/
theorem AtRest.collect (h : AtRest g d root chain) :
    collectLiveTreePairs g d root = .ok (chain.map Node.pair) := by
  have hshort := h.short
  obtain ⟨first, rest, rfl, rfl⟩ := h.head
  exact collectFrom [] h hshort

theorem AtRest.accumulateFrom {fuel : ℕ} (pre : List Node) {post : List Node} {n : Node}
    (h : AtRest g d root (pre ++ n :: post)) (hfuel : post.length < fuel) :
    LittlefsPure.accumulateFrom g d fuel ((pre ++ [n]).map Node.pair) [n.pair] {} = .ok {} := by
  have hzero : (({} : Gstate).xorBody zeroMove).xorRelocateBody zeroRelocate = {} := by decide
  induction post generalizing pre n fuel with
  | nil =>
      obtain ⟨fuel, rfl⟩ : ∃ m, fuel = m + 1 := ⟨fuel - 1, by omega⟩
      have hstand := h.stands n (AtRest.mem_mid pre n [])
      obtain ⟨slots, hslots, -, hlive, -⟩ := hstand.slots
      rw [LittlefsPure.accumulateFrom, h.fetch (AtRest.mem_mid pre n [])]
      have hnext := h.enqueue_next
      simp only [List.take_nil, List.append_nil, List.map_nil] at hnext
      simp only [bind, Except.bind, hstand.carries.move, hstand.carries.relocate, hzero, hslots,
        hstand.childless hlive, h.tail, List.append_nil, hnext, LittlefsPure.accumulateFrom]
  | cons m post ih =>
      obtain ⟨fuel, rfl⟩ : ∃ m, fuel = m + 1 := ⟨fuel - 1, by omega⟩
      have hstand := h.stands n (AtRest.mem_mid pre n (m :: post))
      obtain ⟨slots, hslots, -, hlive, -⟩ := hstand.slots
      rw [LittlefsPure.accumulateFrom, h.fetch (AtRest.mem_mid pre n (m :: post))]
      simp only [bind, Except.bind, hstand.carries.move, hstand.carries.relocate, hzero, hslots,
        hstand.childless hlive, h.tail, List.append_nil, h.enqueue_next, List.take_succ_cons,
        List.take_zero, List.map_cons, List.map_nil]
      rw [List.append_cons] at h
      exact ih _ h (Nat.lt_of_succ_lt_succ hfuel)

/-- Nothing is pending in a directory at rest. -/
theorem AtRest.accumulate (h : AtRest g d root chain) : accumulateGstate g d root = .ok {} := by
  have hshort := h.short
  obtain ⟨first, rest, rfl, rfl⟩ := h.head
  exact AtRest.accumulateFrom [] h hshort

end Tree

end LittlefsPure
