import LittlefsPure.Fs.Operations
import LittlefsPure.Logic.Sweep
import LittlefsPure.Scan.Marks

/-!
# The forest walks are exact

`accumulate_gstate`, `collect_live_tree_pairs` and `find_parent_in_tree` sweep the pairs that
the root reaches, the first and the last along every tail, the second along hard tails only.
On any device whatsoever each of them visits exactly the pairs that the live entries and the
latest tails lead to, every physical pair once; and when one fails there is a reason on the
device: a reached pair that is damaged or that points outside, or more pairs than the queue
holds.

## Why the two failures are named

A walk over the forest is the first thing a mount does, and the filesystem does not come up when
it fails.  So it matters that there is no third reason.  Damage is damage of a pair that the root
reaches, and the queue is full only when there are more pairs than slots; neither can be brought
about by what lies elsewhere on the device.

## Why either order of a pair

A tail and a struct may name the same pair with its blocks exchanged.  The walks compare pairs
without regard to the order, so the pairs visited are unique up to it, and a pair is reached when
either of its names is.
-/

namespace LittlefsPure

open Logic

variable (g : Geometry) (d : Device) (follow : MetadataLog → Option BlockPair)

/-! ## Links and faults -/

/-- A pair leads to another: by its latest tail, if the walk follows it, or by a live entry. -/
inductive Link (p : BlockPair) : BlockPair → Prop
  | tail {pair : MetadataPair} {q : BlockPair} (hpair : d.fetch g p = .ok pair)
      (hq : follow pair.reader = some q) : Link p q
  | child {pair : MetadataPair} {slots : Roster Slot} {q : BlockPair}
      (hpair : d.fetch g p = .ok pair) (hslots : gatherLiveSlots pair.reader = .ok slots)
      (hq : q ∈ childPairs slots) : Link p q

/-- The pairs a walk reaches. -/
abbrev Leads : BlockPair → BlockPair → Prop := Relation.ReflTransGen (Link g d follow)

/-- Two names of one physical pair. -/
def SamePair (p q : BlockPair) : Prop := p.isSamePair q = true

/-- What can be wrong with a pair that a walk visits. -/
inductive Faulty (p : BlockPair) : Error → Prop
  | unreadable {e : Error} (h : d.fetch g p = .error e) : Faulty p e
  | unplayable {pair : MetadataPair} {e : Error} (hpair : d.fetch g p = .ok pair)
      (h : gatherLiveSlots pair.reader = .error e) : Faulty p e
  | outside {q : BlockPair} (hlink : Link g d follow p q) (hq : g.pairInBounds q = false) :
      Faulty p .corrupt

/-- Why a walk fails. -/
inductive Obstacle (root : BlockPair) : Error → Prop
  | faulty {p : BlockPair} {e : Error} (hp : Leads g d follow root p) (h : Faulty g d follow p e) :
      Obstacle root e
  | full {pairs : List BlockPair} (hreached : ∀ p ∈ pairs, Leads g d follow root p)
      (hapart : pairs.Pairwise fun p q => ¬ SamePair p q) (hlen : maxQueuedPairs < pairs.length) :
      Obstacle root .outOfRange

variable {g d follow}

/-- The links of a pair whose log can be played. -/
theorem link_iff {p q : BlockPair} {pair : MetadataPair} {slots : Roster Slot}
    (hpair : d.fetch g p = .ok pair) (hslots : gatherLiveSlots pair.reader = .ok slots) :
    Link g d follow p q ↔ q ∈ (follow pair.reader).toList ++ childPairs slots := by
  constructor
  · rintro (⟨hpair', hq⟩ | ⟨hpair', hslots', hq⟩)
    · cases hpair.symm.trans hpair'
      simp [hq]
    · cases hpair.symm.trans hpair'
      cases hslots.symm.trans hslots'
      exact List.mem_append_right _ hq
  · intro hq
    rcases List.mem_append.1 hq with hq | hq
    · exact .tail hpair (Option.mem_toList.1 hq)
    · exact .child hpair hslots hq

/-! ## The queue -/

theorem SamePair.refl (p : BlockPair) : SamePair p p := BlockPair.isSamePair_self p

section Queue

variable {seen pending cs : List BlockPair} {out : List BlockPair × List BlockPair} {e : Error}

theorem enqueue_eq_ok {child : BlockPair} (h : enqueue g seen pending child = .ok out) :
    ∃ more, out = (seen ++ more, pending ++ more) ∧ Queues SamePair seen [child] more := by
  unfold enqueue at h
  split_ifs at h with hbounds hseen hfull
  · cases h
    exact ⟨[], by simp, .old (containsPair_iff.1 hseen)⟩
  · cases h
    refine ⟨[child], rfl, .fresh (SamePair.refl child) fun q hq hsame => ?_⟩
    exact hseen (containsPair_iff.2 ⟨q, hq, hsame⟩)

/-- What the queue holds after several candidates. -/
theorem enqueueAll_eq_ok (h : enqueueAll g cs seen pending = .ok out) :
    ∃ more, out = (seen ++ more, pending ++ more) ∧ Queues SamePair seen cs more := by
  induction cs generalizing seen pending with
  | nil =>
      cases h
      exact ⟨[], by simp, .nil⟩
  | cons child cs ih =>
      obtain ⟨out₁, hone, h⟩ := bind_eq_ok.1 h
      obtain ⟨more₁, rfl, hq₁⟩ := enqueue_eq_ok hone
      obtain ⟨more₂, rfl, hq₂⟩ := ih h
      exact ⟨more₁ ++ more₂, by simp, hq₁.append hq₂⟩

/-- Queueing fails at a candidate outside the device, or when the candidates so far are more
than the queue holds. -/
theorem enqueueAll_eq_error (h : enqueueAll g cs seen pending = .error e) :
    (e = .corrupt ∧ ∃ q ∈ cs, g.pairInBounds q = false) ∨
      e = .outOfRange ∧ ∃ cs' more, (∀ q ∈ cs', q ∈ cs) ∧ Queues SamePair seen cs' more ∧
        maxQueuedPairs < (seen ++ more).length := by
  induction cs generalizing seen pending with
  | nil => cases h
  | cons child cs ih =>
      rw [enqueueAll] at h
      cases hone : enqueue g seen pending child with
      | ok out₁ =>
          obtain ⟨more₁, rfl, hq₁⟩ := enqueue_eq_ok hone
          rw [hone] at h
          rcases ih h with ⟨rfl, q, hq, hout⟩ | ⟨rfl, cs', more₂, hsub, hq₂, hlen⟩
          · exact .inl ⟨rfl, q, List.mem_cons_of_mem _ hq, hout⟩
          · refine .inr ⟨rfl, [child] ++ cs', more₁ ++ more₂, fun q hq => ?_, hq₁.append hq₂, ?_⟩
            · rcases List.mem_append.1 hq with hq | hq
              · exact List.mem_cons.2 (.inl (List.mem_singleton.1 hq))
              · exact List.mem_cons_of_mem _ (hsub q hq)
            · rwa [← List.append_assoc]
      | error e₁ =>
          rw [hone] at h
          cases h
          unfold enqueue at hone
          split_ifs at hone with hbounds hseen hfull
          · cases hone
            exact .inl ⟨rfl, child, List.mem_cons_self .., by simpa using hbounds⟩
          · cases hone
            refine .inr ⟨rfl, [child], [child], by simp, .fresh (SamePair.refl child)
              fun q hq hsame => hseen (containsPair_iff.2 ⟨q, hq, hsame⟩), ?_⟩
            rw [List.length_append, List.length_singleton]
            exact Nat.lt_succ_of_le hfull

theorem enqueueAll_append (cs cs' : List BlockPair) :
    enqueueAll g (cs ++ cs') seen pending =
      enqueueAll g cs seen pending >>= fun out => enqueueAll g cs' out.1 out.2 := by
  induction cs generalizing seen pending with
  | nil => rfl
  | cons child cs ih =>
      rw [List.cons_append, enqueueAll, enqueueAll]
      cases enqueue g seen pending child with
      | ok out => exact ih
      | error e => rfl

end Queue

/-! ## One visit -/

section Visit

variable {root p : BlockPair} {visited pending cs : List BlockPair} {pair : MetadataPair}
  {slots : Roster Slot} {e : Error}

/-- The state of a walk in front of its next visit. -/
abbrev Walking (g : Geometry) (d : Device) (follow : MetadataLog → Option BlockPair)
    (root : BlockPair) (visited pending : List BlockPair) : Prop :=
  Frontier SamePair (Link g d follow) root visited pending

theorem Walking.next (h : Walking g d follow root visited (p :: pending))
    (hpair : d.fetch g p = .ok pair) (hslots : gatherLiveSlots pair.reader = .ok slots)
    {out : List BlockPair × List BlockPair}
    (hout : enqueueAll g ((follow pair.reader).toList ++ childPairs slots)
      (visited ++ p :: pending) pending = .ok out) :
    ∃ rest, out = (visited ++ [p] ++ rest, rest) ∧
      Walking g d follow root (visited ++ [p]) rest := by
  obtain ⟨more, rfl, hq⟩ := enqueueAll_eq_ok hout
  exact ⟨pending ++ more, by simp, h.visit hq fun _ => link_iff hpair hslots⟩

/-- A visit that fails to queue links of its pair has met an obstacle. -/
theorem Walking.blocked (h : Walking g d follow root visited (p :: pending))
    (hlinks : ∀ q ∈ cs, Link g d follow p q) {queue : List BlockPair}
    (herr : enqueueAll g cs (visited ++ p :: pending) queue = .error e) :
    Obstacle g d follow root e := by
  rcases enqueueAll_eq_error herr with ⟨rfl, q, hq, hout⟩ | ⟨rfl, cs', more, hsub, hq, hlen⟩
  · exact .faulty (h.reached p (by simp)) (.outside (hlinks q hq) hout)
  · obtain ⟨hreached, hapart⟩ := h.extend hq fun q hq => hlinks q (hsub q hq)
    exact .full hreached hapart hlen

theorem Walking.unreadable (h : Walking g d follow root visited (p :: pending))
    (herr : d.fetch g p = .error e) : Obstacle g d follow root e :=
  .faulty (h.reached p (by simp)) (.unreadable herr)

theorem Walking.unplayable (h : Walking g d follow root visited (p :: pending))
    (hpair : d.fetch g p = .ok pair) (herr : gatherLiveSlots pair.reader = .error e) :
    Obstacle g d follow root e :=
  .faulty (h.reached p (by simp)) (.unplayable hpair herr)

theorem visits_left {fuel : ℕ} (p : BlockPair)
    (hfuel : visited.length + (fuel + 1) = maxQueuedPairs) :
    (visited ++ [p]).length + fuel = maxQueuedPairs := by
  rw [List.length_append, List.length_singleton]
  omega

/-- A walk that has used up its visits has more pairs than the queue holds. -/
theorem Walking.spent (h : Walking g d follow root visited (p :: pending))
    (hfuel : visited.length + 0 = maxQueuedPairs) : Obstacle g d follow root .outOfRange :=
  .full h.reached h.apart (by simp only [List.length_append, List.length_cons]; omega)

end Visit

/-! ## `collect_live_tree_pairs` -/

section Walks

variable {root : BlockPair} {visited pending : List BlockPair} {e : Error}

theorem collectTreeFrom_eq_ok (fuel : ℕ) (h : Walking g d MetadataLog.hardNext root visited pending)
    {tree : List BlockPair} (hok : collectTreeFrom g d fuel (visited ++ pending) pending =
      .ok tree) :
    Swept SamePair (Link g d MetadataLog.hardNext) root tree := by
  induction fuel generalizing visited pending with
  | zero =>
      cases pending with
      | nil =>
          cases hok
          rwa [List.append_nil]
      | cons p pending => cases hok
  | succ fuel ih =>
      cases pending with
      | nil =>
          cases hok
          rwa [List.append_nil]
      | cons p pending =>
          obtain ⟨pair, hpair, hok⟩ := bind_eq_ok.1 hok
          obtain ⟨out, hcont, hok⟩ := bind_eq_ok.1 hok
          obtain ⟨slots, hslots, hok⟩ := bind_eq_ok.1 hok
          obtain ⟨out', hchildren, hok⟩ := bind_eq_ok.1 hok
          have hall := (enqueueAll_append pair.reader.hardNext.toList (childPairs slots)).trans
            (bind_eq_ok.2 ⟨out, hcont, hchildren⟩)
          obtain ⟨rest, rfl, hnext⟩ := h.next hpair hslots hall
          exact ih hnext hok

theorem collectTreeFrom_eq_error (fuel : ℕ)
    (h : Walking g d MetadataLog.hardNext root visited pending)
    (hfuel : visited.length + fuel = maxQueuedPairs)
    (herr : collectTreeFrom g d fuel (visited ++ pending) pending = .error e) :
    Obstacle g d MetadataLog.hardNext root e := by
  induction fuel generalizing visited pending with
  | zero =>
      cases pending with
      | nil => cases herr
      | cons p pending =>
          cases herr
          exact h.spent hfuel
  | succ fuel ih =>
      cases pending with
      | nil => cases herr
      | cons p pending =>
          rcases bind_eq_error.1 herr with herr | ⟨pair, hpair, herr⟩
          · exact h.unreadable herr
          rcases bind_eq_error.1 herr with herr | ⟨out, hcont, herr⟩
          · exact h.blocked (fun q hq => .tail hpair (Option.mem_toList.1 hq)) herr
          rcases bind_eq_error.1 herr with herr | ⟨slots, hslots, herr⟩
          · exact h.unplayable hpair herr
          have happend := @enqueueAll_append g (visited ++ p :: pending) pending
            pair.reader.hardNext.toList (childPairs slots)
          rcases bind_eq_error.1 herr with herr | ⟨out', hchildren, herr⟩
          · exact h.blocked (fun q hq => (link_iff hpair hslots).2 hq)
              (happend.trans (bind_eq_error.2 (.inr ⟨out, hcont, herr⟩)))
          · obtain ⟨rest, rfl, hnext⟩ := h.next hpair hslots
              (happend.trans (bind_eq_ok.2 ⟨out, hcont, hchildren⟩))
            exact ih hnext (visits_left p hfuel) herr

/-! ## `accumulate_gstate` -/

/-- A pair's contribution to the global state. -/
def Gstate.gather (st : Gstate) (l : MetadataLog) : Gstate :=
  (st.xorBody (scanPairMoveState l)).xorRelocateBody (scanPairRelocateState l)

/-- A pair's contribution to the global state, as the device holds it. -/
def Device.addState (g : Geometry) (d : Device) (st : Gstate) (p : BlockPair) : Gstate :=
  match d.fetch g p with
  | .ok pair => st.gather pair.reader
  | .error _ => st

/-- The XOR of what some pairs contribute. -/
def Device.stateOf (g : Geometry) (d : Device) (pairs : List BlockPair) : Gstate :=
  pairs.foldl (d.addState g) {}

theorem Device.stateOf_snoc {pair : MetadataPair} {p : BlockPair} (hpair : d.fetch g p = .ok pair)
    (pairs : List BlockPair) :
    d.stateOf g (pairs ++ [p]) = (d.stateOf g pairs).gather pair.reader := by
  simp only [Device.stateOf, List.foldl_append, List.foldl_cons, List.foldl_nil, Device.addState,
    hpair]

theorem accumulateFrom_eq_ok (fuel : ℕ) (h : Walking g d MetadataLog.tail root visited pending)
    {state st : Gstate} (hstate : state = d.stateOf g visited)
    (hok : accumulateFrom g d fuel (visited ++ pending) pending state = .ok st) :
    ∃ pairs, Swept SamePair (Link g d MetadataLog.tail) root pairs ∧ st = d.stateOf g pairs := by
  induction fuel generalizing visited pending state with
  | zero =>
      cases pending with
      | nil =>
          cases hok
          exact ⟨visited, h, hstate⟩
      | cons p pending => cases hok
  | succ fuel ih =>
      cases pending with
      | nil =>
          cases hok
          exact ⟨visited, h, hstate⟩
      | cons p pending =>
          obtain ⟨pair, hpair, hok⟩ := bind_eq_ok.1 hok
          obtain ⟨slots, hslots, hok⟩ := bind_eq_ok.1 hok
          obtain ⟨out, hout, hok⟩ := bind_eq_ok.1 hok
          obtain ⟨rest, rfl, hnext⟩ := h.next hpair hslots hout
          refine ih hnext ?_ hok
          rw [Device.stateOf_snoc hpair, hstate]
          rfl

theorem accumulateFrom_eq_error (fuel : ℕ) (h : Walking g d MetadataLog.tail root visited pending)
    (hfuel : visited.length + fuel = maxQueuedPairs) {state : Gstate}
    (herr : accumulateFrom g d fuel (visited ++ pending) pending state = .error e) :
    Obstacle g d MetadataLog.tail root e := by
  induction fuel generalizing visited pending state with
  | zero =>
      cases pending with
      | nil => cases herr
      | cons p pending =>
          cases herr
          exact h.spent hfuel
  | succ fuel ih =>
      cases pending with
      | nil => cases herr
      | cons p pending =>
          rcases bind_eq_error.1 herr with herr | ⟨pair, hpair, herr⟩
          · exact h.unreadable herr
          rcases bind_eq_error.1 herr with herr | ⟨slots, hslots, herr⟩
          · exact h.unplayable hpair herr
          rcases bind_eq_error.1 herr with herr | ⟨out, hout, herr⟩
          · exact h.blocked (fun q hq => (link_iff hpair hslots).2 hq) herr
          · obtain ⟨rest, rfl, hnext⟩ := h.next hpair hslots hout
            exact ih hnext (visits_left p hfuel) herr

/-- The two walks over the forest are exact.  The accumulated state is the XOR over exactly the
pairs that the root reaches, every physical pair once; the collected tree is exactly the pairs
that it reaches without soft tails; and neither fails but at an obstacle. -/
theorem forest_walks_exact (g : Geometry) (d : Device) (root : BlockPair) :
    (match accumulateGstate g d root with
      | .ok st => ∃ pairs, Swept SamePair (Link g d MetadataLog.tail) root pairs ∧
          st = d.stateOf g pairs
      | .error e => Obstacle g d MetadataLog.tail root e) ∧
    (match collectLiveTreePairs g d root with
      | .ok tree => Swept SamePair (Link g d MetadataLog.hardNext) root tree
      | .error e => Obstacle g d MetadataLog.hardNext root e) := by
  constructor
  · have hstart : Walking g d MetadataLog.tail root [] [root] := .start
    cases h : accumulateGstate g d root with
    | ok st => exact accumulateFrom_eq_ok maxQueuedPairs hstart rfl h
    | error e => exact accumulateFrom_eq_error maxQueuedPairs hstart (Nat.zero_add _) h
  · have hstart : Walking g d MetadataLog.hardNext root [] [root] := .start
    cases h : collectLiveTreePairs g d root with
    | ok tree => exact collectTreeFrom_eq_ok maxQueuedPairs hstart h
    | error e => exact collectTreeFrom_eq_error maxQueuedPairs hstart (Nat.zero_add _) h

/-! ## `find_parent_in_tree` -/

/-- A live entry of a pair, by its id, names a pair. -/
def NamesAt (g : Geometry) (d : Device) (p : BlockPair) (id : ℕ) (target : BlockPair) : Prop :=
  ∃ pair slots s, d.fetch g p = .ok pair ∧ gatherLiveSlots pair.reader = .ok slots ∧
    slots.live[id]? = some s ∧ s.childPair = some target

/-- The search of a pair's entries: the id of the first that names the target, or the queue
behind all of them. -/
theorem findParentSlots_eq_ok {target : BlockPair} {ss : List Slot} {i : ℕ}
    {seen : List BlockPair} {r : ℕ ⊕ (List BlockPair × List BlockPair)}
    (h : findParentSlots g target ss i seen pending = .ok r) :
    (∃ k s, r = .inl (i + k) ∧ ss[k]? = some s ∧ s.childPair = some target) ∨
      ∃ out, r = .inr out ∧ enqueueAll g (ss.filterMap Slot.childPair) seen pending = .ok out ∧
        ∀ s ∈ ss, s.childPair ≠ some target := by
  induction ss generalizing i seen pending with
  | nil =>
      cases h
      exact .inr ⟨_, rfl, rfl, by simp⟩
  | cons s ss ih =>
      rw [findParentSlots] at h
      cases hchild : s.childPair with
      | none =>
          rw [hchild] at h
          rcases ih h with ⟨k, s', rfl, hs', hnames⟩ | ⟨out, rfl, hout, hnone⟩
          · exact .inl ⟨k + 1, s', by rw [Nat.add_assoc, Nat.add_comm 1], hs', hnames⟩
          · refine .inr ⟨out, rfl, by rwa [List.filterMap_cons_none hchild], ?_⟩
            rw [List.forall_mem_cons]
            exact ⟨by simp [hchild], hnone⟩
      | some child =>
          rw [hchild] at h
          simp only at h
          split_ifs at h with heq
          · cases h
            exact .inl ⟨0, s, rfl, rfl, heq ▸ hchild⟩
          · obtain ⟨⟨seen', pending'⟩, hone, h⟩ := bind_eq_ok.1 h
            rcases ih h with ⟨k, s', rfl, hs', hnames⟩ | ⟨out, rfl, hout, hnone⟩
            · exact .inl ⟨k + 1, s', by rw [Nat.add_assoc, Nat.add_comm 1], hs', hnames⟩
            · refine .inr ⟨out, rfl, ?_, ?_⟩
              · rw [List.filterMap_cons_some hchild, enqueueAll]
                exact bind_eq_ok.2 ⟨(seen', pending'), hone, hout⟩
              · rw [List.forall_mem_cons]
                exact ⟨by simpa [hchild] using heq, hnone⟩

theorem findParentSlots_eq_error {target : BlockPair} {ss : List Slot} {i : ℕ}
    {seen : List BlockPair} (h : findParentSlots g target ss i seen pending = .error e) :
    enqueueAll g (ss.filterMap Slot.childPair) seen pending = .error e := by
  induction ss generalizing i seen pending with
  | nil => cases h
  | cons s ss ih =>
      rw [findParentSlots] at h
      cases hchild : s.childPair with
      | none =>
          rw [hchild] at h
          rw [List.filterMap_cons_none hchild]
          exact ih h
      | some child =>
          rw [hchild] at h
          simp only at h
          split_ifs at h with heq
          rw [List.filterMap_cons_some hchild, enqueueAll]
          rcases bind_eq_error.1 h with h | ⟨⟨seen', pending'⟩, hone, h⟩
          · exact bind_eq_error.2 (.inl h)
          · exact bind_eq_error.2 (.inr ⟨(seen', pending'), hone, ih h⟩)

/-- What the search for a parent hands out. -/
def Parent (g : Geometry) (d : Device) (root target : BlockPair) : Option (BlockPair × ℕ) → Prop
  | some (p, id) => Leads g d MetadataLog.tail root p ∧ NamesAt g d p id target
  | none => ∃ pairs, Swept SamePair (Link g d MetadataLog.tail) root pairs ∧
      ∀ p ∈ pairs, ∀ id, ¬ NamesAt g d p id target

theorem findParentFrom_eq_ok {target : BlockPair} (fuel : ℕ)
    (h : Walking g d MetadataLog.tail root visited pending)
    (hnone : ∀ p ∈ visited, ∀ id, ¬ NamesAt g d p id target) {r : Option (BlockPair × ℕ)}
    (hok : findParentFrom g d target fuel (visited ++ pending) pending = .ok r) :
    Parent g d root target r := by
  induction fuel generalizing visited pending with
  | zero =>
      cases pending with
      | nil =>
          cases hok
          exact ⟨visited, h, hnone⟩
      | cons p pending => cases hok
  | succ fuel ih =>
      cases pending with
      | nil =>
          cases hok
          exact ⟨visited, h, hnone⟩
      | cons p pending =>
          obtain ⟨pair, hpair, hok⟩ := bind_eq_ok.1 hok
          obtain ⟨slots, hslots, hok⟩ := bind_eq_ok.1 hok
          obtain ⟨out, htail, hok⟩ := bind_eq_ok.1 hok
          obtain ⟨found, hfound, hok⟩ := bind_eq_ok.1 hok
          rcases findParentSlots_eq_ok hfound with ⟨k, s, rfl, hs, hnames⟩ |
            ⟨out', rfl, hchildren, hothers⟩
          · cases hok
            exact ⟨h.reached p (by simp), pair, slots, s, hpair, hslots, by rwa [Nat.zero_add],
              hnames⟩
          · have hall := (enqueueAll_append pair.reader.tail.toList (childPairs slots)).trans
              (bind_eq_ok.2 ⟨out, htail, hchildren⟩)
            obtain ⟨rest, rfl, hnext⟩ := h.next hpair hslots hall
            refine ih hnext (fun q hq id => ?_) hok
            rcases List.mem_append.1 hq with hq | hq
            · exact hnone q hq id
            · cases List.mem_singleton.1 hq
              rintro ⟨pair', slots', s, hpair', hslots', hs, hnames⟩
              cases hpair.symm.trans hpair'
              cases hslots.symm.trans hslots'
              exact hothers s (List.mem_of_getElem? hs) hnames

theorem findParentFrom_eq_error {target : BlockPair} (fuel : ℕ)
    (h : Walking g d MetadataLog.tail root visited pending)
    (hfuel : visited.length + fuel = maxQueuedPairs)
    (herr : findParentFrom g d target fuel (visited ++ pending) pending = .error e) :
    Obstacle g d MetadataLog.tail root e := by
  induction fuel generalizing visited pending with
  | zero =>
      cases pending with
      | nil => cases herr
      | cons p pending =>
          cases herr
          exact h.spent hfuel
  | succ fuel ih =>
      cases pending with
      | nil => cases herr
      | cons p pending =>
          rcases bind_eq_error.1 herr with herr | ⟨pair, hpair, herr⟩
          · exact h.unreadable herr
          rcases bind_eq_error.1 herr with herr | ⟨slots, hslots, herr⟩
          · exact h.unplayable hpair herr
          have happend := @enqueueAll_append g (visited ++ p :: pending) pending
            pair.reader.tail.toList (childPairs slots)
          have hlinks : ∀ q ∈ pair.reader.tail.toList ++ childPairs slots,
              Link g d MetadataLog.tail p q := fun q hq => (link_iff hpair hslots).2 hq
          rcases bind_eq_error.1 herr with herr | ⟨out, htail, herr⟩
          · exact h.blocked hlinks (happend.trans (bind_eq_error.2 (.inl herr)))
          rcases bind_eq_error.1 herr with herr | ⟨found, hfound, herr⟩
          · exact h.blocked hlinks (happend.trans
              (bind_eq_error.2 (.inr ⟨out, htail, findParentSlots_eq_error herr⟩)))
          rcases findParentSlots_eq_ok hfound with ⟨k, s, rfl, -⟩ | ⟨out', rfl, hchildren, -⟩
          · cases herr
          · obtain ⟨rest, rfl, hnext⟩ := h.next hpair hslots
              (happend.trans (bind_eq_ok.2 ⟨out, htail, hchildren⟩))
            exact ih hnext (visits_left p hfuel) herr

end Walks

/-! ## `find_thread_predecessor` -/

/-- One pair of the thread and the next. -/
def ThreadLink (g : Geometry) (d : Device) (p q : BlockPair) : Prop :=
  ∃ pair, d.fetch g p = .ok pair ∧ pair.reader.tail = some q

/-- A stretch of the thread, by its number of links, none of which leads to the target. -/
inductive Passes (g : Geometry) (d : Device) (target : BlockPair) : BlockPair → ℕ → BlockPair → Prop
  | here {p : BlockPair} : Passes g d target p 0 p
  | link {p q r : BlockPair} {n : ℕ} (hlink : ThreadLink g d p q) (hq : q ≠ target)
      (h : Passes g d target q n r) : Passes g d target p (n + 1) r

/-- What the walk along the thread hands out. -/
def Predecessor (g : Geometry) (d : Device) (target : BlockPair) (fuel : ℕ) (start : BlockPair) :
    Except Error (Option TailLink) → Prop
  | .ok (some (pred, hard)) => ∃ n pair, n < fuel ∧ Passes g d target start n pred ∧
      d.fetch g pred = .ok pair ∧ pair.reader.tail = some target ∧ hard = pair.reader.isHardTail
  | .ok none => ∃ n last pair, n < fuel ∧ Passes g d target start n last ∧
      d.fetch g last = .ok pair ∧ pair.reader.tail = none
  | .error e => (∃ n p, n < fuel ∧ Passes g d target start n p ∧ d.fetch g p = .error e) ∨
      e = .outOfRange ∧ ∃ p, Passes g d target start fuel p

theorem Predecessor.behind {p q target : BlockPair} {fuel : ℕ} (hlink : ThreadLink g d p q)
    (hq : q ≠ target) {r : Except Error (Option TailLink)}
    (h : Predecessor g d target fuel q r) : Predecessor g d target (fuel + 1) p r := by
  rcases r with e | _ | ⟨pred, hard⟩
  · rcases h with ⟨n, q', hn, hpass, herr⟩ | ⟨he, q', hpass⟩
    · exact .inl ⟨n + 1, q', Nat.succ_lt_succ hn, .link hlink hq hpass, herr⟩
    · exact .inr ⟨he, q', .link hlink hq hpass⟩
  · obtain ⟨n, last, pair, hn, hpass, hpair⟩ := h
    exact ⟨n + 1, last, pair, Nat.succ_lt_succ hn, .link hlink hq hpass, hpair⟩
  · obtain ⟨n, pair, hn, hpass, hpair⟩ := h
    exact ⟨n + 1, pair, Nat.succ_lt_succ hn, .link hlink hq hpass, hpair⟩

theorem findPredecessorFrom_spec (target : BlockPair) (fuel : ℕ) (p : BlockPair) :
    Predecessor g d target fuel p (findPredecessorFrom g d target fuel p) := by
  induction fuel generalizing p with
  | zero => exact .inr ⟨rfl, p, .here⟩
  | succ fuel ih =>
      rw [findPredecessorFrom]
      cases hpair : d.fetch g p with
      | error e => exact .inl ⟨0, p, Nat.succ_pos _, .here, hpair⟩
      | ok pair =>
          simp only [bind, Except.bind]
          cases htail : pair.reader.tail with
          | none => exact ⟨0, p, pair, Nat.succ_pos _, .here, hpair, htail⟩
          | some q =>
              simp only
              split_ifs with heq
              · exact ⟨0, pair, Nat.succ_pos _, .here, hpair, heq ▸ htail, rfl⟩
              · exact (ih q).behind ⟨pair, hpair, htail⟩ heq

/-- The two lookups of a relocation are exact: a parent that is found is reached and has a live
entry that names the target, and when none is found no entry of any reached pair does; a thread
predecessor that is found is the first pair of the thread whose tail is the target, and when none
is found the thread ends without one. -/
theorem relocation_lookups_exact (g : Geometry) (d : Device) (root target : BlockPair) :
    (match findParentInTree g d root target with
      | .ok r => Parent g d root target r
      | .error e => Obstacle g d MetadataLog.tail root e) ∧
    Predecessor g d target maxQueuedPairs root (findThreadPredecessor g d root target) := by
  refine ⟨?_, findPredecessorFrom_spec ..⟩
  have hstart : Walking g d MetadataLog.tail root [] [root] := .start
  cases h : findParentInTree g d root target with
  | ok r => exact findParentFrom_eq_ok maxQueuedPairs hstart (by simp) h
  | error e => exact findParentFrom_eq_error maxQueuedPairs hstart (Nat.zero_add _) h

/-! ## A mount of a settled device -/

/-- Some accumulation of the state is pending. -/
def Pending (g : Geometry) (d : Device) (root : BlockPair) : Prop :=
  ∃ pairs, Swept SamePair (Link g d MetadataLog.tail) root pairs ∧
    ((d.stateOf g pairs).pendingMove ≠ none ∨ (d.stateOf g pairs).pendingRelocation ≠ none)

/-- Some pair of the thread is no pair of the tree. -/
def Orphaned (g : Geometry) (d : Device) (root : BlockPair) : Prop :=
  ∃ tree p q, Swept SamePair (Link g d MetadataLog.hardNext) root tree ∧
    Relation.ReflTransGen (ThreadLink g d) root p ∧ ThreadLink g d p q ∧
    ∀ r ∈ tree, ¬ SamePair r q

section Mount

variable {root : BlockPair} {depth : ℕ}

/-- A triple for a program that makes no device call. -/
abbrev Quiet {α : Type} (P : Fs → Prop) (m : FsM α) (Q : α → Fs → Prop) : Prop :=
  Triple (fun _ => True) (fun _ => False) P m Q fun _ s => s.device = d

/-- The sweep goes along the thread without a device call as long as it stays in the tree. -/
theorem quiet_deorphanFrom {tree : List BlockPair}
    (hthread : ∀ p q, Relation.ReflTransGen (ThreadLink g d) root p → ThreadLink g d p q →
      containsPair tree q = true) (fuel : ℕ) {cur : BlockPair} (visited : List BlockPair)
    (hcur : Relation.ReflTransGen (ThreadLink g d) root cur) :
    Quiet (d := d) (fun s => s.device = d) (deorphanFrom g depth tree fuel cur visited)
      fun _ s => s.device = d := by
  induction fuel generalizing cur visited with
  | zero => exact Triple.pure fun _ hs => hs
  | succ fuel ih =>
      rw [deorphanFrom]
      refine Triple.bind (R := fun p s => s.device = d ∧ d.fetch g cur = .ok p)
        (Triple.query (fun s p hs hp => ⟨hs, hs ▸ hp⟩) fun s e hs _ => hs) fun p =>
          Triple.pre fun hp => ?_
      cases htail : p.reader.tail with
      | none => exact Triple.pure fun _ hs => hs
      | some next =>
          have hlink : ThreadLink g d cur next := ⟨p, hp, htail⟩
          simp only [hthread cur next hcur hlink, if_true]
          refine Triple.ite (fun _ => Triple.pure fun _ hs => hs) fun _ => ?_
          exact ih _ (hcur.tail hlink)

theorem quiet_deorphanSweep (h : ¬ Orphaned g d root) :
    Quiet (d := d) (fun s => s.device = d ∧ s.root = root) (deorphanSweep g depth)
      fun _ s => s.device = d := by
  refine Triple.get_bind fun s hs => ?_
  obtain ⟨hdevice, hroot⟩ := hs
  subst hdevice
  subst hroot
  refine Triple.bind (R := fun tree s' => s'.device = s.device ∧
      collectLiveTreePairs g s.device s.root = .ok tree)
    (Triple.query (fun s' tree hs htree => ⟨congrArg _ hs, hs ▸ htree⟩)
      fun s' e hs _ => congrArg _ hs) fun tree => Triple.pre fun htree => ?_
  refine quiet_deorphanFrom (fun p q hp hlink => ?_) _ _ .refl
  by_contra hq
  have hstart : Walking g s.device MetadataLog.hardNext s.root [] [s.root] := .start
  refine h ⟨tree, p, q, collectTreeFrom_eq_ok maxQueuedPairs hstart htree, hp, hlink,
    fun r hr hsame => hq ?_⟩
  exact containsPair_iff.2 ⟨r, hr, hsame⟩

/-- A mount makes a device call only for a reason on the device: a move or a relocation is
pending, or a pair of the thread is no pair of the tree.  On every other device it writes
nothing. -/
theorem mount_writes_for_a_reason (g : Geometry) (depth : ℕ) (s : Fs) :
    (mount g depth s).events = [] ∧ (mount g depth s).state.device = s.device ∨
      Pending g s.device rootBlockPair ∨ Orphaned g s.device rootBlockPair := by
  by_contra hno
  push Not at hno
  obtain ⟨hloud, hpending, horphaned⟩ := hno
  have hquiet : Quiet (d := s.device) (fun s' => s'.device = s.device) (mount g depth)
      fun _ s' => s'.device = s.device := by
    refine Triple.bind (R := fun _ s' => s'.device = s.device)
      (Triple.query (fun s' _ hs _ => hs) fun s' _ hs _ => hs) fun sb => ?_
    refine Triple.seq (R := fun s' => s'.device = s.device ∧ s'.root = rootBlockPair)
      (Triple.modify fun s' hs => ⟨hs, rfl⟩) ?_
    refine Triple.bind (R := fun st s' => (s'.device = s.device ∧ s'.root = rootBlockPair) ∧
        accumulateGstate g s.device rootBlockPair = .ok st)
      (Triple.query (fun s' st hs hst => ⟨hs, hs.1 ▸ hst⟩) fun s' _ hs _ => hs.1) fun st =>
        Triple.pre fun hst => ?_
    have hstart : Walking g s.device MetadataLog.tail rootBlockPair [] [rootBlockPair] := .start
    obtain ⟨pairs, hpairs, rfl⟩ := accumulateFrom_eq_ok maxQueuedPairs hstart rfl hst
    have hnone : (s.device.stateOf g pairs).pendingMove = none ∧
        (s.device.stateOf g pairs).pendingRelocation = none := by
      by_contra hsome
      exact hpending ⟨pairs, hpairs, by tauto⟩
    rw [recoverMoveOf, recoverRelocationOf, hnone.1, hnone.2]
    exact Triple.seq (Triple.pure fun _ hs => hs)
      (Triple.seq (Triple.pure fun _ hs => hs) (quiet_deorphanSweep horphaned))
  obtain ⟨hevents, -⟩ := hquiet.post s rfl fun _ _ => trivial
  have hnil : (mount g depth s).events = [] := List.eq_nil_iff_forall_not_mem.2 hevents
  exact hloud hnil (hquiet.ends (fun _ _ => id) (fun _ _ => id) rfl fun _ _ => trivial)

end Mount

end LittlefsPure
