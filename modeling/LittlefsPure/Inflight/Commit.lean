import LittlefsPure.Inflight.Shield

/-!
# Blocks in flight and the commit engine

Each function of the commit engine keeps the blocks in flight shielded, and a commit
that succeeds leaves none.  A rebuild that moves its pair hands the fresh block on to
the commit that announces it; a split whose lower half moves drops its continuations
from that list, which is what `Event.Tracked` rules out.

## Why the continuations are the hard case

A split writes its continuations first and publishes them with the lower half.  In between, the
lower half may find its block worn and move, and the pair's new address has to be announced to the
parent, which is another commit with allocations of its own.  The source hands that commit the
list of blocks in flight that it was given, and the continuations are not in it.  So this one call
is where a block in flight may be taken; every other call hands on what it has.

## How the invariant is carried

`MovedTo` says where the fresh block of a moved pair is in the list, `Engaged` what a loop over
candidates has tried so far.  A commit that fails leaves the chain it was handed `Afloat`: one of
the commits it caused has landed and published the chain, or the chain is where it was.  A handle
whose `sync` failed starts its next call from there.  Each function of the engine has one triple,
and the commit cycle is closed by induction on its depth.
-/

namespace LittlefsPure

open FsM Logic

variable {g : Geometry}

/-- The block of a pair's new address that the old one does not have, as
`propagate_relocation` finds it. -/
def BlockPair.freshOf (old new : BlockPair) : ℕ := if old.a = new.a then new.b else new.a

theorem BlockPair.freshOf_replace {p : BlockPair} {victim fresh : ℕ} (hvictim : p.Holds victim)
    (hfresh : ¬ p.Holds fresh) : p.freshOf (p.replace victim fresh) = fresh := by
  have ha : p.a ≠ fresh := fun h => hfresh (.inl h.symm)
  unfold freshOf replace
  by_cases hv : p.a = victim
  · rw [if_pos hv, if_neg ha]
  · have hb : p.b = victim := by
      rcases hvictim with h | h
      · exact absurd h.symm hv
      · exact h.symm
    rw [if_neg hv, if_pos rfl, if_pos hb]

/-! ## What stays while a pair is rewritten -/

/-- The blocks of the pair are not in flight, the root stays, the blocks that were in flight
before still are, and a chain that has landed is not in flight again. -/
structure Steady (pair root : BlockPair) (kept : List ℕ) (landed : Prop) (s : Fs) : Prop where
  apart : ∀ b ∈ s.unpublished.blocks, ¬ pair.Holds b
  root : s.root = root
  kept : ∀ b ∈ kept, b ∈ s.unpublished.blocks
  chain : landed → s.unpublished.chain = none

/-- What is left of the shield when the account is not trusted: enough to restore it. -/
structure Restorable (g : Geometry) (chain : Option (ℕ × ℕ)) (upper : List ℕ) (root : BlockPair)
    (kept : List ℕ) (landed : Prop) (s : Fs) : Prop where
  cached : ∀ b ∈ kept, s.Cached b
  chained : UpperChain g s.device chain upper
  root : s.root = root
  landed : landed → s.unpublished.chain = none

/-- Nothing is in flight: what the operation has built is published. -/
def Published (s : Fs) : Prop := s.unpublished = {}

/-- What a commit is handed: everything in flight is shielded, and a chain that has landed is not
in flight. -/
def Entrusted (g : Geometry) (inflight : Inflight) (upper : List ℕ) (landed : Prop) (s : Fs) :
    Prop :=
  Shielded g inflight.blocks inflight.chain upper s ∧ (landed → s.unpublished.chain = none)

/-- One more block that is handed over. -/
def Inflight.push (inflight : Inflight) (b : ℕ) : Inflight :=
  ⟨inflight.blocks ++ [b], inflight.chain⟩

/-- What a commit that fails leaves of the chain it was handed: a commit that it caused has
landed and published the chain, or the chain is where it was and the cache knows of it. -/
def Afloat (g : Geometry) (chain : Option (ℕ × ℕ)) (upper : List ℕ) (landed : Prop) (s : Fs) :
    Prop :=
  s.unpublished.chain = none ∨
    ¬ landed ∧ (∀ b ∈ upper, s.Cached b) ∧ UpperChain g s.device chain upper

/-- A block the operation has allocated and not programmed yet. -/
structure Candidate (pair : BlockPair) (upper kept : List ℕ) (b : ℕ) (s : Fs) : Prop where
  free : b ∉ s.unpublished.blocks
  cached : s.Cached b
  apart : ¬ pair.Holds b
  upper : b ∉ upper
  kept : b ∉ kept

section Engine

variable {known excluded upper kept : List ℕ} {chain : Option (ℕ × ℕ)} {pair root : BlockPair}
  {landed : Prop}

variable (pair root kept landed) in
theorem Steady.cacheFree : CacheFree (Steady pair root kept landed) :=
  fun _ _ h => ⟨h.apart, h.root, h.kept, h.chain⟩

theorem WritesOnly.steady {addr : ℕ} {s s' : Fs} (h : WritesOnly addr s s')
    (hs : Steady pair root kept landed s) : Steady pair root kept landed s' := by
  refine ⟨?_, h.root.trans hs.root, ?_, ?_⟩
  · rw [h.unpublished]
    exact hs.apart
  · rw [h.unpublished]
    exact hs.kept
  · rw [h.unpublished]
    exact hs.chain

theorem WritesOnly.candidate {addr b : ℕ} {s s' : Fs} (h : WritesOnly addr s s')
    (hs : Candidate pair upper kept b s) : Candidate pair upper kept b s' := by
  refine ⟨?_, fun used hused => ?_, hs.apart, hs.upper, hs.kept⟩
  · rw [h.unpublished]
    exact hs.free
  · rw [h.usedCache] at hused
    exact hs.cached used hused

theorem Shielded.restorable {s : Fs} (h : Shielded g known chain upper s)
    (hs : Steady pair root kept landed s) : Restorable g chain upper root kept landed s :=
  ⟨fun b hb => h.cached b (hs.kept b hb), h.chained, hs.root, hs.chain⟩

theorem Fresh.candidate {want b : ℕ} {blocks : List ℕ} {s : Fs}
    (h : Fresh g excluded chain want blocks s)
    (hshield : Shielded g known chain upper s) (hs : Steady pair root kept landed s)
    (hpair : ∀ x, pair.Holds x → x ∈ excluded) (hb : b ∈ blocks) :
    Candidate pair upper kept b s where
  free := h.free b hb
  cached := h.cached b hb
  apart := fun hholds => h.avoids b hb (hpair b hholds)
  upper := fun hmem => h.free b hb (hshield.held b hmem)
  kept := fun hmem => h.free b hb (hs.kept b hmem)

/-- The shield and the frame together, as the engine keeps them. -/
def Engaged (g : Geometry) (known : List ℕ) (chain : Option (ℕ × ℕ)) (upper : List ℕ)
    (pair root : BlockPair) (kept : List ℕ) (landed : Prop) (s : Fs) : Prop :=
  Shielded g known chain upper s ∧ Steady pair root kept landed s

theorem Engaged.dropCache {s : Fs} (h : Engaged g known chain upper pair root kept landed s) :
    Engaged g known chain upper pair root kept landed { s with usedCache := none } :=
  ⟨h.1.dropCache, h.2.apart, h.2.root, h.2.kept, h.2.chain⟩

theorem WritesOnly.engaged {addr : ℕ} {s s' : Fs} (h : WritesOnly addr s s')
    (hs : Engaged g known chain upper pair root kept landed s) (haddr : addr ∉ upper) :
    Engaged g known chain upper pair root kept landed s' :=
  ⟨h.shielded hs.1 haddr, h.steady hs.2⟩

theorem Shielded.afloat {s : Fs} (h : Shielded g known chain upper s)
    (hchain : landed → s.unpublished.chain = none) : Afloat g chain upper landed s := by
  by_cases hl : landed
  · exact .inl (hchain hl)
  · exact .inr ⟨hl, fun b hb => h.cached b (h.held b hb), h.chained⟩

theorem Entrusted.dropCache {inflight : Inflight} {s : Fs}
    (h : Entrusted g inflight upper landed s) :
    Entrusted g inflight upper landed { s with usedCache := none } :=
  ⟨h.1.dropCache, h.2⟩

theorem Entrusted.afloat {inflight : Inflight} {s : Fs} (h : Entrusted g inflight upper landed s) :
    Afloat g inflight.chain upper landed s :=
  h.1.afloat h.2

theorem Engaged.afloat {s : Fs} (h : Engaged g known chain upper pair root kept landed s) :
    Afloat g chain upper landed s :=
  h.1.afloat h.2.chain

theorem Restorable.afloat {s : Fs} (h : Restorable g chain upper root kept landed s)
    (hheld : ∀ b ∈ upper, b ∈ kept) : Afloat g chain upper landed s := by
  by_cases hl : landed
  · exact .inl (h.landed hl)
  · exact .inr ⟨hl, fun b hb => h.cached b (hheld b hb), h.chained⟩

/-- Once the chain has landed, whatever follows leaves it so. -/
theorem Afloat.of_landed {chain' : Option (ℕ × ℕ)} {s : Fs} (h : Afloat g chain' [] True s) :
    Afloat g chain upper landed s :=
  .inl (h.resolve_right fun h => h.1 True.intro)

theorem Published.settled {s : Fs} (h : Published s) : Settled s := by
  rw [Published] at h
  constructor <;> rw [h]

theorem Published.unchained {s : Fs} (h : Published s) : s.unpublished.chain = none := by rw [h]

/-- A candidate that has been programmed is in flight. -/
theorem Engaged.hold {b : ℕ} {s : Fs} (h : Engaged g known chain upper pair root kept landed s)
    (hcached : s.Cached b) (hb : ¬ pair.Holds b) :
    Engaged g (known ++ [b]) chain upper pair root kept landed
      { s with unpublished := { s.unpublished with blocks := s.unpublished.blocks ++ [b] } } := by
  refine ⟨h.1.hold (List.forall_mem_singleton.2 hcached), fun x hx => ?_, h.2.root, fun x hx => ?_,
    h.2.chain⟩
  · rcases List.mem_append.1 hx with hx | hx
    · exact h.2.apart x hx
    · rw [List.mem_singleton.1 hx]
      exact hb
  · exact List.mem_append_left _ (h.2.kept x hx)

variable {E : Fs → Prop}

theorem guarded_invalidateAllocCache {P Q : Fs → Prop}
    (h : ∀ s, P s → Q { s with usedCache := none }) :
    Guarded g P invalidateAllocCache (fun _ => Q) E :=
  Triple.modify h

theorem guarded_fitExcluded {P : Fs → Prop} (capacity : ℕ) (blocks : List ℕ)
    (hE : ∀ s, P s → E s) : Guarded g P (fitExcluded capacity blocks) (fun _ => P) E :=
  Triple.ite (fun _ => Triple.fail hE) fun _ => Triple.pure fun _ h => h

theorem guarded_buildRange {P : Fs → Prop} (r : Rebuild) (lo hi : ℕ) (hE : ∀ s, P s → E s) :
    Guarded g P (buildRange g r lo hi) (fun _ => P) E := by
  refine Triple.bind (R := fun _ => P) (Triple.lift (fun _ _ h _ => h) fun s _ h _ => hE s h)
    fun l => ?_
  exact Triple.seq (R := P) (Triple.note fun _ h _ => ⟨True.intro, h⟩) (Triple.pure fun _ h => h)

/-! ## Relocation to a fresh block -/

theorem guarded_freshOrSeed (seed : Option ℕ) (hknown : ∀ b ∈ known, b ∈ excluded)
    (hpair : ∀ b, pair.Holds b → b ∈ excluded)
    (hE : ∀ s, Engaged g known chain upper pair root kept landed s → E s) :
    Guarded g (fun s => Engaged g known chain upper pair root kept landed s ∧
        ∀ f, seed = some f → Candidate pair upper kept f s)
      (freshOrSeed g seed excluded chain)
      (fun f s => Engaged g known chain upper pair root kept landed s ∧
        Candidate pair upper kept f s) E := by
  cases seed with
  | some f => exact Triple.pure fun s hs => ⟨hs.1, hs.2 f rfl⟩
  | none =>
      have halloc := guarded_allocOneBlock (g := g) known upper chain hknown
        (Steady.cacheFree kept pair root landed)
        fun s h h' => hE s ⟨h, h'⟩
      refine Triple.conseq halloc (fun s hs => hs.1) (fun f s hs => ?_) fun _ _ h => h
      obtain ⟨hshield, hsteady, hfresh⟩ := hs
      exact ⟨⟨hshield, hsteady⟩,
        hfresh.candidate hshield hsteady hpair (List.mem_singleton_self f)⟩

/-- The retry loop of a relocation ends with the fresh block in flight and handed over. -/
theorem guarded_relocateLoop {victim : ℕ} (hvictim : pair.Holds victim) (r : Rebuild) (lo hi : ℕ)
    (left : ℕ) (seed : Option ℕ) (hknown : ∀ b ∈ known, b ∈ excluded)
    (hpair : ∀ b, pair.Holds b → b ∈ excluded)
    (hE : ∀ s, Engaged g known chain upper pair root kept landed s → E s) :
    Guarded g (fun s => Engaged g known chain upper pair root kept landed s ∧
        ∀ f, seed = some f → Candidate pair upper kept f s)
      (relocateLoop g pair victim r lo hi chain left excluded seed)
      (fun newPair => Engaged g (known ++ [pair.freshOf newPair]) chain upper pair root kept landed)
      E := by
  induction left generalizing excluded seed with
  | zero => exact Triple.fail fun s hs => hE s hs.1
  | succ left ih =>
      refine Triple.bind (guarded_freshOrSeed seed hknown hpair hE) fun fresh => ?_
      refine Triple.bind (guarded_buildRange _ lo hi fun s hs => hE s hs.1) fun l => ?_
      have hstable : Stable fresh fun s => Engaged g known chain upper pair root kept landed s ∧
          Candidate pair upper kept fresh s :=
        fun s s' hs hw => ⟨hw.engaged hs.1 hs.2.upper, hw.candidate hs.2⟩
      refine Triple.bind (guarded_eraseAndProgramLog hstable (fun s hs => hs.2.free) l)
        fun ok => ?_
      refine Triple.seq (R := fun s => Engaged g known chain upper pair root kept landed s ∧
        ¬ pair.Holds fresh ∧ s.usedCache = none)
        (guarded_invalidateAllocCache fun s hs => ⟨hs.1.dropCache, hs.2.apart, rfl⟩) ?_
      refine Triple.ite (fun _ => ?_) fun _ => Triple.ite (fun _ => ?_) fun _ => ?_
      · refine Triple.seq (R := fun s => Engaged g
          (known ++ [pair.freshOf (pair.replace victim fresh)]) chain upper pair root kept landed s)
          (Triple.modify ?_) (Triple.pure fun _ h => h)
        rintro s ⟨hs, happart, hcache⟩
        rw [BlockPair.freshOf_replace hvictim happart]
        refine hs.hold (fun used hused => ?_) happart
        rw [hcache] at hused
        cases hused
      · exact Triple.fail fun s hs => hE s hs.1
      · refine (ih none (fun b hb => List.mem_append_left _ (hknown b hb))
          (fun b hb => List.mem_append_left _ (hpair b hb))).strengthen ?_
        exact fun s hs => ⟨hs.1, nofun⟩

variable (upper kept root landed) in
theorem guarded_relocateCompactToFresh {victim : ℕ} (hvictim : pair.Holds victim) (r : Rebuild)
    (lo hi : ℕ) (inflight : Inflight) (seed : Option ℕ)
    (hE : ∀ s, Engaged g inflight.blocks inflight.chain upper pair root kept landed s → E s) :
    Guarded g (fun s => Engaged g inflight.blocks inflight.chain upper pair root kept landed s ∧
        ∀ f, seed = some f → Candidate pair upper kept f s)
      (relocateCompactToFresh g pair victim r lo hi inflight seed)
      (fun newPair => Engaged g (inflight.blocks ++ [pair.freshOf newPair]) inflight.chain upper
        pair root kept landed) E := by
  refine Triple.seq (guarded_fitExcluded _ _ fun s hs => hE s hs.1) ?_
  refine guarded_relocateLoop hvictim r lo hi _ seed (fun b hb => List.mem_append_right _ hb)
    (fun b hb => List.mem_append_left _ ?_) hE
  rcases hb with rfl | rfl
  · exact List.mem_cons_self ..
  · exact List.mem_cons_of_mem _ (List.mem_cons_self ..)

/-! ## Splitting -/

/-- Giving a candidate up again. -/
theorem Engaged.release {b : ℕ} {s : Fs}
    (h : Engaged g (known ++ [b]) chain upper pair root kept landed s)
    (hupper : b ∉ upper) (hkept : b ∉ kept) :
    Engaged g known chain upper pair root kept landed
      { s with unpublished := { s.unpublished with
        blocks := s.unpublished.blocks.filter (· ∉ [b])
        exposed := s.unpublished.exposed.filter (· ∉ [b]) } } := by
  have hmem : ∀ x, x ∈ s.unpublished.blocks.filter (· ∉ [b]) ↔
      x ∈ s.unpublished.blocks ∧ x ≠ b := by
    simp [List.mem_filter]
  have hmem' : ∀ x, x ∈ s.unpublished.exposed.filter (· ∉ [b]) ↔
      x ∈ s.unpublished.exposed ∧ x ≠ b := by
    simp [List.mem_filter]
  obtain ⟨hshield, hsteady⟩ := h
  refine ⟨⟨fun x hx => ?_, fun x hx => ?_, hshield.chained, fun x hx => ?_⟩,
    fun x hx => ?_, hsteady.root, fun x hx => ?_, hsteady.chain⟩
  · exact hshield.cached x ((hmem x).1 hx).1
  · obtain ⟨hx, hne⟩ := (hmem x).1 hx
    rcases hshield.found x hx with hk | hu | he
    · rcases List.mem_append.1 hk with hk | hk
      · exact .inl hk
      · exact absurd (List.mem_singleton.1 hk) hne
    · exact .inr (.inl hu)
    · exact .inr (.inr ((hmem' x).2 ⟨he, hne⟩))
  · exact (hmem x).2 ⟨hshield.held x hx, fun heq => hupper (heq ▸ hx)⟩
  · exact hsteady.apart x ((hmem x).1 hx).1
  · exact (hmem x).2 ⟨hsteady.kept x hx, fun heq => hkept (heq ▸ hx)⟩

theorem guarded_tryContinuation {ca cb : ℕ} (hne : cb ≠ ca) (l : MetadataLog) :
    Guarded g (fun s => Engaged g known chain upper pair root kept landed s ∧
        Candidate pair upper kept ca s ∧ Candidate pair upper kept cb s)
      (tryContinuation ca cb l)
      (fun worn s => match worn with
        | none => Engaged g (known ++ [ca] ++ [cb]) chain upper pair root kept landed s
        | some _ => Engaged g known chain upper pair root kept landed s) E := by
  have hstable : Stable ca fun s => Engaged g known chain upper pair root kept landed s ∧
      Candidate pair upper kept ca s ∧ Candidate pair upper kept cb s :=
    fun s s' hs hw => ⟨hw.engaged hs.1 hs.2.1.upper, hw.candidate hs.2.1, hw.candidate hs.2.2⟩
  refine Triple.bind (guarded_eraseAndProgramLog hstable (fun s hs => hs.2.1.free) l) fun ok => ?_
  refine Triple.ite (fun _ => ?_) fun _ => Triple.pure fun s hs => hs.1
  -- the second block is a candidate still, now beside the first, which is in flight
  refine Triple.seq (R := fun s => Engaged g (known ++ [ca]) chain upper pair root kept landed s ∧
    Candidate pair upper kept cb s ∧ ca ∉ upper ∧ ca ∉ kept) (Triple.modify ?_) ?_
  · rintro s ⟨hs, ha, hb⟩
    refine ⟨hs.hold ha.cached ha.apart, ⟨fun hmem => ?_, hb.cached, hb.apart, hb.upper, hb.kept⟩,
      ha.upper, ha.kept⟩
    rcases List.mem_append.1 hmem with hmem | hmem
    · exact hb.free hmem
    · exact hne (List.mem_singleton.1 hmem)
  refine Triple.bind (R := fun _ s =>
    Engaged g (known ++ [ca]) chain upper pair root kept landed s ∧
      Candidate pair upper kept cb s ∧ ca ∉ upper ∧ ca ∉ kept) ?_ fun ok => ?_
  · refine (guarded_eraseBlock fun s hs => hs.2.1.free).weaken ?_
    rintro ok s' ⟨s, ⟨hs, hb, hpure⟩, hw, -⟩
    exact ⟨hw.engaged hs hb.upper, hw.candidate hb, hpure⟩
  · refine Triple.ite (fun _ => ?_) fun _ => ?_
    · refine Triple.seq (R := fun s =>
        Engaged g (known ++ [ca] ++ [cb]) chain upper pair root kept landed s)
        (Triple.modify fun s hs => ?_) (Triple.pure fun _ h => h)
      exact hs.1.hold hs.2.1.cached hs.2.1.apart
    · refine Triple.seq (R := fun s => Engaged g known chain upper pair root kept landed s)
        (Triple.modify fun s hs => ?_) (Triple.pure fun _ h => h)
      exact hs.1.release hs.2.2.1 hs.2.2.2

theorem guarded_programSplitContinuation (r : Rebuild) (lo hi left : ℕ)
    (hpair : ∀ b, pair.Holds b → b ∈ excluded)
    (hknown : ∀ b ∈ known, b ∈ excluded)
    (hE : ∀ s, Engaged g known chain upper pair root kept landed s → E s) :
    Guarded g (Engaged g known chain upper pair root kept landed)
      (programSplitContinuation g r lo hi chain left excluded)
      (fun out s =>
        Engaged g (known ++ [out.1.a] ++ [out.1.b]) chain upper pair root kept landed s ∧
          ∀ b ∈ excluded, b ∈ out.2.1) E := by
  induction left generalizing excluded with
  | zero => exact Triple.fail hE
  | succ left ih =>
      -- the first block
      have hfirst := guarded_allocOneBlock (g := g) known upper chain hknown
        (Steady.cacheFree kept pair root landed) fun s h h' => hE s ⟨h, h'⟩
      refine Triple.bind (R := fun ca s => Engaged g known chain upper pair root kept landed s ∧
        Candidate pair upper kept ca s) ?_ fun ca => ?_
      · refine hfirst.weaken ?_
        rintro b s ⟨hshield, hsteady, hfresh⟩
        exact ⟨⟨hshield, hsteady⟩,
          hfresh.candidate hshield hsteady hpair (List.mem_singleton_self b)⟩
      refine Triple.ite (fun _ => Triple.fail fun s hs => hE s hs.1) fun _ => ?_
      -- the second block, with the first excluded
      have hfree : CacheFree fun s => Steady pair root kept landed s ∧ ca ∉ s.unpublished.blocks ∧
          ¬ pair.Holds ca ∧ ca ∉ upper ∧ ca ∉ kept :=
        fun s cache h => ⟨Steady.cacheFree _ _ _ _ s cache h.1, h.2⟩
      have hsecond := guarded_allocOneBlock (g := g) known upper chain
        (fun b hb => List.mem_append_left [ca] (hknown b hb)) hfree
        fun s h h' => hE s ⟨h, h'.1⟩
      refine Triple.bind (R := fun cb s => (Engaged g known chain upper pair root kept landed s ∧
        Candidate pair upper kept ca s ∧ Candidate pair upper kept cb s) ∧ cb ≠ ca) ?_ fun cb => ?_
      · refine hsecond.conseq ?_ ?_ fun _ _ h => h
        · rintro s ⟨hs, ha⟩
          exact ⟨hs.1, hs.2, ha.free, ha.apart, ha.upper, ha.kept⟩
        · rintro b s ⟨hshield, ⟨hsteady, hafree, hapart, haupper, hakept⟩, hfresh⟩
          have hlast : ca ∈ excluded ++ [ca] := List.mem_append_right _ (List.mem_singleton_self ca)
          have hb : b ∈ [b] := List.mem_singleton_self b
          refine ⟨⟨⟨hshield, hsteady⟩, ⟨hafree, hfresh.excluded ca hlast, hapart, haupper, hakept⟩,
            hfresh.candidate hshield hsteady (fun y hy => List.mem_append_left _ (hpair y hy)) hb⟩,
            fun heq => hfresh.avoids b hb (heq ▸ hlast)⟩
      refine Triple.pre fun hne => ?_
      refine Triple.bind (guarded_buildRange _ lo hi fun s hs => hE s hs.1) fun l => ?_
      refine Triple.bind (guarded_tryContinuation hne l) fun worn => ?_
      cases worn with
      | none => exact Triple.pure fun s hs => ⟨hs, fun b hb => hb⟩
      | some bad =>
          refine Triple.seq (guarded_invalidateAllocCache fun s hs => hs.dropCache) ?_
          refine Triple.ite (fun _ => Triple.fail hE) fun _ => ?_
          refine (ih (fun b hb => List.mem_append_left _ (hpair b hb))
            fun b hb => List.mem_append_left _ (hknown b hb)).weaken ?_
          exact fun out s hs => ⟨hs.1, fun b hb => hs.2 b (List.mem_append_left _ hb)⟩

/-- The cuts leave all their continuations among the excluded blocks. -/
theorem guarded_cutLoop (r : Rebuild) (cuts cut stop left : ℕ)
    (hpair : ∀ b, pair.Holds b → b ∈ excluded)
    (hE : ∀ known s, Engaged g known chain upper pair root kept landed s → E s) :
    Guarded g (Engaged g excluded chain upper pair root kept landed)
      (cutLoop g r chain cuts cut stop left excluded)
      (fun out => Engaged g out.2.2 chain upper pair root kept landed) E := by
  induction cuts generalizing r cut stop left excluded with
  | zero => exact Triple.fail fun s hs => hE _ s hs
  | succ cuts ih =>
      refine Triple.bind (guarded_programSplitContinuation r cut stop left hpair (fun b hb => hb)
        (hE excluded)) fun out => ?_
      obtain ⟨cont, excluded', left'⟩ := out
      refine Triple.pre fun hsub => ?_
      refine Triple.ite (fun _ => Triple.fail fun s hs => hE _ s hs) fun _ => ?_
      -- what was handed over before, and the new continuation, are now excluded
      have hnext : ∀ s,
          Engaged g (excluded ++ [cont.a] ++ [cont.b]) chain upper pair root kept landed s →
            Engaged g (excluded' ++ [cont.a, cont.b]) chain upper pair root kept landed s := by
        refine fun s hs => ⟨hs.1.mono fun b hb => ?_, hs.2⟩
        rw [List.append_assoc] at hb
        rcases List.mem_append.1 hb with hb | hb
        · exact List.mem_append_left _ (hsub b hb)
        · exact List.mem_append_right _ hb
      refine Triple.ite (fun _ => Triple.pure hnext) fun _ => ?_
      refine Triple.bind (R := fun _ => Engaged g (excluded ++ [cont.a] ++ [cont.b]) chain upper
        pair root kept landed) (Triple.lift (fun _ _ h _ => h) fun s _ h _ => hE _ s h)
        fun next => ?_
      refine Triple.ite (fun _ => Triple.pure hnext) fun _ => ?_
      exact (ih _ _ _ _ fun b hb => List.mem_append_left _ (hsub b (hpair b hb))).strengthen hnext

/-! ## The lower half of a split -/

/-- Where a rebuild leaves its pair: in place with everything published, or at an address
whose fresh block the announcing commit is handed.  In the latter case the chain is in flight
as before, or has landed with what the pair held at its old address. -/
def MovedTo (g : Geometry) (inflight : Inflight) (upper : List ℕ) (pair root : BlockPair)
    (landed : Prop) (moved : Option BlockPair) (s : Fs) : Prop :=
  match moved with
  | none => Published s
  | some newPair => pair ≠ root ∧ s.root = root ∧
      (Entrusted g (inflight.push (pair.freshOf newPair)) upper landed s ∨
        Entrusted g (inflight.push (pair.freshOf newPair)) [] True s)

/-- The blocks of a view are those of its pair. -/
def PairView.Covers (v : PairView) : Prop :=
  ∀ b, v.pairAddr.Holds b ↔ b = v.activeAddr ∨ b = v.alternateAddr

theorem guarded_settle {P : Fs → Prop} (hroot : ∀ s, P s → s.root = root) :
    Guarded g P settle (fun _ s => Published s ∧ s.root = root) E :=
  Triple.modify fun s hs => ⟨rfl, hroot s hs⟩

theorem Engaged.writeAlternate {v : PairView} (hv : v.Covers) {s : Fs}
    (hs : Engaged g known chain upper v.pairAddr root kept landed s) :
    v.alternateAddr ∉ s.unpublished.blocks ∧ v.alternateAddr ∉ upper := by
  have hholds : v.pairAddr.Holds v.alternateAddr := (hv _).2 (.inr rfl)
  have hfree : v.alternateAddr ∉ s.unpublished.blocks := fun hmem => hs.2.apart _ hmem hholds
  exact ⟨hfree, fun hmem => hfree (hs.1.held _ hmem)⟩

/-- What is written to the alternate block keeps the shield. -/
theorem guarded_writeAlternate {v : PairView} (hv : v.Covers) {P : Fs → Prop}
    (hP : Stable v.alternateAddr P) (l : MetadataLog) :
    Guarded g (fun s => Engaged g known chain upper v.pairAddr root kept landed s ∧ P s)
      (eraseAndProgramLog v.alternateAddr l)
      (fun _ s => Engaged g known chain upper v.pairAddr root kept landed s ∧ P s) E := by
  refine guarded_eraseAndProgramLog ?_ (fun s hs => (hs.1.writeAlternate hv).1) l
  exact fun s s' hs hw => ⟨hw.engaged hs.1 (hs.1.writeAlternate hv).2, hP s s' hs.2 hw⟩

theorem guarded_finishSplitLowerHalf {v : PairView} (hv : v.Covers) (r : Rebuild) (split : ℕ)
    (cont : BlockPair) (inflight : Inflight) (hchain : inflight.chain = chain)
    (hE : ∀ known s, Engaged g known chain upper v.pairAddr root kept landed s → E s) :
    Guarded g (Engaged g excluded chain upper v.pairAddr root kept landed)
      (finishSplitLowerHalf g v r split cont excluded chain)
      (fun moved s => MovedTo g inflight upper v.pairAddr root landed moved s) E := by
  refine Triple.bind (guarded_buildRange _ 0 split (hE excluded)) fun l => ?_
  refine Triple.bind (R := fun _ => Engaged g excluded chain upper v.pairAddr root kept landed) ?_
    fun ok => ?_
  · refine (guarded_writeAlternate hv (P := fun _ => True) (fun _ _ h _ => h) l).conseq
      (fun s hs => ⟨hs, True.intro⟩) (fun _ _ hs => hs.1) fun _ _ h => h
  refine Triple.ite (fun _ => ?_) fun _ => Triple.get_bind fun s hs => ?_
  · refine Triple.seq (guarded_settle fun s hs => hs.2.root) ?_
    exact Triple.seq (R := Published) (guarded_invalidateAllocCache fun s hs => hs.1)
      (Triple.pure fun s hs => hs)
  have hback : ∀ s', s' = s → Engaged g excluded chain upper v.pairAddr root kept landed s' :=
    fun s' h => h ▸ hs
  refine Triple.ite (fun _ => Triple.fail fun s' h => hE _ s' (hback s' h)) fun hroot => ?_
  rw [hs.2.root] at hroot
  refine Triple.bind ((guarded_relocateCompactToFresh upper kept root landed ((hv _).2 (.inr rfl)) _
    0 split ⟨excluded, chain⟩ none (hE excluded)).strengthen
    fun s' h => ⟨hback s' h, nofun⟩) fun newPair => ?_
  -- the continuations are exposed, the fresh block is handed on
  refine Triple.seq (R := fun s => MovedTo g inflight upper v.pairAddr root landed (some newPair) s)
    (Triple.modify ?_) (Triple.seq (R :=
      fun s => MovedTo g inflight upper v.pairAddr root landed (some newPair) s)
      (guarded_invalidateAllocCache ?_) (Triple.pure fun s hs => hs))
  · rintro s' ⟨hshield, hsteady⟩
    refine ⟨hroot, hsteady.root, .inl ⟨⟨hshield.cached, fun b hb => ?_, hchain ▸ hshield.chained,
      hshield.held⟩, hsteady.chain⟩⟩
    rcases hshield.found b hb with hk | hu | he
    · rcases List.mem_append.1 hk with hk | hk
      · exact .inr (.inr (List.mem_append_right _
          (List.mem_filter.2 ⟨hk, decide_eq_true hb⟩)))
      · exact .inl (List.mem_append_right _ hk)
    · exact .inr (.inl hu)
    · exact .inr (.inr (List.mem_append_left _ he))
  · rintro s' ⟨hne, hroot', hs'⟩
    exact ⟨hne, hroot', hs'.imp Entrusted.dropCache Entrusted.dropCache⟩

theorem guarded_splitDirectoryPair {v : PairView} (hv : v.Covers) (r : Rebuild)
    (split maxCuts : ℕ) (inflight : Inflight) :
    Guarded g (Engaged g inflight.blocks inflight.chain upper v.pairAddr root kept landed)
      (splitDirectoryPair g v r split maxCuts inflight)
      (fun moved s => MovedTo g inflight upper v.pairAddr root landed moved s)
      (Restorable g inflight.chain upper root kept landed) := by
  have hE : ∀ known s, Engaged g known inflight.chain upper v.pairAddr root kept landed s →
      Restorable g inflight.chain upper root kept landed s := fun known s hs => hs.1.restorable hs.2
  refine Triple.seq (guarded_fitExcluded _ _ (hE _)) ?_
  have hpair : ∀ b, v.pairAddr.Holds b → b ∈ [v.activeAddr, v.alternateAddr] ++
      inflight.blocks := by
    intro b hb
    rcases (hv b).1 hb with rfl | rfl
    · exact List.mem_cons_self ..
    · exact List.mem_cons_of_mem _ (List.mem_cons_self ..)
  refine Triple.bind ((guarded_cutLoop r maxCuts split r.total _ hpair hE).strengthen
    fun s hs => ⟨hs.1.mono fun b hb => List.mem_append_right _ hb, hs.2⟩) fun out => ?_
  exact guarded_finishSplitLowerHalf hv r _ _ inflight rfl hE

/-! ## Compaction -/

variable (g) in
/-- A commit function that spares the blocks in flight.  It leaves none when it succeeds, and the
chain it was handed where it was when it fails before anything has landed. -/
def Spares (commit : CommitFn) : Prop :=
  ∀ (r : CommitRequest) (upper : List ℕ) (landed : Prop),
    Guarded g (Entrusted g r.inflight upper landed) (commit r) (fun _ => Published)
      (Afloat g r.inflight.chain upper landed)

/-- The fresh block chosen for a relocation, with the address it gives the pair. -/
def Target (v : PairView) (root : BlockPair) (fresh : Option (ℕ × BlockPair)) : Prop :=
  ∀ f q, fresh = some (f, q) →
    v.pairAddr ≠ root ∧ q = v.pairAddr.replace v.alternateAddr f ∧ ¬ v.pairAddr.Holds f

variable (kept) in
theorem guarded_relocationTarget {v : PairView} (hv : v.Covers) (newRevision : ℕ)
    (inflight : Inflight) :
    Guarded g (Engaged g inflight.blocks inflight.chain upper v.pairAddr root kept landed)
      (relocationTarget g v newRevision inflight)
      (fun fresh s =>
        (Engaged g inflight.blocks inflight.chain upper v.pairAddr root kept landed s ∧
          ∀ f q, fresh = some (f, q) → Candidate v.pairAddr upper kept f s) ∧ Target v root fresh)
      (Afloat g inflight.chain upper landed) := by
  refine Triple.get_bind fun s hs => ?_
  have hback : ∀ s', s' = s →
      Engaged g inflight.blocks inflight.chain upper v.pairAddr root kept landed s' :=
    fun s' h => h ▸ hs
  refine Triple.ite (fun hdue => ?_) fun _ => ?_
  · have hroot : v.pairAddr ≠ root := by
      intro heq
      rw [shouldRelocate, hs.2.root, if_pos heq] at hdue
      cases hdue
    have hpair : ∀ b, v.pairAddr.Holds b →
        b ∈ [v.activeAddr, v.alternateAddr] ++ inflight.blocks := by
      intro b hb
      rcases (hv b).1 hb with rfl | rfl
      · exact List.mem_cons_self ..
      · exact List.mem_cons_of_mem _ (List.mem_cons_self ..)
    refine Triple.seq (guarded_fitExcluded _ _ fun s' h => (hback s' h).afloat) ?_
    have halloc := guarded_allocOneBlock (g := g) inflight.blocks upper
      inflight.chain (fun b hb => List.mem_append_right [v.activeAddr, v.alternateAddr] hb)
      (Steady.cacheFree kept v.pairAddr root landed)
      fun s h h' => h.afloat h'.chain
    refine Triple.bind (halloc.strengthen hback) fun f => Triple.pure ?_
    rintro s' ⟨hshield, hsteady, hfresh⟩
    have hcand := hfresh.candidate hshield hsteady hpair (List.mem_singleton_self f)
    refine ⟨⟨⟨hshield, hsteady⟩, ?_⟩, ?_⟩
    · rintro f' q h
      cases h
      exact hcand
    · rintro f' q h
      cases h
      exact ⟨hroot, rfl, hcand.apart⟩
  · exact Triple.pure fun s' hs' => ⟨⟨hback s' hs', nofun⟩, nofun⟩

theorem guarded_compactSingle {commit : CommitFn} (hcommit : Spares g commit) {v : PairView}
    (hv : v.Covers) (r : Rebuild) (inflight : Inflight) :
    Guarded g (Engaged g inflight.blocks inflight.chain upper v.pairAddr root [] landed)
      (compactSingle g commit v r inflight)
      (fun moved s => MovedTo g inflight upper v.pairAddr root landed moved s)
      (Afloat g inflight.chain upper landed) := by
  refine Triple.get_bind fun s₀ hs₀ => ?_
  have hroot₀ : s₀.root = root := hs₀.2.root
  refine Triple.bind ((guarded_relocationTarget [] hv r.newRevision inflight).strengthen
    fun s h => h ▸ hs₀) fun fresh => ?_
  refine Triple.pre fun htarget => ?_
  refine Triple.bind (guarded_buildRange _ 0 r.total fun _ hs => hs.1.afloat) fun l => ?_
  have hstable : ∀ addr, Stable addr fun s => ∀ f q, fresh = some (f, q) →
      Candidate v.pairAddr upper [] f s :=
    fun addr s s' hs hw f q h => hw.candidate (hs f q h)
  refine Triple.bind (guarded_writeAlternate hv (hstable _) l) fun ok => ?_
  refine Triple.ite (fun _ => ?_) fun _ => Triple.ite (fun _ => ?_) fun hroot => ?_
  · -- the alternate holds the new content: everything handed in is published
    refine Triple.seq (R := fun s => Published s ∧ s.root = root ∧
      ∀ f q, fresh = some (f, q) → s.Cached f) (Triple.modify ?_) ?_
    · rintro s ⟨hs, hcand⟩
      exact ⟨rfl, hs.2.root, fun f q h => (hcand f q h).cached⟩
    cases fresh with
    | none => exact Triple.pure fun s hs => hs.1
    | some p =>
        obtain ⟨f, newPair⟩ := p
        obtain ⟨hne, rfl, hapart⟩ := htarget f newPair rfl
        have hfreshOf : v.pairAddr.freshOf (v.pairAddr.replace v.alternateAddr f) = f :=
          BlockPair.freshOf_replace ((hv _).2 (.inr rfl)) hapart
        refine Triple.bind (guarded_eraseAndProgramLog (P := fun s => Published s ∧ s.root = root ∧
          s.Cached f) ?_ (fun s hs => ?_) l |>.strengthen
            fun s hs => ⟨hs.1, hs.2.1, hs.2.2 f _ rfl⟩) fun ok => ?_
        · rintro s s' ⟨hs, hroot, hcached⟩ hw
          refine ⟨hw.unpublished.trans hs, hw.root.trans hroot, fun used hused => ?_⟩
          rw [hw.usedCache] at hused
          exact hcached used hused
        · rw [hs.1.settled.blocks]
          exact List.not_mem_nil
        refine Triple.ite (fun _ => ?_) fun _ => ?_
        · refine Triple.seq (R := fun s => MovedTo g inflight upper v.pairAddr root
            landed (some (v.pairAddr.replace v.alternateAddr f)) s) (Triple.modify ?_)
            (Triple.pure fun s hs => hs)
          rintro s ⟨hs, hroot, hcached⟩
          refine ⟨hne, hroot, .inr ⟨?_, fun _ => hs.unchained⟩⟩
          rw [hfreshOf]
          exact (hs.settled.shielded inflight.blocks inflight.chain).hold
            (List.forall_mem_singleton.2 hcached)
        · refine Triple.seq (R := Published) ?_ (Triple.pure fun s hs => hs)
          exact (hcommit _ [] True).conseq
            (fun s hs => ⟨hs.1.settled.shielded _ _, fun _ => hs.1.unchained⟩) (fun _ _ h => h)
            fun _ _ h => h.of_landed
  · exact Triple.fail fun s hs => hs.1.afloat
  · rw [hroot₀] at hroot
    have hvictim : v.pairAddr.Holds v.alternateAddr := (hv _).2 (.inr rfl)
    have hrelocate := guarded_relocateCompactToFresh (g := g) upper [] root landed
      hvictim r 0 r.total inflight (fresh.map Prod.fst) fun _ h => h.afloat
    refine Triple.bind (hrelocate.strengthen fun s hs => ⟨hs.1, fun f hf => ?_⟩) fun newPair =>
      Triple.pure fun s hs => ⟨hroot, hs.2.root, .inl ⟨hs.1, hs.2.chain⟩⟩
    obtain ⟨⟨f', q⟩, hq, rfl⟩ := Option.map_eq_some_iff.1 hf
    exact hs.2 f' q hq

/-- A failed split is taken back: the account is what it was before. -/
theorem Restorable.shielded {u : Unpublished} {s : Fs}
    (h : Restorable g chain upper root u.blocks landed s)
    (hfound : ∀ b ∈ u.blocks, b ∈ known ∨ b ∈ upper ∨ b ∈ u.exposed)
    (hheld : ∀ b ∈ upper, b ∈ u.blocks) :
    Shielded g known chain upper { s with unpublished := u } :=
  ⟨h.cached, hfound, h.chained, hheld⟩

theorem guarded_compactAndProgram {commit : CommitFn} (hcommit : Spares g commit) {v : PairView}
    (hv : v.Covers) (r : Rebuild) (inflight : Inflight) (forcedVictim : Bool) :
    Guarded g (Engaged g inflight.blocks inflight.chain upper v.pairAddr root [] landed)
      (compactAndProgram g commit v r inflight forcedVictim)
      (fun moved s => MovedTo g inflight upper v.pairAddr root landed moved s)
      (Afloat g inflight.chain upper landed) := by
  refine Triple.get_bind fun s₀ hs₀ => ?_
  have hback : ∀ s, s = s₀ →
      Engaged g inflight.blocks inflight.chain upper v.pairAddr root [] landed s :=
    fun s h => h ▸ hs₀
  have hlost : ∀ s, s = s₀ → Afloat g inflight.chain upper landed s :=
    fun s h => (hback s h).afloat
  refine Triple.ite (fun _ => Triple.ite (fun _ => Triple.fail hlost) fun hroot => ?_) fun _ => ?_
  · rw [hs₀.2.root] at hroot
    have hvictim : v.pairAddr.Holds v.activeAddr := (hv _).2 (.inl rfl)
    have hrelocate := guarded_relocateCompactToFresh (g := g) upper [] root landed
      hvictim r 0 r.total inflight none fun _ h => h.afloat
    exact Triple.bind (hrelocate.strengthen fun s hs => ⟨hback s hs, nofun⟩) fun newPair =>
      Triple.pure fun s hs => ⟨hroot, hs.2.root, .inl ⟨hs.1, hs.2.chain⟩⟩
  refine Triple.bind (R := fun _ s => s = s₀) (Triple.lift (fun _ _ h _ => h)
    fun s _ h _ => hlost s h) fun split => ?_
  refine Triple.bind (R := fun _ s => s = s₀) ?_ fun maxCuts => ?_
  · refine Triple.ite (fun _ => ?_) fun _ => Triple.pure fun _ h => h
    refine Triple.get_bind fun s h => ?_
    subst h
    refine Triple.bind (R := fun _ s' => s' = s) (Triple.query (fun _ _ h _ => h)
      fun s' _ h _ => hlost s' h) fun tree => ?_
    refine Triple.ite (fun _ => Triple.pure fun _ h => h) fun _ => ?_
    refine Triple.ite (fun _ => ?_) fun _ => Triple.pure fun _ h => h
    refine Triple.bind (R := fun _ s' => s' = s) (Triple.query (fun _ _ h _ => h)
      fun s' _ h _ => hlost s' h) fun used => ?_
    exact Triple.ite (fun _ => Triple.pure fun _ h => h) fun _ => Triple.pure fun _ h => h
  refine Triple.ite (fun _ => ?_) fun _ =>
    (guarded_compactSingle hcommit hv r inflight).strengthen hback
  -- what was in flight before the split is kept through it
  have hkept : ∀ s, s = s₀ → Engaged g inflight.blocks inflight.chain upper v.pairAddr root
      s₀.unpublished.blocks landed s := by
    rintro s rfl
    exact ⟨hs₀.1, hs₀.2.apart, hs₀.2.root, fun b hb => hb, hs₀.2.chain⟩
  have hsplit := (guarded_splitDirectoryPair (g := g) hv r split maxCuts inflight).strengthen hkept
  refine Triple.bind (R := fun result s => match result with
    | .ok moved => MovedTo g inflight upper v.pairAddr root landed moved s
    | .error _ => Restorable g inflight.chain upper root s₀.unpublished.blocks landed s)
    (Triple.attempt hsplit) fun result => ?_
  cases result with
  | ok moved => exact Triple.pure fun s hs => hs
  | error e =>
      cases e with
      | outOfRange =>
          refine Triple.seq
            (R := Engaged g inflight.blocks inflight.chain upper v.pairAddr root [] landed)
            (Triple.modify fun s hs => ?_) (guarded_compactSingle hcommit hv r inflight)
          exact ⟨Restorable.shielded hs hs₀.1.found hs₀.1.held, hs₀.2.apart, hs.root, nofun,
            hs₀.2.chain⟩
      | _ => exact Triple.fail fun s hs => hs.afloat hs₀.1.held

/-! ## Announcing a move -/

variable (upper landed) in
/-- The commits that announce a move, handed the fresh block with what was handed in. -/
theorem guarded_announce {commit : CommitFn} (hcommit : Spares g commit)
    (oldPair newPair : BlockPair) (inflight : Inflight) :
    Guarded g (fun s => oldPair ≠ s.root ∧
        Entrusted g (inflight.push (oldPair.freshOf newPair)) upper landed s)
      (propagateRelocation g commit oldPair newPair inflight) (fun _ => Published)
      (Afloat g inflight.chain upper landed) := by
  refine Triple.get_bind fun s₀ ⟨hne, hs₀⟩ => ?_
  refine Triple.ite (fun heq => absurd heq hne) fun _ => ?_
  let next : Inflight := inflight.push (oldPair.freshOf newPair)
  have hnext : ∀ (r : CommitRequest), r.inflight = next →
      Guarded g (Entrusted g next upper landed) (commit r) (fun _ => Published)
        (Afloat g inflight.chain upper landed) := by
    intro r hr
    have hr' := hcommit r upper landed
    rw [hr] at hr'
    exact hr'
  have hlost : ∀ s, Entrusted g next upper landed s → Afloat g inflight.chain upper landed s :=
    fun s hs => hs.afloat
  refine Triple.seq (R := Entrusted g next upper landed) (Triple.modify ?_) ?_
  · rintro s' rfl
    split
    · split_ifs
      · exact ⟨⟨hs₀.1.cached, hs₀.1.found, hs₀.1.chained, hs₀.1.held⟩, hs₀.2⟩
      · exact hs₀
    · exact hs₀
  refine Triple.seq (guarded_fitExcluded _ _ hlost) ?_
  refine Triple.bind (R := fun _ => Entrusted g next upper landed)
    (Triple.query (fun _ _ h _ => h) fun s _ h _ => hlost s h) fun pred => ?_
  refine Triple.bind (R := fun _ => Entrusted g next upper landed)
    (Triple.query (fun _ _ h _ => h) fun s _ h _ => hlost s h) fun parent => ?_
  split
  · refine Triple.seq (hnext _ rfl) ?_
    split
    · refine Triple.ite (fun _ => Triple.pure fun _ h => h) fun _ => ?_
      -- the first commit has landed: nothing is in flight in the second
      exact (hcommit _ [] True).conseq
        (fun s hs => ⟨hs.settled.shielded _ _, fun _ => hs.unchained⟩) (fun _ _ h => h)
        fun _ _ h => h.of_landed
    · exact Triple.pure fun _ h => h
  · split
    · exact hnext _ rfl
    · exact Triple.fail hlost

theorem guarded_propagateRelocation {commit : CommitFn} (hcommit : Spares g commit)
    (oldPair newPair : BlockPair) (inflight : Inflight) :
    Guarded g (fun s => MovedTo g inflight upper oldPair root landed (some newPair) s)
      (propagateRelocation g commit oldPair newPair inflight) (fun _ => Published)
      (Afloat g inflight.chain upper landed) := by
  refine (Triple.or_pre (guarded_announce upper landed hcommit _ _ _)
    ((guarded_announce [] True hcommit _ _ _).conseq (fun _ h => h) (fun _ _ h => h)
      fun _ _ h => h.of_landed)).strengthen ?_
  rintro s ⟨hne, rfl, hs⟩
  exact hs.imp (fun h => ⟨hne, h⟩) fun h => ⟨hne, h⟩

/-! ## The commit -/

theorem guarded_rebuildPair {commit : CommitFn} (hcommit : Spares g commit) {v : PairView}
    (hv : v.Covers) (source : MetadataLog) (r : CommitRequest) (forcedVictim : Bool) :
    Guarded g (Engaged g r.inflight.blocks r.inflight.chain upper v.pairAddr root [] landed)
      (rebuildPair g commit v source r forcedVictim) (fun _ => Published)
      (Afloat g r.inflight.chain upper landed) := by
  refine Triple.bind (guarded_compactAndProgram hcommit hv _ r.inflight forcedVictim)
    fun moved => ?_
  cases moved with
  | none => exact Triple.pure fun _ h => h
  | some newPair => exact guarded_propagateRelocation hcommit ..

theorem guarded_tryAppend {v : PairView} (hv : v.Covers) (r : CommitRequest) :
    Guarded g (Engaged g known chain upper v.pairAddr root [] landed)
      (tryAppend g v r)
      (fun failed s => match failed with
        | none => Published s
        | some _ => Engaged g known chain upper v.pairAddr root [] landed s)
      (Afloat g chain upper landed) := by
  refine Triple.bind (R := fun _ => Engaged g known chain upper v.pairAddr root [] landed)
    (Triple.lift (fun _ _ h _ => h) fun _ _ h _ => h.afloat) fun l' => ?_
  refine Triple.seq (R := Engaged g known chain upper v.pairAddr root [] landed)
    (Triple.note fun _ h _ => ⟨True.intro, h⟩) ?_
  refine Triple.bind (R := fun _ => Engaged g known chain upper v.pairAddr root [] landed) ?_
    fun report => ?_
  · refine (guarded_programBlock _ _).weaken ?_
    rintro report s' ⟨s, hs, hw, -⟩
    refine hw.engaged hs fun hmem => ?_
    exact hs.2.apart _ (hs.1.held _ hmem) ((hv _).2 (.inl rfl))
  cases report with
  | verified =>
      exact Triple.seq (R := Published) (Triple.modify fun _ _ => rfl) (Triple.pure fun _ h => h)
  | failed => exact Triple.pure fun _ h => h
  | mismatch => exact Triple.get_bind fun s hs => Triple.pure fun s' h => h ▸ hs

theorem viewPair_covers {p : BlockPair} {s : Fs} {pair : MetadataPair} {slots : Roster Slot}
    (h : s.device.fetch g p = .ok pair) :
    (PairView.mk p pair.activeBlock pair.alternateBlock pair.reader slots).Covers := by
  unfold Device.fetch at h
  split_ifs at h
  rw [bind_eq_ok] at h
  obtain ⟨⟨a, b⟩, -, hparse⟩ := h
  exact MetadataPair.parse_holds hparse

theorem guarded_commitWith {commit : CommitFn} (hcommit : Spares g commit) (r : CommitRequest) :
    Guarded g (Entrusted g r.inflight upper landed) (commitWith g commit r)
      (fun _ => Published) (Afloat g r.inflight.chain upper landed) := by
  refine Triple.get_bind fun s₀ hs₀ => ?_
  refine Triple.seq
    (R := Engaged g r.inflight.blocks r.inflight.chain upper r.pair s₀.root [] landed)
    (Triple.note ?_) ?_
  · rintro s rfl htracked
    refine ⟨True.intro, hs₀.1, fun b hb hholds => ?_, rfl, nofun, hs₀.2⟩
    rcases hholds with rfl | rfl
    · exact htracked.1 hb
    · exact htracked.2 hb
  refine Triple.bind (R := fun v s => Engaged g r.inflight.blocks r.inflight.chain upper v.pairAddr
    s₀.root [] landed s ∧ v.Covers) ?_ fun v => Triple.pre fun hv => ?_
  · refine Triple.bind (R := fun pair s => Engaged g r.inflight.blocks r.inflight.chain upper r.pair
      s₀.root [] landed s ∧ s.device.fetch g r.pair = .ok pair)
      (Triple.query (fun _ _ h hpair => ⟨h, hpair⟩) fun _ _ h _ => h.afloat) fun pair => ?_
    refine Triple.bind (R := fun _ s => Engaged g r.inflight.blocks r.inflight.chain upper r.pair
      s₀.root [] landed s ∧ s.device.fetch g r.pair = .ok pair)
      (Triple.lift (fun _ _ h _ => h) fun _ _ h _ => h.1.afloat) fun slots => ?_
    exact Triple.pure fun s hs => ⟨hs.1, viewPair_covers hs.2⟩
  refine Triple.ite (fun _ => ?_) fun _ => guarded_rebuildPair hcommit hv _ r false
  refine Triple.bind (guarded_tryAppend hv r) fun failed => ?_
  cases failed with
  | none => exact Triple.pure fun _ h => h
  | some source => exact guarded_rebuildPair hcommit hv source r true

/-- The commit engine spares the blocks in flight, at any depth of nested commits. -/
theorem spares_applyOpToPairInner (depth : ℕ) : Spares g (applyOpToPairInner g depth) := by
  induction depth with
  | zero => exact fun _ _ _ => Triple.fail fun _ h => h.afloat
  | succ depth ih => exact fun r _ _ => guarded_commitWith ih r

end Engine

end LittlefsPure
