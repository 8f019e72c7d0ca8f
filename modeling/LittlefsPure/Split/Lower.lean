import LittlefsPure.Split.Cut
import Mathlib.Data.List.Forall2

/-!
# The lower half

The program of the lower half is the one step of a split that readers see: in front of
it the pair shows its old log, behind it the new one, whose hard tail leads to the
continuations.  When the alternate block is worn the lower half goes to a fresh block
instead, and the new pair is complete before anything leads to it.

## Why the other half matters

The new log is written to the half that is not read.  Until it is whole the pair must go on showing
the old one, and that depends on what the other half holds: it is older, or has no commit.  When
its erase is interrupted it may hold anything that a torn erase leaves, and that this is never a
commit is a condition on what it held, `ErasesQuietly`.
-/

namespace LittlefsPure

open FsM Logic

/-- A pair as a split finds it, with the blocks of live structures that the split must not
touch: the active half is one of them, the other half is not. -/
structure PairView.Found (g : Geometry) (v : PairView) (kept : List ℕ) (d : Device) : Prop where
  halves : v.pairAddr.Halves v.activeAddr v.alternateAddr
  apart : v.activeAddr ≠ v.alternateAddr
  fetch : d.fetch g v.pairAddr = .ok ⟨v.activeAddr, v.alternateAddr, v.log⟩
  slots : gatherLiveSlots v.log = .ok v.slots
  quiet : (d.get v.alternateAddr).ErasesQuietly g
  active : v.activeAddr ∈ kept
  alternate : v.alternateAddr ∉ kept

/-- A directory whose first pair was split: the entries of the first pair and of the
continuations make up `entries`, the totals are those of the first pair alone, and the
last continuation carries the tail, which leads on to `rest`. -/
def SplitInto (g : Geometry) (d : Device) (p : BlockPair) (entries : Entries) (move : MoveBody)
    (relocate : RelocateBody) (tail : Option TailLink) (rest : List (BlockPair × MetadataLog)) :
    Prop :=
  ∃ lower conts e₀ es, ∃ hne : conts ≠ [],
    d.Directory g p ((p, lower) :: (conts ++ rest)) ∧ lower.Lists e₀ ∧
    scanPairMoveState lower = move ∧ scanPairRelocateState lower = relocate ∧
    List.Forall₂ (fun c e => c.2.Lists e ∧ scanPairMoveState c.2 = zeroMove ∧
      scanPairRelocateState c.2 = zeroRelocate) conts es ∧
    e₀ ++ es.flatten = entries ∧ (conts.getLast hne).2.tailLink = tail

theorem Device.fetch_bounds {g : Geometry} {d : Device} {p : BlockPair} {pair : MetadataPair}
    (h : d.fetch g p = .ok pair) :
    g.pairInBounds p = true ∧ p.a < d.blocks.length ∧ p.b < d.blocks.length := by
  unfold Device.fetch at h
  split_ifs at h with hbounds
  obtain ⟨⟨a, b⟩, hreaders, -⟩ := bind_eq_ok.1 h
  obtain ⟨ba, ha, hreaders⟩ := bind_eq_ok.1 hreaders
  obtain ⟨bb, hb, -⟩ := bind_eq_ok.1 hreaders
  exact ⟨hbounds, (Device.read_eq_ok.1 ha).1, (Device.read_eq_ok.1 hb).1⟩

theorem Standing.fetch {g : Geometry} {d : Device} {p : BlockPair} {l : MetadataLog}
    (h : Standing g d p l) : d.fetch g p = .ok ⟨p.a, p.b, l⟩ := by
  rw [Device.fetch_eq_active (.inl ⟨rfl, rfl⟩) h.apart h.bounds h.length.1 h.length.2]
  refine ⟨?_, h.commits, ?_⟩
  · rw [h.first]
    rfl
  · rw [h.second]
    exact Block.erased_yields

section Lower

variable {g : Geometry} {v : PairView} {kept : List ℕ} {d₀ : Device} {r₀ : Rebuild}
  {rest₀ rest₁ : List (BlockPair × MetadataLog)}

/-- The rebuild that a split distributes. -/
structure Rebuild.Of (r₀ : Rebuild) (v : PairView) : Prop where
  slots : r₀.slots = v.slots
  source : r₀.source = v.log
  revision : r₀.newRevision = (v.log.revision + 1) % 2 ^ 32
  writesName : r₀.op.WritesName
  sized : r₀.Sized

theorem PairView.Found.bounds (hv : v.Found g kept d₀) : g.pairInBounds v.pairAddr = true ∧
    v.activeAddr < d₀.blocks.length ∧ v.alternateAddr < d₀.blocks.length := by
  obtain ⟨hbounds, hlta, hltb⟩ := Device.fetch_bounds hv.fetch
  rcases hv.halves with ⟨ha, hb⟩ | ⟨ha, hb⟩
  · exact ⟨hbounds, ha ▸ hlta, hb ▸ hltb⟩
  · exact ⟨hbounds, hb ▸ hltb, ha ▸ hlta⟩

theorem PairView.Found.reads (hv : v.Found g kept d₀) :
    (d₀.get v.activeAddr).reader g = v.log ∧ v.log.hasCommits = true ∧
      (d₀.get v.alternateAddr).Yields g v.pairAddr v.activeAddr v.log := by
  obtain ⟨hbounds, hlta, hltb⟩ := hv.bounds
  exact (Device.fetch_eq_active hv.halves hv.apart hbounds hlta hltb _).1 hv.fetch

/-- The active half is untouched and the other one yields to it: the directory reads as it
did. -/
theorem PairView.Found.before (hv : v.Found g kept d₀) (hrest : d₀.Follows g v.log.tailLink rest₀)
    (hwithin : Within kept rest₀) {d : Device} (hd : SameOn kept d₀ d)
    (hyields : (d.get v.alternateAddr).Yields g v.pairAddr v.activeAddr v.log) :
    d.Directory g v.pairAddr ((v.pairAddr, v.log) :: rest₀) := by
  obtain ⟨hbounds, hlta, hltb⟩ := hv.bounds
  obtain ⟨hactive, hcommits, -⟩ := hv.reads
  have hfetch : d.fetch g v.pairAddr = .ok ⟨v.activeAddr, v.alternateAddr, v.log⟩ := by
    rw [Device.fetch_eq_active hv.halves hv.apart hbounds (hd.length ▸ hlta) (hd.length ▸ hltb),
      hd.get _ hv.active]
    exact ⟨hactive, hcommits, hyields⟩
  exact ⟨rfl, ⟨_, _, hfetch⟩, hd.follows hwithin hrest⟩

theorem Rebuild.build_revision {r : Rebuild} {lo hi : ℕ} {l : MetadataLog}
    (h : r.build g lo hi = .ok l) : l.revision = r.newRevision := by
  obtain ⟨tags, -, h⟩ := bind_eq_ok.1 h
  obtain ⟨c, -, h⟩ := bind_eq_ok.1 h
  obtain ⟨⟨c', fcrc⟩, -, h⟩ := bind_eq_ok.1 h
  cases h
  rfl

/-- The lower half stands on one block of a pair whose other half is the old active one: the
directory is split. -/
theorem Cutting.splitInto (hv : v.Found g kept d₀) (hr₀ : r₀.Of v)
    (hrest : d₀.Follows g (liveLink r₀.tail) rest₁) (hwithin : Within kept rest₁) {s : Fs}
    {excluded : List ℕ} {cont : BlockPair} {stop : ℕ} {conts : List (BlockPair × MetadataLog)}
    {es : List Entries}
    (h : Cutting g kept d₀ r₀ excluded (some (cont, true)) stop conts es s) (hne : conts ≠ [])
    (hstop : stop < r₀.total) {r : Rebuild} (hr : r₀.SameEntries r) (hsized : r.Sized)
    (hrev : r.newRevision = r₀.newRevision) (htail : r.tail = some (cont, true))
    (hlive : cont.isNull = false) {lower : MetadataLog} (hlower : r.build g 0 stop = .ok lower)
    {p : BlockPair} {low : ℕ} (hp : p.Halves low v.activeAddr) (hapart : low ≠ v.activeAddr)
    (hbounds : g.pairInBounds p = true) (hlt : low < s.device.blocks.length)
    (hlow : s.device.get low = .log lower) :
    SplitInto g s.device p (r₀.op.apply (v.slots.entries v.log)) (r.moveState.getD zeroMove)
      (r.relocateState.getD zeroRelocate) (liveLink r₀.tail) rest₁ := by
  obtain ⟨hsource, hslots, hop⟩ := hr
  obtain ⟨-, hactlt, -⟩ := hv.bounds
  have hactive := hv.reads.1
  have hgather : gatherLiveSlots v.log = .ok r.slots := by
    rw [hslots, hr₀.slots]
    exact hv.slots
  have hcarries := Rebuild.build_entries hgather (by rw [hop]; exact hr₀.writesName) hsized hlower
  have hlink : liveLink r.tail = some (cont, true) := by
    simp [htail, liveLink, Option.filter, hlive]
  rw [hlink, hop, hslots, hsource, hr₀.slots, hr₀.source] at hcarries
  -- the pair shows the lower half: it is one revision newer than the old active one
  have hfetch : s.device.fetch g p = .ok ⟨low, v.activeAddr, lower⟩ := by
    rw [Device.fetch_eq_active hp hapart hbounds hlt (h.untouched.length ▸ hactlt), hlow]
    refine ⟨rfl, Rebuild.build_hasCommits hlower, .inr (prevails_next ?_)⟩
    rw [h.untouched.get _ hv.active, hactive, Rebuild.build_revision hlower, hrev, hr₀.revision]
  have hwf : v.slots.Wf := walkTags_wf (Roster.new_wf _) hv.slots
  have htotal : r₀.total = r₀.op.total (v.slots.entries v.log).length := by
    rw [← Roster.entries_length hwf, ← hr₀.slots]
    rfl
  have hlen : (r₀.op.part (v.slots.entries v.log) 0 stop).length ≤ maxLiveEntries := by
    have hpart := r₀.op.part_length_le (v.slots.entries v.log) (Nat.zero_le stop)
    have hcount := hwf.count
    have htot : r₀.total ≤ v.slots.count + 1 := by
      rw [Rebuild.total, hr₀.slots]
      split_ifs <;> omega
    omega
  refine ⟨lower, conts, _, es, hne, ⟨rfl, ⟨_, _, hfetch⟩, ?_⟩, hcarries.lists hlen, hcarries.move,
    hcarries.relocate, ?_, ?_, h.linked.getLast hne⟩
  · rw [hcarries.tail]
    exact h.linked.follows (fun c hc => ⟨_, _, (h.standing c hc).fetch⟩)
      (h.untouched.follows hwithin hrest)
  · exact h.parts.imp fun c e hce => ⟨hce.1.lists hce.2, hce.1.move, hce.1.relocate⟩
  · rw [h.concat, hr₀.slots, hr₀.source, r₀.op.part_append _ (Nat.zero_le _) (Nat.le_of_lt hstop),
      htotal]
    exact r₀.op.part_total _

/-- The blocks a directory is read from hold nothing the split may touch, and it reads as it
did before the split or as it does behind it. -/
def BeforeOrAfter (g : Geometry) (v : PairView) (r₀ : Rebuild)
    (rest₀ rest₁ : List (BlockPair × MetadataLog)) (d : Device) : Prop :=
  d.Directory g v.pairAddr ((v.pairAddr, v.log) :: rest₀) ∨
    SplitInto g d v.pairAddr (r₀.op.apply (v.slots.entries v.log)) (r₀.moveState.getD zeroMove)
      (r₀.relocateState.getD zeroRelocate) (liveLink r₀.tail) rest₁

/-- The first continuation of a split is the one the lower half is linked to. -/
theorem Cutting.live {kept excluded : List ℕ} {cont : BlockPair} {stop : ℕ}
    {conts : List (BlockPair × MetadataLog)} {es : List Entries} {s : Fs}
    (h : Cutting g kept d₀ r₀ excluded (some (cont, true)) stop conts es s) (hne : conts ≠ []) :
    cont.isNull = false := by
  cases conts with
  | nil => exact absurd rfl hne
  | cons c conts =>
      obtain ⟨p, l⟩ := c
      obtain ⟨htail, -⟩ := h.linked
      cases htail
      exact (h.standing _ (List.mem_cons_self ..)).live

theorem Cutting.fewer {kept kept' excluded : List ℕ} {tail : Option TailLink} {stop : ℕ}
    {conts : List (BlockPair × MetadataLog)} {es : List Entries} {s : Fs}
    (h : Cutting g kept d₀ r₀ excluded tail stop conts es s) (hsub : ∀ x ∈ kept', x ∈ kept) :
    Cutting g kept' d₀ r₀ excluded tail stop conts es s :=
  ⟨h.untouched.mono hsub, h.linked, h.standing,
    fun x hx => ⟨(h.apart x hx).1, fun hmem => (h.apart x hx).2 (hsub x hmem)⟩, h.parts, h.concat⟩

/-! ## Relocation -/

/-- A pair that was written to a fresh block in place of `victim`, with the announcement of
its new address folded in. -/
structure Relocated (g : Geometry) (pairAddr : BlockPair) (victim : ℕ) (r : Rebuild) (lo hi : ℕ)
    (fixed : List ℕ) (newPair : BlockPair) (fresh : ℕ) (l : MetadataLog) (s : Fs) : Prop where
  address : newPair = pairAddr.replace victim fresh
  spare : Spare g fixed fresh
  built : Rebuild.build g { r with
    relocateState :=
      foldState zeroRelocate r.relocateState (some (buildRelocateBody pairAddr newPair)) } lo hi =
        .ok l
  length : fresh < s.device.blocks.length
  stored : s.device.get fresh = .log l

theorem triple_relocateLoop {fixed kept excluded : List ℕ} {Good : Device → Prop} {d₁ : Device}
    (hgood : ∀ s, Kept fixed d₁ s → Good s.device) (pairAddr : BlockPair) (victim : ℕ) (r : Rebuild)
    (lo hi : ℕ) (chain : Option (ℕ × ℕ)) (left : ℕ)
    (hfixed : ∀ x ∈ fixed, x ∈ kept ∨ x ∈ excluded) :
    Triple (Event.Avoids kept) (Event.Finds Good) (Kept fixed d₁)
      (relocateLoop g pairAddr victim r lo hi chain left excluded none)
      (fun newPair s => Kept fixed d₁ s ∧
        ∃ fresh l, Relocated g pairAddr victim r lo hi fixed newPair fresh l s)
      (fun _ s => Good s.device) := by
  induction left generalizing excluded with
  | zero => exact Triple.fail hgood
  | succ left ih =>
      refine Triple.bind (triple_allocOneBlock kept_cacheFree (fun _ => hgood) hfixed)
        fun fresh => Triple.pre fun hfresh => ?_
      obtain ⟨hspare, -⟩ := hfresh
      refine Triple.bind (triple_buildRange _ lo hi (fun _ _ _ _ _ => True.intro)
        fun _ => hgood) fun l => Triple.pre fun hl => ?_
      refine Triple.bind (triple_programSpare hgood l hspare.free fun _ h => h) fun ok => ?_
      refine Triple.seq (R := fun s => Kept fixed d₁ s ∧ (ok = true →
        fresh < s.device.blocks.length ∧ s.device.get fresh = .log l)) (Triple.modify ?_) ?_
      · rintro s' ⟨s, hs, hw, hok⟩
        have hs' : Kept fixed d₁ s' := hs.write hw hspare.free
        exact ⟨hs', hok⟩
      refine Triple.ite (fun hok => ?_) fun _ => Triple.ite (fun _ => Triple.fail ?_) fun _ => ?_
      · refine Triple.seq (R := fun s => Kept fixed d₁ s ∧ (ok = true →
          fresh < s.device.blocks.length ∧ s.device.get fresh = .log l))
          (Triple.modify fun s hs => hs) (Triple.pure ?_)
        rintro s ⟨hs, hstored⟩
        obtain ⟨hlt, hget⟩ := hstored hok
        exact ⟨hs, fresh, l, rfl, hspare, hl, hlt, hget⟩
      · exact fun s hs => hgood s hs.1
      · exact (ih fun x hx => (hfixed x hx).imp_right (List.mem_append_left _)).strengthen
          fun s hs => hs.1

theorem triple_fitExcluded {P : Fs → Prop} {K O : Event → Prop} {E : Error → Fs → Prop}
    (capacity : ℕ) (blocks : List ℕ) (hE : ∀ e s, P s → E e s) :
    Triple K O P (fitExcluded capacity blocks) (fun _ => P) E :=
  Triple.ite (fun _ => Triple.fail fun s hs => hE _ s hs) fun _ => Triple.pure fun _ h => h

theorem BlockPair.Halves.replace {p : BlockPair} {x y fresh : ℕ} (hp : p.Halves x y) (hne : x ≠ y) :
    (p.replace y fresh).Halves fresh x := by
  unfold BlockPair.replace
  rcases hp with ⟨rfl, rfl⟩ | ⟨rfl, rfl⟩
  · rw [if_neg hne, if_pos rfl]
    exact .inr ⟨rfl, rfl⟩
  · rw [if_pos rfl, if_neg hne]
    exact .inl ⟨rfl, rfl⟩

/-! ## The lower half is written -/

/-- What a split leaves: the directory split in place, or complete at a new address while the
old one still reads as before or after. -/
def SplitDone (g : Geometry) (v : PairView) (r₀ : Rebuild)
    (rest₀ rest₁ : List (BlockPair × MetadataLog)) (moved : Option BlockPair) (d : Device) : Prop :=
  match moved with
  | none =>
      SplitInto g d v.pairAddr (r₀.op.apply (v.slots.entries v.log)) (r₀.moveState.getD zeroMove)
        (r₀.relocateState.getD zeroRelocate) (liveLink r₀.tail) rest₁
  | some newPair =>
      BeforeOrAfter g v r₀ rest₀ rest₁ d ∧
      SplitInto g d newPair (r₀.op.apply (v.slots.entries v.log)) (r₀.moveState.getD zeroMove)
        (xorWords (r₀.relocateState.getD zeroRelocate) (buildRelocateBody v.pairAddr newPair))
        (liveLink r₀.tail) rest₁

/-- The lower half on a fresh block, with the announcement of the new address folded in: the
directory is complete there. -/
theorem Cutting.relocated (hv : v.Found g kept d₀) (hr₀ : r₀.Of v)
    (hrest : d₀.Follows g (liveLink r₀.tail) rest₁) (hwithin : Within kept rest₁) {s : Fs}
    {excluded fixed : List ℕ} {cont : BlockPair} {stop : ℕ}
    {conts : List (BlockPair × MetadataLog)} {es : List Entries}
    (h : Cutting g kept d₀ r₀ excluded (some (cont, true)) stop conts es s) (hne : conts ≠ [])
    (hstop : stop < r₀.total) (hlive : cont.isNull = false) (hactive : v.activeAddr ∈ fixed)
    {newPair : BlockPair} {fresh : ℕ} {lower : MetadataLog}
    (hmoved : Relocated g v.pairAddr v.alternateAddr { r₀ with tail := some (cont, true) } 0 stop
      fixed newPair fresh lower s) :
    SplitInto g s.device newPair (r₀.op.apply (v.slots.entries v.log)) (r₀.moveState.getD zeroMove)
      (xorWords (r₀.relocateState.getD zeroRelocate) (buildRelocateBody v.pairAddr newPair))
      (liveLink r₀.tail) rest₁ := by
  obtain ⟨hbounds, -, -⟩ := hv.bounds
  obtain ⟨hbounda, hboundb⟩ := Geometry.pairInBounds_iff.1 hbounds
  have hapart : fresh ≠ v.activeAddr := fun heq => hmoved.spare.free (heq ▸ hactive)
  have hhalves : newPair.Halves fresh v.activeAddr := by
    rw [hmoved.address]
    exact hv.halves.replace hv.apart
  have hnewBounds : g.pairInBounds newPair = true := by
    have hact : v.activeAddr < g.blockCount := by
      rcases hv.halves with ⟨ha, -⟩ | ⟨-, hb⟩
      · exact ha ▸ hbounda
      · exact hb ▸ hboundb
    rw [Geometry.pairInBounds_iff]
    rcases hhalves with ⟨ha, hb⟩ | ⟨ha, hb⟩
    · exact ⟨ha ▸ hmoved.spare.bound, hb ▸ hact⟩
    · exact ⟨ha ▸ hact, hb ▸ hmoved.spare.bound⟩
  have hbody : ∀ b, some (buildRelocateBody v.pairAddr newPair) = some b → b.length = 4 := by
    rintro b ⟨⟩
    rfl
  have hsplit := h.splitInto (r := { r₀ with
      tail := some (cont, true)
      relocateState := foldState zeroRelocate r₀.relocateState
        (some (buildRelocateBody v.pairAddr newPair)) })
    hv hr₀ hrest hwithin hne hstop ⟨rfl, rfl, rfl⟩
    ⟨hr₀.sized.move, foldState_length hr₀.sized.relocate hbody⟩ rfl rfl hlive hmoved.built
    hhalves hapart hnewBounds hmoved.length hmoved.stored
  have hfold : (foldState zeroRelocate r₀.relocateState
      (some (buildRelocateBody v.pairAddr newPair))).getD zeroRelocate =
      xorWords (r₀.relocateState.getD zeroRelocate) (buildRelocateBody v.pairAddr newPair) :=
    foldState_getD (n := 4) hbody
  rw [← hfold]
  exact hsplit

/-- The lower half on the alternate block: the directory is split in place. -/
theorem Cutting.inPlace (hv : v.Found g kept d₀) (hr₀ : r₀.Of v)
    (hrest : d₀.Follows g (liveLink r₀.tail) rest₁) (hwithin : Within kept rest₁) {s : Fs}
    {excluded : List ℕ} {cont : BlockPair} {stop : ℕ} {conts : List (BlockPair × MetadataLog)}
    {es : List Entries}
    (h : Cutting g kept d₀ r₀ excluded (some (cont, true)) stop conts es s) (hne : conts ≠ [])
    (hstop : stop < r₀.total) (hlive : cont.isNull = false) {lower : MetadataLog}
    (hlower : Rebuild.build g { r₀ with tail := some (cont, true) } 0 stop = .ok lower)
    (hlog : s.device.get v.alternateAddr = .log lower) :
    SplitInto g s.device v.pairAddr (r₀.op.apply (v.slots.entries v.log))
      (r₀.moveState.getD zeroMove) (r₀.relocateState.getD zeroRelocate) (liveLink r₀.tail)
      rest₁ := by
  obtain ⟨hbounds, -, hlt⟩ := hv.bounds
  exact h.splitInto (r := { r₀ with tail := some (cont, true) }) hv hr₀ hrest hwithin hne hstop
    ⟨rfl, rfl, rfl⟩ ⟨hr₀.sized.move, hr₀.sized.relocate⟩ rfl rfl hlive hlower hv.halves.symm
    hv.apart.symm hbounds (h.untouched.length ▸ hlt) hlog

theorem triple_finishSplitLowerHalf (hv : v.Found g kept d₀) (hr₀ : r₀.Of v)
    (hrest₀ : d₀.Follows g v.log.tailLink rest₀) (hwithin₀ : Within kept rest₀)
    (hrest₁ : d₀.Follows g (liveLink r₀.tail) rest₁) (hwithin₁ : Within kept rest₁)
    {excluded : List ℕ} {cont : BlockPair} {stop : ℕ} (hstop : stop < r₀.total)
    (chain : Option (ℕ × ℕ)) :
    Triple (Event.Avoids (v.alternateAddr :: kept)) (Event.Finds (BeforeOrAfter g v r₀ rest₀ rest₁))
      (fun s => ∃ conts es, conts ≠ [] ∧ Cutting g (v.alternateAddr :: kept) d₀ r₀ excluded
        (some (cont, true)) stop conts es s)
      (finishSplitLowerHalf g v r₀ stop cont excluded chain)
      (fun moved s => SplitDone g v r₀ rest₀ rest₁ moved s.device)
      (fun _ s => BeforeOrAfter g v r₀ rest₀ rest₁ s.device) := by
  refine Triple.exists_pre fun conts => Triple.exists_pre fun es => ?_
  refine Triple.strengthen (P := fun s => ∃ s₁, s = s₁ ∧ conts ≠ [] ∧ Cutting g
    (v.alternateAddr :: kept) d₀ r₀ excluded (some (cont, true)) stop conts es s₁)
    (Triple.exists_pre fun s₁ => Triple.pre fun h => ?_) fun s hs => ⟨s, rfl, hs⟩
  obtain ⟨hne, hcut⟩ := h
  have hlive := hcut.live hne
  have hcut₁ : Cutting g kept d₀ r₀ excluded (some (cont, true)) stop conts es s₁ :=
    hcut.fewer fun x hx => List.mem_cons_of_mem _ hx
  have hsame₁ : SameOn kept d₀ s₁.device := hcut₁.untouched
  have haltern : s₁.device.get v.alternateAddr = d₀.get v.alternateAddr :=
    hcut.untouched.get _ (List.mem_cons_self ..)
  have halt : v.alternateAddr ∉ kept ++ chainBlocks conts := by
    intro hmem
    rcases List.mem_append.1 hmem with hmem | hmem
    · exact hv.alternate hmem
    · exact (hcut.apart _ hmem).2 (List.mem_cons_self ..)
  -- what the alternate block may hold while the rest stays
  have hbefore : ∀ s, Kept (kept ++ chainBlocks conts) s₁.device s →
      (s.device.get v.alternateAddr).Yields g v.pairAddr v.activeAddr v.log →
      BeforeOrAfter g v r₀ rest₀ rest₁ s.device := fun s hs hyields =>
    .inl (hv.before hrest₀ hwithin₀
      (hsame₁.trans (hs.mono fun _ => List.mem_append_left _)) hyields)
  have hyields₁ : (s₁.device.get v.alternateAddr).Yields g v.pairAddr v.activeAddr v.log :=
    haltern ▸ hv.reads.2.2
  have hstart : BeforeOrAfter g v r₀ rest₀ rest₁ s₁.device := hbefore s₁ .refl hyields₁
  refine Triple.bind (triple_buildRange { r₀ with tail := some (cont, true) } 0 stop
    (fun _ _ _ _ _ => True.intro) fun _ s hs => hs ▸ hstart) fun l => Triple.pre fun hl => ?_
  have hafter : ∀ s, Kept (kept ++ chainBlocks conts) s₁.device s →
      s.device.get v.alternateAddr = .log l →
      SplitInto g s.device v.pairAddr (r₀.op.apply (v.slots.entries v.log))
        (r₀.moveState.getD zeroMove) (r₀.relocateState.getD zeroRelocate) (liveLink r₀.tail)
        rest₁ := fun s hs hlog =>
    (hcut₁.later hs).inPlace hv hr₀ hrest₁ hwithin₁ hne hstop hlive hl hlog
  have hwritten : ∀ s, Kept (kept ++ chainBlocks conts) s₁.device s →
      (s₁.device.get v.alternateAddr).Rewriting l (s.device.get v.alternateAddr) →
      BeforeOrAfter g v r₀ rest₀ rest₁ s.device := by
    rintro s hs (herasing | htorn | hlog)
    · exact hbefore s hs (hyields₁.erasing (haltern ▸ hv.quiet) herasing)
    · refine hbefore s hs ?_
      rw [htorn]
      exact Block.torn_yields ..
    · exact .inr (hafter s hs hlog)
  refine Triple.bind (triple_eraseAndProgramLog l (fun s hs => hs ▸ hstart) ?_) fun ok => ?_
  · rintro s s' rfl hw herased
    refine hbefore s' (SameOn.refl.write hw halt) ?_
    rw [herased]
    exact Block.erased_yields
  refine Triple.ite (fun hok => ?_) fun _ => ?_
  · refine Triple.seq (R := fun s => SplitDone g v r₀ rest₀ rest₁ none s.device) (Triple.modify ?_)
      (Triple.seq (R := fun s => SplitDone g v r₀ rest₀ rest₁ none s.device)
        (Triple.modify fun _ h => h) (Triple.pure fun _ h => h))
    rintro s' ⟨s, rfl, hw, -, hstored⟩
    exact hafter s' (SameOn.refl.write hw halt) (hstored hok).2
  refine Triple.get_bind fun s₂ hs₂ => ?_
  obtain ⟨s, rfl, hw, hrewriting, -⟩ := hs₂
  have hkept₂ : Kept (kept ++ chainBlocks conts) s.device s₂ := SameOn.refl.write hw halt
  refine Triple.ite (fun _ => Triple.fail fun s' hs' => hs' ▸ hwritten s₂ hkept₂ hrewriting)
    fun _ => ?_
  -- the alternate block is worn: whatever it holds by now stays too
  have hkept₃ : ∀ s₃, Kept (v.alternateAddr :: (kept ++ chainBlocks conts)) s₂.device s₃ →
      Kept (kept ++ chainBlocks conts) s.device s₃ := fun s₃ hs₃ =>
    SameOn.trans hkept₂ (hs₃.mono fun _ => List.mem_cons_of_mem _)
  have hgood : ∀ s₃, Kept (v.alternateAddr :: (kept ++ chainBlocks conts)) s₂.device s₃ →
      BeforeOrAfter g v r₀ rest₀ rest₁ s₃.device := fun s₃ hs₃ =>
    hwritten s₃ (hkept₃ s₃ hs₃) ((hs₃.get _ (List.mem_cons_self ..)).symm ▸ hrewriting)
  have hfixed : ∀ x ∈ v.alternateAddr :: (kept ++ chainBlocks conts),
      x ∈ v.alternateAddr :: kept ∨ x ∈ [v.pairAddr.a, v.pairAddr.b] ++ excluded := by
    intro x hx
    rcases List.mem_cons.1 hx with rfl | hx
    · exact .inl (List.mem_cons_self ..)
    rcases List.mem_append.1 hx with hx | hx
    · exact .inl (List.mem_cons_of_mem _ hx)
    · exact .inr (List.mem_append_right _ (hcut.apart x hx).1)
  refine Triple.bind (Triple.seq (triple_fitExcluded _ _ fun _ s hs => hs ▸ hgood s₂ .refl)
    ((triple_relocateLoop hgood v.pairAddr v.alternateAddr { r₀ with tail := some (cont, true) } 0
      stop chain _ hfixed).strengthen fun s hs => hs ▸ SameOn.refl)) fun newPair => ?_
  refine Triple.seq (R := fun s => SplitDone g v r₀ rest₀ rest₁ (some newPair) s.device)
    (Triple.modify ?_) (Triple.seq (R := fun s => SplitDone g v r₀ rest₀ rest₁ (some newPair)
      s.device) (Triple.modify fun _ h => h) (Triple.pure fun _ h => h))
  rintro s₃ ⟨hs₃, fresh, lower, hmoved⟩
  exact ⟨hgood s₃ hs₃, (hcut₁.later (hkept₃ s₃ hs₃)).relocated hv hr₀ hrest₁ hwithin₁ hne hstop
    hlive (List.mem_cons_of_mem _ (List.mem_append_left _ hv.active)) hmoved⟩

end Lower

end LittlefsPure
