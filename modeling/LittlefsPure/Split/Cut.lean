import LittlefsPure.Split.Directory

/-!
# Cutting a directory

The cut loop of a split takes continuations off the upper end of the entries, each
written on two fresh blocks and linked to the one before it.  Nothing that a reader
reaches is touched until the lower half is written: every erase and every program in
front of that finds the device in a state that the split has not changed where it
matters, which is the obligation `Event.Finds` here.

The allocator is relied on for one thing, `Event.Avoids`: it does not hand out the
blocks of live structures.

## Why every device call is looked at

That a split succeeds or fails cleanly could be read off its result.  But power may go at any
moment, and what a reader finds then is whatever the last call of the device has left.  So the
statement is about the events: in front of each erase and each program the directory reads as
before.  A cut inside a program leaves a block that is torn, and a torn block shows no commit.
-/

namespace LittlefsPure

open FsM Logic

/-- No block of a live structure is handed out. -/
def Event.Avoids (kept : List ℕ) : Event → Prop
  | .alloc _ _ blocks => ∀ b ∈ blocks, b ∉ kept
  | _ => True

instance (kept : List ℕ) : DecidablePred (Event.Avoids kept) := fun e =>
  match e with
  | .alloc _ _ blocks => inferInstanceAs (Decidable (∀ b ∈ blocks, b ∉ kept))
  | .erase .. | .program .. | .programBytes .. | .append .. | .rebuild .. | .commit .. | .resume
    .. =>
      .isTrue trivial

/-- Each erase and each program finds the device in a good state. -/
def Event.Finds (Good : Device → Prop) : Event → Prop
  | .erase before _ _ => Good before
  | .program before _ => Good before
  | _ => True

theorem Rebuild.build_hasCommits {g : Geometry} {r : Rebuild} {lo hi : ℕ} {l : MetadataLog}
    (h : r.build g lo hi = .ok l) : l.hasCommits = true := by
  obtain ⟨tags, closing, -, ⟨g, fcrc, n, rfl⟩, hshape⟩ := build_tags h
  rw [MetadataLog.hasCommits, hshape]
  simp

section Cut

variable {g : Geometry} {kept fixed excluded : List ℕ} {Good : Device → Prop}
  {chain : Option (ℕ × ℕ)} {d₀ : Device}

/-- A block that may be written: nothing that is fixed, and a block of the device. -/
structure Spare (g : Geometry) (fixed : List ℕ) (b : ℕ) : Prop where
  free : b ∉ fixed
  bound : b < g.blockCount
  tracked : b < maxTrackedBlocks

theorem triple_allocOneBlock {P : Fs → Prop} {E : Error → Fs → Prop} (hP : CacheFree P)
    (hE : ∀ e s, P s → E e s) (hfixed : ∀ x ∈ fixed, x ∈ kept ∨ x ∈ excluded) :
    Triple (Event.Avoids kept) (Event.Finds Good) P (allocOneBlock g excluded chain)
      (fun b s => P s ∧ Spare g fixed b ∧ b ∉ excluded) E := by
  refine Triple.bind (triple_allocBlocks (fun _ _ _ _ _ _ _ => True.intro)
    fun s cache e hs _ => hE e _ (hP s cache hs)) fun blocks => Triple.pure ?_
  rintro s' ⟨s, base, used, hs, rfl, hserved, havoids⟩
  obtain ⟨b, rfl⟩ := List.length_eq_one_iff.1 hserved.taken.length
  have hb : b ∈ [b] := List.mem_singleton_self b
  refine ⟨hP s _ hs, ⟨fun hmem => ?_, hserved.taken.bound b hb,
    Bitmap.lt_of_not_isSet (hserved.taken.free b hb)⟩, hserved.avoids b hb⟩
  rcases hfixed b hmem with h | h
  · exact havoids b hb h
  · exact hserved.avoids b hb h

/-- The blocks that are fixed hold what they held at the start. -/
def Kept (fixed : List ℕ) (d₀ : Device) (s : Fs) : Prop := SameOn fixed d₀ s.device

theorem kept_cacheFree : CacheFree (Kept fixed d₀) := fun _ _ h => h

theorem Kept.write {addr : ℕ} {s s' : Fs} (h : Kept fixed d₀ s) (hw : WritesOnly addr s s')
    (haddr : addr ∉ fixed) : Kept fixed d₀ s' := SameOn.write h hw haddr

variable {E : Error → Fs → Prop} (hgood : ∀ s, Kept fixed d₀ s → Good s.device)

include hgood

/-- A fresh block is erased and programmed. -/
theorem triple_programSpare {P : Fs → Prop} {b : ℕ} (l : MetadataLog) (hb : b ∉ fixed)
    (hP : ∀ s, P s → Kept fixed d₀ s) :
    Triple (Event.Avoids kept) (Event.Finds Good) P (eraseAndProgramLog b l)
      (fun ok s' => ∃ s, P s ∧ WritesOnly b s s' ∧
        (ok = true → b < s'.device.blocks.length ∧ s'.device.get b = .log l)) E := by
  refine (triple_eraseAndProgramLog l (fun s hs => hgood s (hP s hs))
    fun s s' hs hw _ => hgood s' ((hP s hs).write hw hb)).weaken ?_
  rintro ok s' ⟨s, hs, hw, -, hok⟩
  exact ⟨s, hs, hw, hok⟩

theorem triple_tryContinuation {ca cb : ℕ} (ha : ca ∉ fixed) (hb : cb ∉ fixed) (hne : ca ≠ cb)
    (l : MetadataLog) :
    Triple (Event.Avoids kept) (Event.Finds Good) (Kept fixed d₀) (tryContinuation ca cb l)
      (fun worn s => Kept fixed d₀ s ∧ (worn = none → ca < s.device.blocks.length ∧
        cb < s.device.blocks.length ∧ s.device.get ca = .log l ∧ s.device.get cb = .erased)) E := by
  refine Triple.bind (triple_programSpare hgood l ha fun _ h => h) fun ok =>
    Triple.ite (fun hok => ?_) fun _ => ?_
  · refine Triple.seq (R := fun s => Kept fixed d₀ s ∧ ca < s.device.blocks.length ∧
      s.device.get ca = .log l) (Triple.modify ?_) ?_
    · rintro s' ⟨s, hs, hw, hlog⟩
      have hs' : Kept fixed d₀ s' := hs.write hw ha
      exact ⟨hs', hlog hok⟩
    refine Triple.bind (triple_eraseBlock fun s hs => hgood s hs.1) fun ok' =>
      Triple.ite (fun hok' => ?_) fun _ => ?_
    · refine Triple.seq (R := fun s => Kept fixed d₀ s ∧ ca < s.device.blocks.length ∧
        cb < s.device.blocks.length ∧ s.device.get ca = .log l ∧ s.device.get cb = .erased)
        (Triple.modify ?_) (Triple.pure fun s hs => ⟨hs.1, fun _ => hs.2⟩)
      rintro s' ⟨s, ⟨hs, hlt, hlog⟩, hw, -, herased⟩
      obtain ⟨hlt', herased⟩ := herased hok'
      have hs' : Kept fixed d₀ s' := hs.write hw hb
      exact ⟨hs', hw.length ▸ hlt, hlt', (hw.other ca hne).trans hlog, herased⟩
    · refine Triple.seq (R := Kept fixed d₀) (Triple.modify ?_)
        (Triple.pure fun s hs => ⟨hs, nofun⟩)
      rintro s' ⟨s, ⟨hs, -⟩, hw, -⟩
      have hs' : Kept fixed d₀ s' := hs.write hw hb
      exact hs'
  · refine Triple.pure ?_
    rintro s' ⟨s, hs, hw, -⟩
    exact ⟨hs.write hw ha, nofun⟩

/-- The range of a continuation, as it is built. -/
def Rebuild.Continues (g : Geometry) (r : Rebuild) (lo hi : ℕ) (l : MetadataLog) : Prop :=
  Rebuild.build g { r with newRevision := 1, moveState := none, relocateState := none } lo hi =
    .ok l

/-- A continuation as it stands on its two blocks. -/
structure Standing (g : Geometry) (d : Device) (p : BlockPair) (l : MetadataLog) : Prop where
  first : d.get p.a = .log l
  second : d.get p.b = .erased
  apart : p.a ≠ p.b
  bounds : g.pairInBounds p = true
  length : p.a < d.blocks.length ∧ p.b < d.blocks.length
  live : p.isNull = false
  commits : l.hasCommits = true

omit hgood in
theorem isNull_of_tracked {p : BlockPair} (ha : p.a < maxTrackedBlocks)
    (hb : p.b < maxTrackedBlocks) :
    p.isNull = false := by
  have hsmall : maxTrackedBlocks ≤ noBlock := by decide
  simp only [BlockPair.isNull, Bool.or_eq_false_iff, beq_eq_false_iff_ne]
  omega

omit hgood in
theorem triple_buildRange {P : Fs → Prop} {K O : Event → Prop} (r : Rebuild) (lo hi : ℕ)
    (hO : ∀ source slots op lo hi, O (.rebuild source slots op lo hi))
    (hE : ∀ e s, P s → E e s) :
    Triple K O P (buildRange g r lo hi) (fun l s => P s ∧ r.build g lo hi = .ok l) E := by
  refine Triple.bind (R := fun l s => P s ∧ r.build g lo hi = .ok l)
    (Triple.lift (fun s l hs h => ⟨hs, h⟩) fun s e hs _ => hE e s hs) fun l => ?_
  exact Triple.seq (R := fun s => P s ∧ r.build g lo hi = .ok l)
    (Triple.note fun s hs _ => ⟨hO .., hs⟩) (Triple.pure fun _ hs => hs)

/-- A continuation is written on two blocks that were spare, and nothing else is touched. -/
theorem triple_programSplitContinuation (hE : ∀ e s, Kept fixed d₀ s → E e s) (r : Rebuild)
    (lo hi left : ℕ) (hfixed : ∀ x ∈ fixed, x ∈ kept ∨ x ∈ excluded) :
    Triple (Event.Avoids kept) (Event.Finds Good) (Kept fixed d₀)
      (programSplitContinuation g r lo hi chain left excluded)
      (fun out s => Kept fixed d₀ s ∧ (∀ x ∈ excluded, x ∈ out.2.1) ∧ out.1.a ∉ fixed ∧
        out.1.b ∉ fixed ∧ ∃ l, r.Continues g lo hi l ∧ Standing g s.device out.1 l) E := by
  induction left generalizing excluded with
  | zero => exact Triple.fail fun s hs => hE _ s hs
  | succ left ih =>
      refine Triple.bind (triple_allocOneBlock kept_cacheFree hE hfixed) fun ca => ?_
      refine Triple.pre fun hca => ?_
      obtain ⟨hca, -⟩ := hca
      refine Triple.ite (fun _ => Triple.fail fun s hs => hE _ s hs) fun _ => ?_
      have hfixed' : ∀ x ∈ fixed, x ∈ kept ∨ x ∈ excluded ++ [ca] := fun x hx =>
        (hfixed x hx).imp_right (List.mem_append_left _)
      refine Triple.bind (triple_allocOneBlock kept_cacheFree hE hfixed') fun cb => ?_
      refine Triple.pre fun hcb => ?_
      obtain ⟨hcb, hout⟩ := hcb
      have hne : ca ≠ cb := by
        rintro rfl
        exact hout (List.mem_append_right _ (List.mem_singleton_self _))
      refine Triple.bind (triple_buildRange _ lo hi (fun _ _ _ _ _ => True.intro) hE) fun l => ?_
      refine Triple.pre fun hl => ?_
      refine Triple.bind (triple_tryContinuation hgood hca.free hcb.free hne l) fun worn => ?_
      cases worn with
      | none =>
          refine Triple.pure ?_
          rintro s ⟨hs, hlog⟩
          obtain ⟨hlta, hltb, hfirst, hsecond⟩ := hlog rfl
          exact ⟨hs, fun x hx => hx, hca.free, hcb.free, l, hl, hfirst, hsecond, hne,
            Geometry.pairInBounds_iff.2 ⟨hca.bound, hcb.bound⟩, ⟨hlta, hltb⟩,
            isNull_of_tracked hca.tracked hcb.tracked, Rebuild.build_hasCommits hl⟩
      | some bad =>
          refine Triple.seq (R := Kept fixed d₀) (Triple.modify fun s hs => hs.1) ?_
          refine Triple.ite (fun _ => Triple.fail fun s hs => hE _ s hs) fun _ => ?_
          refine (ih fun x hx => (hfixed x hx).imp_right (List.mem_append_left _)).weaken ?_
          rintro out s ⟨hs, hsub, hrest⟩
          exact ⟨hs, fun x hx => hsub x (List.mem_append_left _ hx), hrest⟩

end Cut

/-! ## The cut loop -/

/-- The search for a cut stays inside its range. -/
theorem computeSplitIndexFrom_bounds {g : Geometry} {source : MetadataLog} {slots : Roster Slot}
    {op : WriteOp} {stop fuel split next : ℕ}
    (h : computeSplitIndexFrom g source slots op stop fuel split = .ok next) :
    split ≤ next ∧ (next = split ∨ next < stop) := by
  induction fuel generalizing split with
  | zero =>
      cases h
      exact ⟨Nat.le_refl _, .inl rfl⟩
  | succ fuel ih =>
      rw [computeSplitIndexFrom] at h
      split_ifs at h with hgap
      · obtain ⟨size, -, h⟩ := bind_eq_ok.1 h
        dsimp only at h
        split_ifs at h
        · cases h
          exact ⟨Nat.le_refl _, .inl rfl⟩
        · obtain ⟨hle, hlt⟩ := ih h
          refine ⟨by omega, .inr ?_⟩
          omega
      · cases h
        exact ⟨Nat.le_refl _, .inl rfl⟩

/-- A cut lies strictly inside the entries that are left. -/
theorem computeSplitIndex_lt {g : Geometry} {source : MetadataLog} {slots : Roster Slot}
    {op : WriteOp} {stop next : ℕ} (h : computeSplitIndex g source slots op 0 stop = .ok next)
    (hne : next ≠ 0) : next < stop := by
  obtain ⟨-, heq | hlt⟩ := computeSplitIndexFrom_bounds h
  · exact absurd heq hne
  · exact hlt

/-- A search that has halved its range often enough does not halve it again. -/
theorem computeSplitIndexFrom_enough {g : Geometry} {source : MetadataLog} {slots : Roster Slot}
    {op : WriteOp} {stop fuel split : ℕ} (h : stop - split ≤ fuel) (more : ℕ) :
    computeSplitIndexFrom g source slots op stop (fuel + more) split =
      computeSplitIndexFrom g source slots op stop fuel split := by
  induction fuel generalizing split with
  | zero =>
      cases more with
      | zero => rfl
      | succ more =>
          have hgap : ¬ stop - split > 1 := by omega
          rw [Nat.zero_add]
          simp only [computeSplitIndexFrom, if_neg hgap]
  | succ fuel ih =>
      rw [Nat.succ_add, computeSplitIndexFrom, computeSplitIndexFrom]
      by_cases hgap : stop - split > 1
      · rw [if_pos hgap, if_pos hgap, ih (by omega)]
      · rw [if_neg hgap, if_neg hgap]

theorem WriteOp.part_length_le (op : WriteOp) (entries : Entries) {lo hi : ℕ} (h : lo ≤ hi) :
    (op.part entries lo hi).length ≤ hi - lo := by
  have hnew : op.newEntry.toList.length ≤ 1 := by cases op.newEntry <;> simp
  have hold := List.length_filterMap_le (fun p : Entry × ℕ => op.onEntry p.2 p.1)
    ((entries.zipIdx.take hi).drop lo)
  rw [List.length_drop, List.length_take, List.length_zipIdx] at hold
  rw [WriteOp.part, List.length_append]
  split_ifs
  · omega
  · rw [List.length_nil]
    omega

theorem Standing.congr {g : Geometry} {d d' : Device} {kept : List ℕ} {p : BlockPair}
    {l : MetadataLog} (h : Standing g d p l) (hsame : SameOn kept d d') (ha : p.a ∈ kept)
    (hb : p.b ∈ kept) : Standing g d' p l where
  first := (hsame.get _ ha).trans h.first
  second := (hsame.get _ hb).trans h.second
  apart := h.apart
  bounds := h.bounds
  length := by
    rw [hsame.length]
    exact h.length
  live := h.live
  commits := h.commits

/-- The blocks of a chain. -/
def chainBlocks (conts : List (BlockPair × MetadataLog)) : List ℕ :=
  conts.flatMap fun c => [c.1.a, c.1.b]

theorem mem_chainBlocks {conts : List (BlockPair × MetadataLog)} {x : ℕ} :
    x ∈ chainBlocks conts ↔ ∃ c ∈ conts, x = c.1.a ∨ x = c.1.b := by
  simp [chainBlocks]

/-- A split under way: the continuations cut so far, from the last one cut to the first, and
the entries each of them carries. -/
structure Cutting (g : Geometry) (kept : List ℕ) (d₀ : Device) (r₀ : Rebuild)
    (excluded : List ℕ) (tail : Option TailLink) (stop : ℕ)
    (conts : List (BlockPair × MetadataLog)) (es : List Entries) (s : Fs) : Prop where
  untouched : Kept kept d₀ s
  linked : Linked tail (liveLink r₀.tail) conts
  standing : ∀ c ∈ conts, Standing g s.device c.1 c.2
  apart : ∀ x ∈ chainBlocks conts, x ∈ excluded ∧ x ∉ kept
  parts : List.Forall₂ (fun c e => c.2.Carries e zeroMove zeroRelocate c.2.tailLink ∧
    e.length ≤ maxLiveEntries) conts es
  concat : es.flatten = r₀.op.part (r₀.slots.entries r₀.source) stop r₀.total

section Loop

variable {g : Geometry} {kept excluded : List ℕ} {Good : Device → Prop} {chain : Option (ℕ × ℕ)}
  {d₀ : Device} {r₀ : Rebuild} {tail : Option TailLink} {stop : ℕ}
  {conts : List (BlockPair × MetadataLog)} {es : List Entries}

/-- What a split has done stays while other blocks are written. -/
theorem Cutting.later {s s' : Fs} (h : Cutting g kept d₀ r₀ excluded tail stop conts es s)
    (hs : Kept (kept ++ chainBlocks conts) s.device s') :
    Cutting g kept d₀ r₀ excluded tail stop conts es s' where
  untouched := h.untouched.trans (hs.mono fun _ => List.mem_append_left _)
  linked := h.linked
  standing c hc := (h.standing c hc).congr hs
    (List.mem_append_right _ (mem_chainBlocks.2 ⟨c, hc, .inl rfl⟩))
    (List.mem_append_right _ (mem_chainBlocks.2 ⟨c, hc, .inr rfl⟩))
  apart := h.apart
  parts := h.parts
  concat := h.concat

theorem Cutting.mono {excluded' : List ℕ} {s : Fs}
    (h : Cutting g kept d₀ r₀ excluded tail stop conts es s)
    (hsub : ∀ x ∈ excluded, x ∈ excluded') :
    Cutting g kept d₀ r₀ excluded' tail stop conts es s :=
  ⟨h.untouched, h.linked, h.standing, fun x hx => ⟨hsub x (h.apart x hx).1, (h.apart x hx).2⟩,
    h.parts, h.concat⟩

/-- The same rebuild under another tail. -/
structure Rebuild.SameEntries (r₀ r : Rebuild) : Prop where
  source : r.source = r₀.source
  slots : r.slots = r₀.slots
  op : r.op = r₀.op

/-- One more continuation. -/
theorem Cutting.cons {r : Rebuild} {l₀ : MetadataLog} (hr : r₀.SameEntries r)
    (hslots : gatherLiveSlots l₀ = .ok r₀.slots) (hname : r₀.op.WritesName) {s : Fs} {cut : ℕ}
    (h : Cutting g kept d₀ r₀ excluded (liveLink r.tail) stop conts es s) (hcut : 0 < cut)
    (hstop : cut < stop) (htotal : stop ≤ r₀.total) {cont : BlockPair} {l : MetadataLog}
    (hl : r.Continues g cut stop l) (hstanding : Standing g s.device cont l)
    (ha : cont.a ∉ kept) (hb : cont.b ∉ kept) :
    ∃ e, Cutting g kept d₀ r₀ (excluded ++ [cont.a, cont.b]) (some (cont, true)) cut
      ((cont, l) :: conts) (e :: es) s := by
  obtain ⟨hsource, hslots', hop⟩ := hr
  have hcarries := Rebuild.build_entries (r := { r with
    newRevision := 1, moveState := none, relocateState := none })
    (by rw [← hslots'] at hslots; exact hslots) (by show r.op.WritesName; rw [hop]; exact hname)
    ⟨nofun, nofun⟩ hl
  have hcarries' : l.Carries (r₀.op.part (r₀.slots.entries r₀.source) cut stop) zeroMove
      zeroRelocate (liveLink r.tail) := by
    rw [← hop, ← hslots', ← hsource]
    exact hcarries
  have hwf : r₀.slots.Wf := walkTags_wf (Roster.new_wf _) hslots
  have hlen : (r₀.op.part (r₀.slots.entries r₀.source) cut stop).length ≤ maxLiveEntries := by
    have hpart := r₀.op.part_length_le (r₀.slots.entries r₀.source) (Nat.le_of_lt hstop)
    have hcount := hwf.count
    have htot : r₀.total ≤ r₀.slots.count + 1 := by
      unfold Rebuild.total
      split_ifs <;> omega
    omega
  refine ⟨_, h.untouched, ⟨rfl, ?_⟩, ?_, ?_, .cons ⟨?_, hlen⟩ h.parts, ?_⟩
  · rw [hcarries'.tail]
    exact h.linked
  · rintro c (_ | ⟨_, hc⟩)
    · exact hstanding
    · exact h.standing c hc
  · intro x hx
    obtain ⟨c, hc, hx⟩ := mem_chainBlocks.1 hx
    rcases List.mem_cons.1 hc with rfl | hc
    · rcases hx with rfl | rfl
      · exact ⟨List.mem_append_right _ (List.mem_cons_self ..), ha⟩
      · exact ⟨List.mem_append_right _ (List.mem_cons_of_mem _ (List.mem_cons_self ..)), hb⟩
    · obtain ⟨hex, hkept⟩ := h.apart x (mem_chainBlocks.2 ⟨c, hc, hx⟩)
      exact ⟨List.mem_append_left _ hex, hkept⟩
  · rw [hcarries'.tail]
    exact hcarries'
  · rw [List.flatten_cons, h.concat]
    exact r₀.op.part_append _ (Nat.le_of_lt hstop) htotal

/-- Each turn of the cut loop takes one continuation off what is left, which is never all of
it. -/
theorem triple_cutLoop {l₀ : MetadataLog} (hslots : gatherLiveSlots l₀ = .ok r₀.slots)
    (hname : r₀.op.WritesName) (hgood : ∀ s, Kept kept d₀ s → Good s.device) (cuts : ℕ)
    {r : Rebuild} (hr : r₀.SameEntries r) {cut stop left : ℕ} (hcut : 0 < cut) (hstop : cut < stop)
    (htotal : stop ≤ r₀.total) :
    Triple (Event.Avoids kept) (Event.Finds Good)
      (fun s => ∃ conts es, Cutting g kept d₀ r₀ excluded (liveLink r.tail) stop conts es s)
      (cutLoop g r chain cuts cut stop left excluded)
      (fun out s => (0 < out.2.1 ∧ out.2.1 < r₀.total) ∧ ∃ conts es, conts ≠ [] ∧
        Cutting g kept d₀ r₀ out.2.2 (some (out.1, true)) out.2.1 conts es s)
      (fun _ s => Good s.device) := by
  induction cuts generalizing r cut stop left excluded with
  | zero =>
      refine Triple.fail ?_
      rintro s ⟨conts, es, h⟩
      exact hgood s h.untouched
  | succ cuts ih =>
      refine Triple.exists_pre fun conts => Triple.exists_pre fun es => ?_
      -- what the split has done so far is fixed while the next continuation is written
      refine Triple.strengthen (P := fun s => ∃ s₁, s = s₁ ∧
        Cutting g kept d₀ r₀ excluded (liveLink r.tail) stop conts es s₁)
        (Triple.exists_pre fun s₁ => Triple.pre fun h => ?_) fun s hs => ⟨s, rfl, hs⟩
      have hfixed : ∀ x ∈ kept ++ chainBlocks conts, x ∈ kept ∨ x ∈ excluded := by
        intro x hx
        rcases List.mem_append.1 hx with hx | hx
        · exact .inl hx
        · exact .inr (h.apart x hx).1
      have hgood' : ∀ s, Kept (kept ++ chainBlocks conts) s₁.device s → Good s.device :=
        fun s hs => hgood s (h.later hs).untouched
      refine Triple.bind ((triple_programSplitContinuation hgood' (fun _ s hs => hgood' s hs) r cut
        stop left hfixed).strengthen fun s hs => hs ▸ SameOn.refl) fun out => ?_
      obtain ⟨cont, excluded', left'⟩ := out
      refine Triple.strengthen (P := fun s => ∃ conts es, conts ≠ [] ∧ Cutting g kept d₀ r₀
        (excluded' ++ [cont.a, cont.b]) (some (cont, true)) cut conts es s ∧
          cont.isNull = false) ?_ ?_
      · have hdone : ∀ s, (∃ conts es, conts ≠ [] ∧ Cutting g kept d₀ r₀
            (excluded' ++ [cont.a, cont.b]) (some (cont, true)) cut conts es s ∧
              cont.isNull = false) → (0 < cut ∧ cut < r₀.total) ∧ ∃ conts es, conts ≠ [] ∧
            Cutting g kept d₀ r₀ (excluded' ++ [cont.a, cont.b]) (some (cont, true)) cut conts
              es s :=
          fun s ⟨conts, es, hne, h, _⟩ => ⟨⟨hcut, by omega⟩, conts, es, hne, h⟩
        refine Triple.ite (fun _ => Triple.fail ?_) fun _ => Triple.ite
          (fun _ => Triple.pure hdone) fun _ => ?_
        · rintro s ⟨_, _, _, h, _⟩
          exact hgood s h.untouched
        refine Triple.bind (R := fun next s => (∃ conts es, conts ≠ [] ∧ Cutting g kept d₀ r₀
          (excluded' ++ [cont.a, cont.b]) (some (cont, true)) cut conts es s ∧
            cont.isNull = false) ∧ computeSplitIndex g r.source r.slots r.op 0 cut = .ok next)
          (Triple.lift (fun s next hs h => ⟨hs, h⟩) ?_) fun next => ?_
        · rintro s e ⟨_, _, _, h, _⟩ -
          exact hgood s h.untouched
        refine Triple.pre fun hnext => Triple.ite (fun _ => Triple.pure hdone) fun hne => ?_
        refine (ih (r := { r with tail := some (cont, true) }) ⟨hr.source, hr.slots, hr.op⟩
          (Nat.pos_of_ne_zero hne) (computeSplitIndex_lt hnext hne) (by omega)).strengthen ?_
        rintro s ⟨conts, es, -, h, hlive⟩
        have hlink : liveLink (some (cont, true)) = some (cont, true) := by
          simp [liveLink, Option.filter, hlive]
        refine ⟨conts, es, ?_⟩
        show Cutting g kept d₀ r₀ _ (liveLink (some (cont, true))) cut conts es s
        rw [hlink]
        exact h
      · rintro s ⟨hs, hsub, ha, hb, l, hl, hstanding⟩
        obtain ⟨e, hcutting⟩ := (((h.later hs).mono hsub).cons hr hslots hname hcut hstop htotal hl
          hstanding (fun hmem => ha (List.mem_append_left _ hmem))
          fun hmem => hb (List.mem_append_left _ hmem))
        exact ⟨_, _, List.cons_ne_nil _ _, hcutting, hstanding.live⟩

end Loop

end LittlefsPure
