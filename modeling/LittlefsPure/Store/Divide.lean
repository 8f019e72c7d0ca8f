import LittlefsPure.Store.Guard
import LittlefsPure.Store.Logs

/-!
# Cutting a flat directory

The cut loop of a split on a device without faults.  The continuations are written beside
the directory, which stays at rest until the lower half is programmed, and they add up to
no more pairs than the split was allowed.

## Why the budget is never exceeded

Each continuation takes a range of entries from the upper end, and the lower half keeps what is
left.  The number of pairs a directory may have is bounded by what the walks can queue, and the
budget of a split is what is left of that; so behind a split the directory can still be walked.
-/

namespace LittlefsPure

open FsM Logic

section Divide

variable {g : Geometry} {root : BlockPair} {chain : List Node} {fixed excluded : List ℕ}
  {d₁ : Device}

/-- The directory is at rest, and some more blocks hold what they held. -/
def RestedKept (g : Geometry) (root : BlockPair) (chain : List Node) (fixed : List ℕ) (d₁ : Device)
    (s : Fs) : Prop :=
  Rested g root chain s ∧ Kept fixed d₁ s

theorem RestedKept.put {s : Fs} {b : ℕ} (h : RestedKept g root chain fixed d₁ s)
    (hb : Clear g chain b) (hfixed : b ∉ fixed) (content : Block) :
    RestedKept g root chain fixed d₁ (s.put b content) := by
  refine ⟨h.1.put hb.free content, fun x hx => ?_, (Device.length_write ..).trans h.2.length⟩
  rw [Fs.put_device, Device.get_write_ne _ fun heq : b = x => hfixed (heq ▸ hx)]
  exact h.2.get x hx

theorem RestedKept.account {s s' : Fs} (h : RestedKept g root chain fixed d₁ s)
    (hframe : s' = { s with unpublished := s'.unpublished }) :
    RestedKept g root chain fixed d₁ s' := by
  refine ⟨h.1.account hframe, ?_⟩
  rw [hframe]
  exact h.2

section Continuation

variable {K : Event → Prop} {E : Error → Fs → Prop}

/-- A continuation is written on two blocks, without a fault. -/
theorem triple_tryContinuation_calm {ca cb : ℕ} (ha : Clear g chain ca) (hb : Clear g chain cb)
    (hfa : ca ∉ fixed) (hfb : cb ∉ fixed) (hne : ca ≠ cb) (l : MetadataLog) :
    Triple K (Event.Survives g (AtRest g · root chain)) (RestedKept g root chain fixed d₁)
      (tryContinuation ca cb l)
      (fun worn s => worn = none ∧ RestedKept g root chain fixed d₁ s ∧
        s.device.get ca = .log l ∧ s.device.get cb = .erased) E := by
  refine Triple.bind (triple_programBeside (fun s hs => hs.1) ha l) fun ok => ?_
  refine Triple.strengthen (P := fun s' => (∃ s, RestedKept g root chain fixed d₁ s ∧
    s' = s.put ca (.log l)) ∧ ok = true) (Triple.pre ?_) fun s h => ⟨h.2, h.1⟩
  rintro rfl
  rw [if_pos rfl]
  refine Triple.seq (R := fun s => RestedKept g root chain fixed d₁ s ∧
    s.device.get ca = .log l) (Triple.modify ?_) ?_
  · rintro s' ⟨s, hs, rfl⟩
    exact ⟨RestedKept.account (hs.put ha hfa _) rfl, Device.get_write_self (hs.1.lt ha.bound) _⟩
  refine Triple.bind (triple_eraseBeside (fun s hs => hs.1.1) hb) fun ok' => ?_
  refine Triple.strengthen (P := fun s' => (∃ s, (RestedKept g root chain fixed d₁ s ∧
    s.device.get ca = .log l) ∧ s' = s.put cb .erased) ∧ ok' = true) (Triple.pre ?_)
    fun s h => ⟨h.2, h.1⟩
  rintro rfl
  rw [if_pos rfl]
  refine Triple.seq (R := fun s => RestedKept g root chain fixed d₁ s ∧
    s.device.get ca = .log l ∧ s.device.get cb = .erased) (Triple.modify ?_)
    (Triple.pure fun s hs => ⟨rfl, hs⟩)
  rintro s' ⟨s, ⟨hs, hlog⟩, rfl⟩
  refine ⟨RestedKept.account (hs.put hb hfb _) rfl, ?_,
    Device.get_write_self (hs.1.lt hb.bound) _⟩
  exact (Device.get_write_ne _ hne.symm _).trans hlog

end Continuation

variable {E : Error → Fs → Prop} (hE : ∀ e s, RestedKept g root chain fixed d₁ s → E e s)

/-- A range that is built within the readers' limits. -/
theorem triple_buildRange_within {P : Fs → Prop} {Good : Device → Prop} (r : Rebuild) (lo hi : ℕ)
    (hE : ∀ e s, P s → E e s) :
    Triple Event.WithinLimits (Event.Survives g Good) P (buildRange g r lo hi)
      (fun l s => P s ∧ r.build g lo hi = .ok l ∧
        (Event.rebuild r.source r.slots r.op lo hi).WithinLimits) E := by
  refine Triple.bind (R := fun l s => P s ∧ r.build g lo hi = .ok l)
    (Triple.lift (fun s l hs h => ⟨hs, h⟩) fun s e hs _ => hE e s hs) fun l => ?_
  exact Triple.seq (R := fun s => P s ∧ r.build g lo hi = .ok l ∧
    (Event.rebuild r.source r.slots r.op lo hi).WithinLimits)
    (Triple.note fun s hs hK => ⟨fun _ => False.elim, hs.1, hs.2, hK⟩) (Triple.pure fun _ hs => hs)

/-- What a split knows of a continuation it has just written. -/
structure NewPart (g : Geometry) (chain : List Node) (fixed : List ℕ) (r : Rebuild) (lo hi : ℕ)
    (s : Fs) (cont : BlockPair) (l : MetadataLog) : Prop where
  built : r.Continues g lo hi l
  within : (Event.rebuild r.source r.slots r.op lo hi).WithinLimits
  standing : Standing g s.device cont l
  first : Clear g chain cont.a
  second : Clear g chain cont.b
  unfixed : cont.a ∉ fixed ∧ cont.b ∉ fixed

include hE

theorem triple_programSplitContinuation_calm (r : Rebuild) (lo hi left : ℕ)
    (hfixed : ∀ x ∈ fixed, x ∈ nodeBlocks chain ∨ x ∈ excluded) :
    Triple Event.WithinLimits (Event.Survives g (AtRest g · root chain))
      (RestedKept g root chain fixed d₁) (programSplitContinuation g r lo hi none left excluded)
      (fun out s => out.2.1 = excluded ∧ RestedKept g root chain fixed d₁ s ∧
        ∃ l, NewPart g chain fixed r lo hi s out.1 l) E := by
  cases left with
  | zero => exact Triple.fail fun s hs => hE _ s hs
  | succ left =>
      have hE' : ∀ e s, Rested g root chain s → Kept fixed d₁ s → E e s := fun e s h h' =>
        hE e s ⟨h, h'⟩
      have hunfixed : ∀ {b : ℕ} {more : List ℕ}, Clear g chain b → b ∉ excluded ++ more →
          b ∉ fixed := by
        intro b more hb hout hmem
        rcases hfixed b hmem with h | h
        · exact hb.free h
        · exact hout (List.mem_append_left _ h)
      refine Triple.bind (triple_allocBeside kept_cacheFree hE') fun ca => Triple.pre fun hca => ?_
      refine Triple.ite (fun _ => Triple.fail fun s hs => hE _ s hs) fun _ => ?_
      refine Triple.bind (triple_allocBeside kept_cacheFree hE') fun cb => Triple.pre fun hcb => ?_
      obtain ⟨ha, haout⟩ := hca
      obtain ⟨hb, hbout⟩ := hcb
      have hne : ca ≠ cb := by
        rintro rfl
        exact hbout (List.mem_append_right _ (List.mem_singleton_self _))
      have hfa : ca ∉ fixed := hunfixed ha (show ca ∉ excluded ++ [] by rwa [List.append_nil])
      refine Triple.bind (triple_buildRange_within _ lo hi hE) fun l => Triple.pre fun hl => ?_
      refine Triple.bind (triple_tryContinuation_calm ha hb hfa (hunfixed hb hbout) hne l)
        fun worn => ?_
      refine Triple.strengthen (P := fun s => (RestedKept g root chain fixed d₁ s ∧
        s.device.get ca = .log l ∧ s.device.get cb = .erased) ∧ worn = none) (Triple.pre ?_)
        fun s h => ⟨h.2, h.1⟩
      rintro rfl
      refine Triple.pure ?_
      rintro s ⟨hs, hfirst, hsecond⟩
      exact ⟨rfl, hs, l, hl.1, hl.2, ⟨hfirst, hsecond, hne,
        Geometry.pairInBounds_iff.2 ⟨ha.bound, hb.bound⟩, ⟨hs.1.lt ha.bound, hs.1.lt hb.bound⟩,
        isNull_of_tracked ha.tracked hb.tracked, Rebuild.build_hasCommits hl.1⟩, ha, hb, hfa,
        hunfixed hb hbout⟩

end Divide

/-! ## The cut loop -/

/-- A division under way: the continuations cut so far stand beside the directory. -/
structure Dividing (g : Geometry) (root : BlockPair) (chain : List Node) (d₀ : Device)
    (r₀ : Rebuild) (excluded : List ℕ) (tail : Option TailLink) (stop : ℕ)
    (conts : List (BlockPair × MetadataLog)) (es : List Entries) (s : Fs) : Prop where
  cutting : Cutting g (nodeBlocks chain) d₀ r₀ excluded tail stop conts es s
  guarded : Rested g root chain s
  nodup : (chainBlocks conts).Nodup
  tracked : ∀ x ∈ chainBlocks conts, x < maxTrackedBlocks
  flat : ∀ c ∈ conts, c.2.Flat (conts.map Prod.fst ++ chain.map Node.pair)
  inline : ∀ e ∈ es.flatten, e.Inline

section Loop

variable {g : Geometry} {root : BlockPair} {chain : List Node} {d₀ : Device} {r₀ r : Rebuild}
  {excluded : List ℕ} {tail : Option TailLink} {stop : ℕ}
  {conts : List (BlockPair × MetadataLog)} {es : List Entries} {s s' : Fs}

/-- What has been cut stays while other blocks beside the directory are written. -/
theorem Dividing.later (h : Dividing g root chain d₀ r₀ excluded tail stop conts es s)
    (hs : RestedKept g root chain (nodeBlocks chain ++ chainBlocks conts) s.device s') :
    Dividing g root chain d₀ r₀ excluded tail stop conts es s' :=
  ⟨h.cutting.later hs.2, hs.1, h.nodup, h.tracked, h.flat, h.inline⟩

/-- A tail that leads to the first of some linked pairs, or on to the tail behind them. -/
theorem Linked.live_mem {tail : Option TailLink} {pairs : List BlockPair}
    (h : Linked (liveLink tail) (liveLink r₀.tail) conts)
    (hpairs : ∀ link, liveLink r₀.tail = some link → link.1 ∈ pairs) :
    ∀ link, liveLink tail = some link → link.1 ∈ conts.map Prod.fst ++ pairs := by
  intro link hlink
  cases conts with
  | nil =>
      refine hpairs link ?_
      rw [← hlink]
      exact h.symm
  | cons c conts =>
      obtain ⟨htail, -⟩ := h
      rw [hlink] at htail
      cases htail
      exact List.mem_cons_self ..

theorem Rebuild.Flat.sameEntries {pairs pairs' : List BlockPair} (h : r₀.Flat pairs)
    (hr : r₀.SameEntries r) (htail : ∀ link, liveLink r.tail = some link → link.1 ∈ pairs') :
    r.Flat pairs' where
  slots := hr.slots.symm ▸ h.slots
  names := hr.op.symm ▸ h.names
  formed := hr.op.symm ▸ h.formed
  inlineOnly := hr.op.symm ▸ h.inlineOnly
  inline := hr.slots.symm ▸ h.inline
  tail := htail

/-- One more continuation. -/
theorem Dividing.cons (hflat : r₀.Flat (chain.map Node.pair)) (hr : r₀.SameEntries r) {cut : ℕ}
    (h : Dividing g root chain d₀ r₀ excluded (liveLink r.tail) stop conts es s) (hcut : 0 < cut)
    (hstop : cut < stop) (htotal : stop ≤ r₀.total) {cont : BlockPair} {l : MetadataLog}
    (hnew : NewPart g chain (nodeBlocks chain ++ chainBlocks conts) r cut stop s cont l) :
    ∃ e, Dividing g root chain d₀ r₀ (excluded ++ [cont.a, cont.b]) (some (cont, true)) cut
      ((cont, l) :: conts) (e :: es) s := by
  obtain ⟨l₀, hslots⟩ := hflat.slots
  obtain ⟨e, hcutting⟩ := h.cutting.cons hr hslots hflat.names hcut hstop htotal hnew.built
    hnew.standing hnew.first.free hnew.second.free
  -- the continuation carries its part of the operation's result
  have hr' : r₀.SameEntries { r with newRevision := 1, moveState := none, relocateState := none } :=
    ⟨hr.source, hr.slots, hr.op⟩
  have hrflat : Rebuild.Flat { r with newRevision := 1, moveState := none, relocateState := none }
      (conts.map Prod.fst ++ chain.map Node.pair) :=
    hflat.sameEntries hr' (Linked.live_mem h.cutting.linked hflat.tail)
  have hpart : e = r₀.op.part (r₀.slots.entries r₀.source) cut stop := by
    have hconcat := hcutting.concat
    rw [List.flatten_cons, h.cutting.concat, ← r₀.op.part_append _ (Nat.le_of_lt hstop) htotal]
      at hconcat
    exact List.append_cancel_right hconcat
  have hl : l.Flat (conts.map Prod.fst ++ chain.map Node.pair) :=
    hrflat.build ⟨nofun, nofun⟩ hnew.within hnew.built
  refine ⟨e, hcutting, h.guarded, ?_, ?_, ?_, ?_⟩
  · show ([cont.a, cont.b] ++ chainBlocks conts).Nodup
    refine List.nodup_append'.2 ⟨by simpa using hnew.standing.apart, h.nodup, ?_⟩
    intro x hx hmem
    have hout := List.mem_append_right (nodeBlocks chain) hmem
    rcases List.mem_pair.1 hx with rfl | rfl
    · exact hnew.unfixed.1 hout
    · exact hnew.unfixed.2 hout
  · intro x hx
    rcases List.mem_append.1 (show x ∈ [cont.a, cont.b] ++ chainBlocks conts from hx) with hx | hx
    · rcases List.mem_pair.1 hx with rfl | rfl
      · exact hnew.first.tracked
      · exact hnew.second.tracked
    · exact h.tracked x hx
  · have hsub : ∀ p ∈ conts.map Prod.fst ++ chain.map Node.pair,
        p ∈ ((cont, l) :: conts).map Prod.fst ++ chain.map Node.pair := fun p hp =>
      List.mem_cons_of_mem _ hp
    exact List.forall_mem_cons.2 ⟨hl.mono hsub, fun c hc => (h.flat c hc).mono hsub⟩
  · rw [List.flatten_cons]
    refine List.forall_mem_append.2 ⟨?_, h.inline⟩
    rw [hpart]
    exact WriteOp.inline_part hflat.inlineOnly hflat.entries_inline cut stop

/-- Each turn of the cut loop takes one continuation off what is left, beside the directory,
and there are no more turns than cuts. -/
theorem triple_cutLoop_calm (hflat : r₀.Flat (chain.map Node.pair)) (cuts : ℕ)
    (hr : r₀.SameEntries r) {cut left most : ℕ} (hcut : 0 < cut) (hstop : cut < stop)
    (htotal : stop ≤ r₀.total) :
    Triple Event.WithinLimits (Event.Survives g (AtRest g · root chain))
      (fun s => ∃ conts es, conts.length + cuts ≤ most ∧
        Dividing g root chain d₀ r₀ excluded (liveLink r.tail) stop conts es s)
      (cutLoop g r none cuts cut stop left excluded)
      (fun out s => (0 < out.2.1 ∧ out.2.1 < r₀.total) ∧ ∃ conts es, conts ≠ [] ∧
        conts.length ≤ most ∧
        Dividing g root chain d₀ r₀ out.2.2 (some (out.1, true)) out.2.1 conts es s)
      (fun _ s => Rested g root chain s) := by
  induction cuts generalizing r cut stop left excluded with
  | zero =>
      refine Triple.fail ?_
      rintro s ⟨conts, es, -, h⟩
      exact h.guarded
  | succ cuts ih =>
      refine Triple.exists_pre fun conts => Triple.exists_pre fun es => Triple.each ?_
      rintro s₁ ⟨hmost, h⟩
      -- what the split has done so far is fixed while the next continuation is written
      have hfixed : ∀ x ∈ nodeBlocks chain ++ chainBlocks conts,
          x ∈ nodeBlocks chain ∨ x ∈ excluded := by
        intro x hx
        rcases List.mem_append.1 hx with hx | hx
        · exact .inl hx
        · exact .inr (h.cutting.apart x hx).1
      have hstart : RestedKept g root chain (nodeBlocks chain ++ chainBlocks conts) s₁.device s₁ :=
        ⟨h.guarded, SameOn.refl⟩
      refine Triple.bind ((triple_programSplitContinuation_calm (fun _ s hs => hs.1) r cut
        stop left hfixed).strengthen (by rintro s rfl; exact hstart)) fun out => ?_
      obtain ⟨cont, excluded', left'⟩ := out
      -- the state in which the loop ends or goes on
      refine Triple.strengthen (P := fun s => ∃ conts es, conts ≠ [] ∧ conts.length + cuts ≤ most ∧
        Dividing g root chain d₀ r₀ (excluded' ++ [cont.a, cont.b]) (some (cont, true)) cut conts
          es s ∧ cont.isNull = false) ?_ ?_
      · have hdone : ∀ s, (∃ conts es, conts ≠ [] ∧ conts.length + cuts ≤ most ∧
            Dividing g root chain d₀ r₀ (excluded' ++ [cont.a, cont.b]) (some (cont, true)) cut
              conts es s ∧ cont.isNull = false) →
            (0 < cut ∧ cut < r₀.total) ∧ ∃ conts es, conts ≠ [] ∧ conts.length ≤ most ∧
              Dividing g root chain d₀ r₀ (excluded' ++ [cont.a, cont.b]) (some (cont, true)) cut
                conts es s :=
          fun s ⟨conts, es, hne, hle, h, _⟩ =>
            ⟨⟨hcut, by omega⟩, conts, es, hne, by omega, h⟩
        refine Triple.ite (fun _ => Triple.fail ?_) fun _ => Triple.ite
          (fun _ => Triple.pure hdone) fun _ => ?_
        · rintro s ⟨_, _, _, _, h, _⟩
          exact h.guarded
        refine Triple.bind (R := fun next s => (∃ conts es, conts ≠ [] ∧
          conts.length + cuts ≤ most ∧ Dividing g root chain d₀ r₀ (excluded' ++ [cont.a, cont.b])
            (some (cont, true)) cut conts es s ∧ cont.isNull = false) ∧
          computeSplitIndex g r.source r.slots r.op 0 cut = .ok next)
          (Triple.lift (fun s next hs h => ⟨hs, h⟩) ?_) fun next => ?_
        · rintro s e ⟨_, _, _, _, h, _⟩ -
          exact h.guarded
        refine Triple.pre fun hnext => Triple.ite (fun _ => Triple.pure hdone) fun hne => ?_
        refine (ih (r := { r with tail := some (cont, true) }) ⟨hr.source, hr.slots, hr.op⟩
          (Nat.pos_of_ne_zero hne) (computeSplitIndex_lt hnext hne) (by omega)).strengthen ?_
        rintro s ⟨conts, es, -, hle, h, hlive⟩
        have hlink : liveLink (some (cont, true)) = some (cont, true) := by
          simp [liveLink, Option.filter, hlive]
        refine ⟨conts, es, hle, ?_⟩
        show Dividing g root chain d₀ r₀ _ (liveLink (some (cont, true))) cut conts es s
        rw [hlink]
        exact h
      · rintro s ⟨hsame, hs, l, hnew⟩
        cases hsame
        obtain ⟨e, hcutting⟩ := (h.later hs).cons hflat hr hcut hstop htotal hnew
        refine ⟨_, _, List.cons_ne_nil _ _, ?_, hcutting, hnew.standing.live⟩
        rw [List.length_cons]
        omega

end Loop

end LittlefsPure
