import LittlefsPure.Room.Weight

/-!
# What a rebuild takes

The size of the tags a rebuild emits for a range of entries, in terms of the entries, and
the conditions under which the rebuilt commit is built: room for a closing checksum behind
its tags, no body of the sentinel length, and a padding that the checksum can cover.

## Why an equivalence

The planner of a split asks how large a range of entries is when rebuilt, and decides by that.  A
bound would be enough to show that a rebuild fits; to show where it does not, the size has to be
exact, and the conditions both necessary and sufficient.
-/

namespace LittlefsPure

open Commit Entries Logic

/-! ## Building -/

/-- The tags of a rebuild in front of the closing ones, and a checksum, fit the block. -/
def Rebuild.Fits (g : Geometry) (r : Rebuild) (tags : List TagEntry) : Prop :=
  4 + tagsSize (tags ++ r.stateTags) + 8 ≤ g.blockSize

theorem stateTags_isCcrc (r : Rebuild) : ∀ t ∈ r.stateTags, t.tagType.isCcrc = false := by
  intro t ht
  rcases List.mem_append.1 ht with ht | ht
  · have htype : t.tagType = .moveState := totalTags_type t ht
    rw [htype]
    rfl
  rcases List.mem_append.1 ht with ht | ht
  · have htype : t.tagType = .relocateState := totalTags_type t ht
    rw [htype]
    rfl
  · obtain ⟨link, hlink, -⟩ := rebuiltTailTags_eq r.tail
    rw [hlink] at ht
    obtain ⟨l, -, rfl⟩ := List.mem_map.1 ht
    exact tailTag_isCcrc l

/-- A rebuilt commit ends on the program grid and in the block. -/
theorem Rebuild.build_end {g : Geometry} {r : Rebuild} {lo hi : ℕ} {lc : MetadataLog}
    (h : r.build g lo hi = .ok lc) :
    lc.committedEnd % g.progSize = 0 ∧ lc.committedEnd ≤ g.blockSize := by
  obtain ⟨tags, ts, c, fcrc, -, -, hc, rfl⟩ := Rebuild.build_eq_ok h
  obtain ⟨n, hclosed⟩ := finishPadded_closed hc
  have hend : c.offset = 4 + tagsSize c.tags := by
    rw [hclosed.offset, hclosed.tags, tagsSize_append, Nat.add_assoc]
  have hne : c.tags.isEmpty = false := by
    rw [hclosed.tags]
    simp [closing]
  rw [MetadataLog.committedEnd]
  simp only [hne, Bool.false_eq_true, if_false]
  rw [← hend]
  exact ⟨hclosed.aligned, hclosed.inside⟩

/-- When the tags of a range are there, the rebuilt commit is built exactly if they fit, no
body has the length of the deletion sentinel and the checksum can cover the padding. -/
theorem Rebuild.build_iff {g : Geometry} (hg : g.Admitted) {r : Rebuild} {lo hi : ℕ}
    {tags : List TagEntry} (htags : emitCompactRange r.source r.slots r.op lo hi = .ok tags)
    (hcrc : ∀ t ∈ tags, t.tagType.isCcrc = false) :
    (∃ lc, r.build g lo hi = .ok lc) ↔ r.Fits g tags ∧
      (∀ t ∈ tags ++ r.stateTags, t.body.length < lenSpecial) ∧
      ClosingFits g (4 + tagsSize (tags ++ r.stateTags)) := by
  have hcrc' : ∀ t ∈ tags ++ r.stateTags, t.tagType.isCcrc = false := fun t ht =>
    (List.mem_append.1 ht).elim (hcrc t) (stateTags_isCcrc r t)
  have hshape : tags ++ moveStateTags r.moveState ++ relocateStateTags r.relocateState ++
      rebuiltTailTags r.tail = tags ++ r.stateTags := by
    rw [Rebuild.stateTags, List.append_assoc, List.append_assoc]
  have hbuild : r.build g lo hi =
      ((Commit.new.addTags g.blockSize (tags ++ r.stateTags)).bind fun c =>
        (c.finishPadded g).bind fun p => .ok ⟨r.newRevision, p.1.tags, p.2⟩) := by
    rw [Rebuild.build, buildCompactCommit, htags, ← hshape]
    rfl
  rw [hbuild]
  constructor
  · rintro ⟨lc, h⟩
    obtain ⟨c, hc, h⟩ := bind_eq_ok.1 h
    obtain ⟨⟨c', fcrc⟩, hc', -⟩ := bind_eq_ok.1 h
    obtain ⟨n, hclosed⟩ := finishPadded_closed hc'
    have hsize := tagsSize_closing g fcrc n
    have hoffset := hclosed.offset
    have hinside := hclosed.inside
    have hpos := hclosed.length_pos
    obtain ⟨rfl, hbodies⟩ := addTags_eq_ok hc
    have hfits : r.Fits g tags := by
      unfold Rebuild.Fits
      simp only [Commit.new] at hoffset
      omega
    exact ⟨hfits, fun t ht => Nat.lt_succ_of_le (hbodies t ht).2,
      (finishPadded_iff (c := ⟨4 + tagsSize (tags ++ r.stateTags), _⟩) hg.progSize_pos
        hg.blockSize_grid hfits).1 ⟨c', fcrc, hc'⟩⟩
  · rintro ⟨hfits, hbodies, hclosing⟩
    have hadd := (@addTags_iff g.blockSize Commit.new _ hcrc'
      ((Nat.le_add_right _ 8).trans hfits)).2 hbodies
    obtain ⟨c', fcrc, hc'⟩ := (finishPadded_iff (g := g)
      (c := ⟨4 + tagsSize (tags ++ r.stateTags), Commit.new.tags ++ (tags ++ r.stateTags)⟩)
      hg.progSize_pos hg.blockSize_grid hfits).2 hclosing
    refine ⟨⟨r.newRevision, c'.tags, fcrc⟩, ?_⟩
    rw [hadd]
    show (finishPadded g _).bind _ = _
    rw [show Commit.new.offset = 4 from rfl, hc']
    rfl

/-! ## The size of a range -/

/-- The size of a slot's `Create`, NAME and STRUCT. -/
def Slot.frameSize (s : Slot) : ℕ := 4 + Entry.partSize s.name + Entry.partSize s.struct

/-- What a slot plan adds to the size of its slot. -/
def SlotPlan.size (plan : SlotPlan) : ℕ :=
  Entry.partSize plan.extraName + Entry.partSize plan.structOverride +
    StagedAttrs.dsize plan.attrAppend.toList

/-- The attributes a slot plan copies. -/
def SlotPlan.copied (plan : SlotPlan) (attrs : StagedAttrs) : StagedAttrs :=
  attrs.filter fun r => plan.attrSuppress != some r.1

theorem tagsSize_emitSlot {source : MetadataLog} {s : Slot} {plan : SlotPlan} {i emitId : ℕ}
    {tags : List TagEntry} (h : emitSlot source s plan i emitId = .ok tags) :
    tagsSize tags ≤
      s.frameSize + plan.size + (plan.copied (forEachLiveAttr source i)).dsize := by
  unfold emitSlot at h
  split at h
  · next nameType name structType structBody hname hstruct =>
    have hover : 4 + (plan.structOverride.getD (structType, structBody)).2.length ≤
        Entry.partSize plan.structOverride + (4 + structBody.length) := by
      cases plan.structOverride <;> simp [Entry.partSize]
    have hextra : tagsSize (plan.extraName.toList.map fun n => (⟨n.1, emitId, n.2⟩ : TagEntry)) =
        Entry.partSize plan.extraName := by
      cases plan.extraName <;> rfl
    have hname' : Entry.partSize s.name = 4 + name.length := by rw [hname]; rfl
    have hstruct' : Entry.partSize s.struct = 4 + structBody.length := by rw [hstruct]; rfl
    generalize plan.structOverride.getD (structType, structBody) = chosen at h hover
    cases h
    simp only [tagsSize_append, tagsSize_cons, tagsSize_nil, hextra, tagsSize_attrTags,
      TagEntry.dsize, Body.length_bytes, List.length_nil, Slot.frameSize, SlotPlan.size,
      SlotPlan.copied, hname', hstruct']
    omega
  · cases h

/-- The slots of a range take their frames, what their plans add, and their attributes, a
dropped slot nothing. -/
theorem tagsSize_emitSlots {source : MetadataLog} {op : WriteOp} {slots : List Slot}
    {us : List ℕ} {i emitId last : ℕ} {tags : List TagEntry}
    (hattrs : ∀ k, k < slots.length → (slotPlan op (i + k)).dropEntry = false →
      ((slotPlan op (i + k)).copied (forEachLiveAttr source (i + k))).dsize ≤ us.getD k 0)
    (h : emitSlots source op slots i emitId = .ok (tags, last)) :
    tagsSize tags ≤ (slots.map Slot.frameSize).sum +
      ((List.range slots.length).map fun k => (slotPlan op (i + k)).size).sum + us.sum := by
  induction slots generalizing us i emitId last tags with
  | nil =>
      cases h
      exact Nat.zero_le _
  | cons s rest ih =>
      have hrest : ∀ k, k < rest.length → (slotPlan op (i + 1 + k)).dropEntry = false →
          ((slotPlan op (i + 1 + k)).copied (forEachLiveAttr source (i + 1 + k))).dsize ≤
            us.tail.getD k 0 := by
        intro k hk hdrop
        have hshift : i + (k + 1) = i + 1 + k := by omega
        have hk' := hattrs (k + 1) (Nat.succ_lt_succ hk)
        rw [hshift] at hk'
        refine (hk' hdrop).trans (le_of_eq ?_)
        cases us <;> simp
      have hsum : us.getD 0 0 + us.tail.sum = us.sum := by
        cases us <;> simp
      have hplans : ((List.range (s :: rest).length).map fun k => (slotPlan op (i + k)).size).sum =
          (slotPlan op i).size +
            ((List.range rest.length).map fun k => (slotPlan op (i + 1 + k)).size).sum := by
        rw [List.length_cons, List.range_succ_eq_map, List.map_cons, List.sum_cons, List.map_map]
        congr 3
        funext k
        show (slotPlan op (i + (k + 1))).size = _
        rw [show i + (k + 1) = i + 1 + k by omega]
      rw [hplans, List.map_cons, List.sum_cons, ← hsum]
      rw [emitSlots] at h
      split_ifs at h with hdrop
      · have hle := ih hrest h
        omega
      · obtain ⟨ts, hslot, h⟩ := bind_eq_ok.1 h
        obtain ⟨⟨more, last'⟩, hmore, h⟩ := bind_eq_ok.1 h
        cases h
        have hhead := tagsSize_emitSlot hslot
        have hcopied := hattrs 0 (Nat.succ_pos _) (Bool.eq_false_of_not_eq_true hdrop)
        have hle := ih hrest hmore
        rw [Nat.add_zero] at hcopied
        rw [tagsSize_append]
        omega

/-! ## What an operation adds -/

/-- A sum over a range with at most one term that is not zero. -/
theorem sum_range_le_one {f : ℕ → ℕ} {id c : ℕ} (hzero : ∀ k, k ≠ id → f k = 0) (hid : f id ≤ c)
    (n : ℕ) : ((List.range n).map f).sum ≤ c := by
  have hall : ((List.range n).map f).sum = if id < n then f id else 0 := by
    induction n with
    | zero => rfl
    | succ n ih =>
        rw [List.range_succ, List.map_append, List.sum_append, ih]
        by_cases hn : n = id
        · subst hn
          simp
        · have hzero' := hzero n hn
          by_cases hlt : id < n
          · simp [hlt, hzero', Nat.lt_succ_of_lt hlt]
          · have hnot : ¬ id < n + 1 := by omega
            simp [hlt, hzero', hnot]
  rw [hall]
  split_ifs
  · exact hid
  · exact Nat.zero_le c

theorem slotPlan_size_of_ne {op : WriteOp} {id i : ℕ} (h : op.target = some id) (hne : id ≠ i) :
    (slotPlan op i).size = 0 := by
  cases op <;> cases h <;> simp [slotPlan, hne] <;> rfl

/-- The plans of an operation add no more than the tags it emits, and nothing for one that
adds an entry. -/
theorem sum_slotPlan_size (op : WriteOp) (n : ℕ) :
    ((List.range n).map fun k => (slotPlan op (0 + k)).size).sum ≤
      if op.opAddsEntry then 0 else tagsSize op.emitOp := by
  simp only [Nat.zero_add]
  have hnone : (∀ i, slotPlan op i = {}) →
      ((List.range n).map fun k => (slotPlan op k).size).sum = 0 := by
    intro h
    refine Nat.le_zero.1 (@sum_range_le_one _ 0 _ (fun k _ => ?_) ?_ n) <;> rw [h] <;> rfl
  have hone : ∀ id, op.target = some id → (slotPlan op id).size ≤ tagsSize op.emitOp →
      ((List.range n).map fun k => (slotPlan op k).size).sum ≤ tagsSize op.emitOp :=
    fun id hid hle => sum_range_le_one (fun k hk => slotPlan_size_of_ne hid (Ne.symm hk)) hle n
  cases op with
  | create | createCtz | createDir =>
      rw [hnone fun _ => rfl]
      exact Nat.zero_le _
  | noop =>
      rw [hnone fun _ => rfl]
      exact Nat.zero_le _
  | _ =>
      refine hone _ rfl ?_
      simp [slotPlan, SlotPlan.size, Entry.partSize, StagedAttrs.dsize, WriteOp.emitOp,
        TagEntry.dsize]

/-- The rebuilt entries of a pair take their frames, their attributes and what the operation
emits. -/
theorem tagsSize_emitCompactRange {source : MetadataLog} {slots : Roster Slot} {op : WriteOp}
    {us : List ℕ} {tags : List TagEntry} (hwf : slots.Wf)
    (hattrs : ∀ k, k < slots.count → (slotPlan op k).dropEntry = false →
      ((slotPlan op k).copied (forEachLiveAttr source k)).dsize ≤ us.getD k 0)
    (h : emitCompactRange source slots op 0 (op.total slots.count) = .ok tags) :
    tagsSize tags ≤ (slots.live.map Slot.frameSize).sum + us.sum + tagsSize op.emitOp := by
  have hlen : slots.live.length = slots.count := by
    have hlength := hwf.length
    have hcount := hwf.count
    rw [Roster.live, List.length_take]
    omega
  have htake : (slots.live.take (op.total slots.count)).drop 0 = slots.live := by
    rw [List.drop_zero]
    refine List.take_of_length_le ?_
    rw [hlen, WriteOp.total]
    exact Nat.le_add_right _ _
  unfold emitCompactRange at h
  obtain ⟨⟨body, last⟩, hbody, h⟩ := bind_eq_ok.1 h
  cases h
  rw [htake] at hbody
  have hslots := @tagsSize_emitSlots _ _ _ us _ _ _ _ (fun k hk hdrop => by
    rw [Nat.zero_add] at hdrop ⊢
    exact hattrs k (hlen ▸ hk) hdrop) hbody
  have hplans := sum_slotPlan_size op slots.live.length
  have hnew : tagsSize (if 0 ≤ slots.count ∧ slots.count < op.total slots.count then
      op.newEntryTags last else []) = if op.opAddsEntry then tagsSize op.emitOp else 0 := by
    cases op <;> simp [WriteOp.total, WriteOp.opAddsEntry, WriteOp.emitOp, WriteOp.newEntryTags,
      TagEntry.dsize, tagsSize_attrTags]
  rw [tagsSize_append, hnew]
  split_ifs at hplans ⊢ <;> omega

end LittlefsPure
