import LittlefsPure.Room.Rebuild

/-!
# What a written log already holds

The logs of the engine, the root's aside, hold the live tags of their entries, the tags of
the totals and the tail they carry, and the closing tags of their last commit, all apart
from each other.  `MetadataLog.Accounts` sums this up: it is the left side of the account
that the rebuild behind a failed append is settled with.

## Why the root is apart

The first pair of the root holds the superblock, written by a format that does not go through the
commit engine.  It has a NAME without a `Create` in front of it, so its entries weigh more than
its tags by four bytes, and a rebuild of it writes a `Create` that was never there.
-/

namespace LittlefsPure

open Commit Entries Logic

/-! ## Complete entries -/

/-- An entry with a NAME and a STRUCT, which a rebuild can write. -/
def Entry.Complete (e : Entry) : Prop := e.name.isSome = true ∧ e.struct.isSome = true

theorem SlotPlan.entry_complete (plan : SlotPlan) {e : Entry} (h : e.Complete) :
    (plan.entry e).Complete := by
  obtain ⟨hname, hstruct⟩ := h
  obtain ⟨hn, hs⟩ := Entry.withAttrs_frame plan.attrAppend.toList
    ⟨plan.extraName.or e.name, plan.structOverride.or e.struct,
      fun a => if plan.attrSuppress = some a then none else e.attrs a⟩
  refine ⟨?_, ?_⟩
  · rw [SlotPlan.entry, hn]
    simp [hname]
  · rw [SlotPlan.entry, hs]
    simp [hstruct]

theorem newEntry_complete {op : WriteOp} {e : Entry} (h : op.newEntry = some e) : e.Complete := by
  have hframe : ∀ (attrs : StagedAttrs) (name struct : TagType × Body),
      (Entry.withAttrs attrs ⟨some name, some struct, fun _ => none⟩).Complete := by
    intro attrs name struct
    obtain ⟨hn, hs⟩ := Entry.withAttrs_frame attrs ⟨some name, some struct, fun _ => none⟩
    rw [Entry.Complete, hn, hs]
    exact ⟨rfl, rfl⟩
  cases op <;> cases h <;> exact hframe ..

/-- An operation leaves complete entries complete. -/
theorem apply_complete {op : WriteOp} {entries : Entries} (h : ∀ e ∈ entries, e.Complete) :
    ∀ e ∈ op.apply entries, e.Complete := by
  intro e he
  rcases List.mem_append.1 he with he | he
  · obtain ⟨⟨e', i⟩, hmem, hon⟩ := List.mem_filterMap.1 he
    have hcomplete := h e' (List.fst_mem_of_mem_zipIdx hmem)
    rw [slotPlan_onEntry] at hon
    split_ifs at hon
    cases hon
    exact SlotPlan.entry_complete _ hcomplete
  · exact newEntry_complete (Option.mem_toList.1 he)

theorem emitSlot_complete {source : MetadataLog} {s : Slot} {plan : SlotPlan} {i emitId : ℕ}
    {tags : List TagEntry} (h : emitSlot source s plan i emitId = .ok tags) :
    s.name.isSome = true ∧ s.struct.isSome = true := by
  unfold emitSlot at h
  split at h
  · next hname hstruct => exact ⟨by rw [hname]; rfl, by rw [hstruct]; rfl⟩
  · cases h

/-- The entries that a rebuild writes are complete. -/
theorem emitSlots_complete {source : MetadataLog} {op : WriteOp} {es : Entries}
    {i emitId last : ℕ} {tags : List TagEntry}
    (h : emitSlots source op (es.map Entry.slot) i emitId = .ok (tags, last)) :
    ∀ e ∈ op.survivors i es, e.Complete := by
  induction es generalizing i emitId last tags with
  | nil => exact fun e he => absurd he List.not_mem_nil
  | cons e es ih =>
      intro x hx
      have hon := slotPlan_onEntry op i e
      rw [List.map_cons, emitSlots] at h
      rw [WriteOp.survivors_cons] at hx
      split_ifs at h with hdrop
      · rw [if_pos hdrop] at hon
        rw [hon] at hx
        exact ih h x hx
      · rw [if_neg hdrop] at hon
        obtain ⟨ts, hslot, h⟩ := bind_eq_ok.1 h
        obtain ⟨⟨more, last'⟩, hmore, h⟩ := bind_eq_ok.1 h
        rw [hon] at hx
        rcases List.mem_append.1 hx with hx | hx
        · obtain rfl := Option.some.inj (Option.mem_toList.1 hx)
          exact SlotPlan.entry_complete _ (emitSlot_complete hslot)
        · exact ih hmore x hx

/-- Complete entries are written without a fault. -/
theorem emitSlots_ok {source : MetadataLog} {op : WriteOp} {es : Entries}
    (hes : ∀ e ∈ es, e.Complete) (i emitId : ℕ) :
    ∃ tags last, emitSlots source op (es.map Entry.slot) i emitId = .ok (tags, last) := by
  induction es generalizing i emitId with
  | nil => exact ⟨[], emitId, rfl⟩
  | cons e es ih =>
      have hrest : ∀ e ∈ es, e.Complete := fun x hx => hes x (List.mem_cons_of_mem e hx)
      obtain ⟨hname, hstruct⟩ := hes e List.mem_cons_self
      obtain ⟨name, hn⟩ := Option.isSome_iff_exists.1 hname
      obtain ⟨struct, hs⟩ := Option.isSome_iff_exists.1 hstruct
      rw [List.map_cons, emitSlots]
      split_ifs
      · exact ih hrest (i + 1) emitId
      · obtain ⟨ts, hts⟩ : ∃ ts, emitSlot source e.slot (slotPlan op i) i emitId = .ok ts := by
          have hn' : e.slot.name = some name := hn
          have hs' : e.slot.struct = some struct := hs
          unfold emitSlot
          rw [hn', hs']
          exact ⟨_, rfl⟩
        obtain ⟨more, last, hmore⟩ := ih hrest (i + 1) (emitId + 1)
        refine ⟨ts ++ more, last, ?_⟩
        rw [hts]
        show (emitSlots source op (es.map Entry.slot) (i + 1) (emitId + 1)).bind _ = _
        rw [hmore]
        rfl

/-! ## The logs of the pairs below the root -/

/-- A log the engine writes on a pair other than the root: a new directory, an append to
such a log, or the rebuild of slots gathered from any log. -/
inductive WrittenAway (g : Geometry) : MetadataLog → Prop
  | emptyDir {l : MetadataLog} {tail : Option TailLink} (h : emptyDirLog g tail = .ok l) :
      WrittenAway g l
  | append {l la : MetadataLog} {slots : Roster Slot} {r : CommitRequest} (hl : WrittenAway g l)
      (hslots : gatherLiveSlots l = .ok slots) (hr : r.Valid slots.count)
      (h : buildAppend g l r = .ok la) : WrittenAway g la
  | rebuild {l lc : MetadataLog} {r : Rebuild} {lo hi : ℕ}
      (hslots : gatherLiveSlots l = .ok r.slots) (hname : r.op.WritesName) (hr : r.Sized)
      (h : r.build g lo hi = .ok lc) : WrittenAway g lc

/-- The size of the tags of a kind. -/
def sizeWhere (p : TagType → Bool) (ts : List TagEntry) : ℕ :=
  tagsSize (ts.filter fun t => p t.tagType)

theorem sizeWhere_append (p : TagType → Bool) (ts us : List TagEntry) :
    sizeWhere p (ts ++ us) = sizeWhere p ts + sizeWhere p us := by
  rw [sizeWhere, List.filter_append, tagsSize_append]
  rfl

theorem sizeWhere_all {p : TagType → Bool} {ts : List TagEntry} (h : ∀ t ∈ ts, p t.tagType = true) :
    sizeWhere p ts = tagsSize ts := by
  rw [sizeWhere, List.filter_eq_self.2 h]

theorem sizeWhere_none {p : TagType → Bool} {ts : List TagEntry}
    (h : ∀ t ∈ ts, p t.tagType = false) : sizeWhere p ts = 0 := by
  rw [sizeWhere, List.filter_eq_nil_iff.2 fun t ht => by simp [h t ht]]
  rfl

theorem dsize_le_sizeWhere {p : TagType → Bool} {ts : List TagEntry} {t : TagEntry} (ht : t ∈ ts)
    (hp : p t.tagType = true) : t.dsize ≤ sizeWhere p ts :=
  dsize_le_tagsSize (List.mem_filter.2 ⟨ht, hp⟩)

/-- The tags about entries, of either total and of the tail are apart from each other. -/
theorem sizeWhere_kinds (ts : List TagEntry) :
    sizeWhere TagType.concernsEntry ts + sizeWhere (· == .moveState) ts +
      sizeWhere (· == .relocateState) ts + sizeWhere TagType.isTail ts ≤ tagsSize ts := by
  induction ts with
  | nil => exact le_rfl
  | cons t ts ih =>
      have hone : sizeWhere TagType.concernsEntry [t] + sizeWhere (· == .moveState) [t] +
          sizeWhere (· == .relocateState) [t] + sizeWhere TagType.isTail [t] ≤ t.dsize := by
        obtain ⟨type, id, body⟩ := t
        cases type <;> simp [sizeWhere, TagType.concernsEntry, TagType.isTail]
      have hcons : ∀ p, sizeWhere p (t :: ts) = sizeWhere p [t] + sizeWhere p ts :=
        fun p => sizeWhere_append p [t] ts
      rw [hcons, hcons, hcons, hcons, tagsSize_cons]
      omega

/-- A written log: complete entries that weigh no more than the tags about them, and a last
commit that is closed. -/
structure MetadataLog.Stocked (g : Geometry) (l : MetadataLog) (entries : Entries) : Prop where
  within : entries.Within (sizeWhere TagType.concernsEntry l.tags)
  complete : ∀ e ∈ entries, e.Complete
  closed : ∃ front n, l.tags = front ++ closing g l.erased n ∧ 4 ≤ n

theorem closing_isClosing (g : Geometry) (fcrc : Bool) (n : ℕ) : Closing (closing g fcrc n) :=
  ⟨g, fcrc, n, rfl⟩

theorem concernsEntry_of_types {ts : List TagEntry} {type : TagType}
    (h : ∀ t ∈ ts, t.tagType = type) (htype : type.concernsEntry = false) :
    ∀ t ∈ ts, t.tagType.concernsEntry = false := fun t ht => by rw [h t ht, htype]

theorem tailTags_inert (tail : Option TailLink) :
    ∀ t ∈ tail.toList.map tailTag, t.tagType.concernsEntry = false := by
  intro t ht
  obtain ⟨link, -, rfl⟩ := List.mem_map.1 ht
  rcases tailTag_type link with h | h <;> rw [h] <;> rfl

theorem stateTags_inert (r : Rebuild) : ∀ t ∈ r.stateTags, t.tagType.concernsEntry = false := by
  intro t ht
  rcases List.mem_append.1 ht with ht | ht
  · exact @concernsEntry_of_types _ .moveState totalTags_type rfl t ht
  rcases List.mem_append.1 ht with ht | ht
  · exact @concernsEntry_of_types _ .relocateState totalTags_type rfl t ht
  · obtain ⟨link, hlink, -⟩ := rebuiltTailTags_eq r.tail
    rw [hlink] at ht
    exact tailTags_inert link t ht

/-- The tags of an append about entries are those of its operation. -/
theorem sizeWhere_appendTags (l : MetadataLog) {r : CommitRequest} (hname : r.op.WritesName) :
    sizeWhere TagType.concernsEntry (appendTags l r) = tagsSize r.op.emitOp := by
  rw [appendTags_eq, sizeWhere_append, sizeWhere_append, sizeWhere_append,
    sizeWhere_all (emitOp_concernsEntry hname),
    sizeWhere_none (@concernsEntry_of_types _ .moveState foldTags_type rfl),
    sizeWhere_none (@concernsEntry_of_types _ .relocateState foldTags_type rfl),
    sizeWhere_none (tailTags_inert _)]
  rfl

theorem sizeWhere_closing (g : Geometry) (fcrc : Bool) (n : ℕ) :
    sizeWhere TagType.concernsEntry (closing g fcrc n) = 0 :=
  sizeWhere_none (closing_isClosing g fcrc n).inert

/-- The log that an append leaves, with its closing tags. -/
theorem buildAppend_closed {g : Geometry} {l la : MetadataLog} {r : CommitRequest}
    (h : buildAppend g l r = .ok la) :
    ∃ n, 4 ≤ n ∧ la.tags = l.tags ++ (appendTags l r ++ closing g la.erased n) := by
  obtain ⟨c, fcrc, hc, rfl⟩ := buildAppend_eq_ok h
  obtain ⟨n, hclosed⟩ := finishPadded_closed hc
  exact ⟨n, hclosed.length_pos, by rw [hclosed.tags]⟩

theorem build_closed {g : Geometry} {r : Rebuild} {lo hi : ℕ} {l : MetadataLog}
    (h : r.build g lo hi = .ok l) :
    ∃ tags n, emitCompactRange r.source r.slots r.op lo hi = .ok tags ∧ 4 ≤ n ∧
      l.tags = tags ++ r.stateTags ++ closing g l.erased n := by
  obtain ⟨tags, _, c, fcrc, htags, rfl, hc, rfl⟩ := Rebuild.build_eq_ok h
  obtain ⟨n, hclosed⟩ := finishPadded_closed hc
  refine ⟨tags, n, htags, hclosed.length_pos, ?_⟩
  simp only [hclosed.tags, Rebuild.stateTags, List.append_assoc]

/-- The entries that a rebuilt range is made of are complete. -/
theorem part_complete {source : MetadataLog} {slots : Roster Slot} {entries : Entries}
    (hlive : slots.live = entries.map Entry.slot) {op : WriteOp} {lo hi : ℕ}
    {tags : List TagEntry} (h : emitCompactRange source slots op lo hi = .ok tags) :
    ∀ e ∈ op.part entries lo hi, e.Complete := by
  unfold emitCompactRange at h
  obtain ⟨⟨body, last⟩, hbody, -⟩ := bind_eq_ok.1 h
  rw [hlive, ← List.map_take, ← List.map_drop] at hbody
  intro e he
  rw [WriteOp.part, ← WriteOp.survivors_range] at he
  rcases List.mem_append.1 he with he | he
  · exact emitSlots_complete hbody e he
  · split_ifs at he
    · exact newEntry_complete (Option.mem_toList.1 he)
    · cases he

/-- What a log of the engine carries, and what it is made of. -/
theorem WrittenAway.stocked {g : Geometry} {l : MetadataLog} (h : WrittenAway g l) :
    ∃ entries move relocate tail, l.Carries entries move relocate tail ∧ l.Stocked g entries := by
  induction h with
  | @emptyDir l tail h =>
      refine ⟨[], _, _, _, emptyDirLog_carries h, Weighted.nil,
        fun e he => absurd he List.not_mem_nil, ?_⟩
      obtain ⟨c, fcrc, hc, rfl⟩ := emptyDirLog_eq_ok h
      obtain ⟨n, hclosed⟩ := finishPadded_closed hc
      exact ⟨_, n, hclosed.tags, hclosed.length_pos⟩
  | @append l la slots r hl hslots hr h ih =>
      obtain ⟨entries, move, relocate, tail, hcarries, hstocked⟩ := ih
      obtain ⟨-, hshows⟩ := hcarries.shows hslots
      have hop := hr.addresses
      rw [hshows.count] at hop
      obtain ⟨n, hn, htags⟩ := buildAppend_closed h
      refine ⟨_, _, _, _,
        buildAppend_carries hcarries hshows.length_le hop hr.writesName hr.sized h,
        ?_, apply_complete hstocked.complete, l.tags ++ appendTags l r, n, ?_, hn⟩
      · rw [htags, sizeWhere_append, sizeWhere_append, sizeWhere_appendTags l hr.writesName,
          sizeWhere_closing, Nat.add_zero]
        exact hstocked.within.apply r.op
      · rw [htags, List.append_assoc]
  | @rebuild l lc r lo hi hslots hname hr h =>
      have hwf : r.slots.Wf := walkTags_wf (Roster.new_wf _) hslots
      have hlive := r.slots.entries_slot r.source
      obtain ⟨tags, n, hemit, hn, htags⟩ := build_closed h
      have hopens := emitCompactRange_opens hlive (Roster.entries_length hwf _)
        (r.slots.entries_sourced _) (Roster.entries_typed (gatherLiveSlots_typed hslots) _) hname
        hemit
      refine ⟨_, _, _, _, Rebuild.build_entries hslots hname hr h, ?_, part_complete hlive hemit,
        _, n, htags, hn⟩
      rw [htags, sizeWhere_append, sizeWhere_append, sizeWhere_all hopens.concernsEntry,
        sizeWhere_none (stateTags_inert r), sizeWhere_closing]
      exact hopens.within

/-! ## The account -/

/-- A total that is not zero has a tag in the log. -/
theorem latestState_mem {l : MetadataLog} {type : TagType} {words : ℕ}
    (h : latestState l type words ≠ List.replicate words 0) :
    ∃ t ∈ l.tags, t.tagType = type ∧ t.body.length = 4 * words := by
  unfold latestState at h
  split at h
  · next t hfind =>
    have hmem := List.mem_of_find?_eq_some hfind
    have htype := List.find?_some hfind
    simp only [Bool.and_eq_true, beq_iff_eq] at htype
    exact ⟨t, List.mem_reverse.1 hmem, htype⟩
  · exact absurd rfl h

/-- A tail has a tag in the log. -/
theorem scanForTail_mem {ts : List TagEntry} {link : TailLink}
    (h : MetadataLog.scanForTail ts = some link) :
    ∃ t ∈ ts, t.tagType.isTail = true ∧ t.body.length = 8 := by
  induction ts with
  | nil => cases h
  | cons t ts ih =>
      rw [MetadataLog.scanForTail] at h
      cases hlater : MetadataLog.scanForTail ts with
      | some later =>
          rw [hlater] at h
          cases h
          obtain ⟨t', ht', htail⟩ := ih hlater
          exact ⟨t', List.mem_cons_of_mem t ht', htail⟩
      | none =>
          rw [hlater] at h
          simp only [Bool.and_eq_true, beq_iff_eq] at h
          split_ifs at h with htail
          exact ⟨t, List.mem_cons_self, htail⟩

/-- The bytes that the totals and the tail of a log account for. -/
def MetadataLog.carriedSize (l : MetadataLog) : ℕ :=
  (if scanPairMoveState l = zeroMove then 0 else 16) +
    (if scanPairRelocateState l = zeroRelocate then 0 else 20) +
    if l.tailLink.isSome then 12 else 0

/-- A log holds the tags about its entries, its totals and its tail, and its closing tags, all
apart from each other. -/
theorem MetadataLog.Stocked.account {g : Geometry} {l : MetadataLog} {entries : Entries}
    (h : l.Stocked g entries) (herased : l.erased = true) :
    sizeWhere TagType.concernsEntry l.tags + l.carriedSize + 20 ≤ tagsSize l.tags := by
  obtain ⟨front, n, htags, hn⟩ := h.closed
  have hkinds := sizeWhere_kinds front
  have hsize : tagsSize l.tags = tagsSize front + (12 + (4 + n)) := by
    rw [htags, tagsSize_append, tagsSize_closing, herased]
    rfl
  have hfront : ∀ p : TagType → Bool, (∀ t ∈ closing g l.erased n, p t.tagType = false) →
      sizeWhere p l.tags = sizeWhere p front := by
    intro p hp
    rw [htags, sizeWhere_append, sizeWhere_none hp, Nat.add_zero]
  have hclosing := (closing_isClosing g l.erased n).cases
  have hentry := hfront TagType.concernsEntry (closing_isClosing g l.erased n).inert
  have hmove := hfront (· == .moveState) fun t ht => by
    rcases hclosing t ht with h | h <;> rw [h] <;> rfl
  have hrelocate := hfront (· == .relocateState) fun t ht => by
    rcases hclosing t ht with h | h <;> rw [h] <;> rfl
  have htail := hfront TagType.isTail fun t ht => by
    rcases hclosing t ht with h | h <;> rw [h] <;> rfl
  have hmove' : (if scanPairMoveState l = zeroMove then 0 else 16) ≤
      sizeWhere (· == .moveState) l.tags := by
    split_ifs with hzero
    · exact Nat.zero_le _
    · obtain ⟨t, ht, htype, hlen⟩ := latestState_mem hzero
      have hle := dsize_le_sizeWhere (p := (· == .moveState)) ht (by rw [htype]; rfl)
      rw [TagEntry.dsize, hlen] at hle
      exact hle
  have hrelocate' : (if scanPairRelocateState l = zeroRelocate then 0 else 20) ≤
      sizeWhere (· == .relocateState) l.tags := by
    split_ifs with hzero
    · exact Nat.zero_le _
    · obtain ⟨t, ht, htype, hlen⟩ := latestState_mem hzero
      have hle := dsize_le_sizeWhere (p := (· == .relocateState)) ht (by rw [htype]; rfl)
      rw [TagEntry.dsize, hlen] at hle
      exact hle
  have htail' : (if l.tailLink.isSome then 12 else 0) ≤ sizeWhere TagType.isTail l.tags := by
    split_ifs with hsome
    · rw [MetadataLog.tailLink_eq] at hsome
      cases hscan : MetadataLog.scanForTail l.tags with
      | none =>
          rw [hscan] at hsome
          cases hsome
      | some link =>
          obtain ⟨t, ht, htype, hlen⟩ := scanForTail_mem hscan
          have hle := dsize_le_sizeWhere (p := TagType.isTail) ht htype
          rw [TagEntry.dsize, hlen] at hle
          exact hle
    · exact Nat.zero_le _
  rw [MetadataLog.carriedSize]
  omega

end LittlefsPure
