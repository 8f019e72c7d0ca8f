import LittlefsPure.Replay.Fallback
import LittlefsPure.Replay.Queries
import LittlefsPure.Room.Live

/-!
# The rebuild behind a failed append

A commit that was to be appended and failed is rebuilt in full on a fresh block, with no
way to split it.  It fits, and without a byte to spare: the log holds every tag that the
rebuild repeats, the append test has reserved the tags of the operation, and the forward
CRC and the checksum of the last commit make up for the announcement of the new address.

## Why it comes out even

The rebuild writes what the entries of the log weigh, what the operation adds, the totals, the tail
and one tag that the append has not: the relocation that its parent is to be told about.  The log
holds all of the first, the append test has left room for the second, and the last commit of the
log has a closing part that the rebuild does not repeat.  That part is as long as the announcement,
and so the account closes with nothing over.
-/

namespace LittlefsPure

open Commit Entries Logic

/-! ## The attributes behind an append -/

/-- A tag that the backward search for an attribute passes over. -/
def TagEntry.PassedBy (t : TagEntry) (adj : ℤ) (a : ℕ) : Prop :=
  match t.tagType with
  | .create | .delete => adj < t.id
  | .userAttr b => ¬ (b = a ∧ (t.id : ℤ) = adj)
  | _ => True

theorem attrGetFrom_skip {liveId gdiff : ℤ} {a : ℕ} {ts us : List TagEntry}
    (h : ∀ t ∈ ts, t.PassedBy (liveId - gdiff) a) :
    attrGetFrom liveId a gdiff (ts ++ us) = attrGetFrom liveId a gdiff us := by
  induction ts with
  | nil => rfl
  | cons t ts ih =>
      have ht := h t List.mem_cons_self
      rw [List.cons_append, ← ih fun u hu => h u (List.mem_cons_of_mem t hu)]
      obtain ⟨type, id, body⟩ := t
      cases type with
      | create =>
          have hlt : liveId - gdiff < id := ht
          simp only [attrGetFrom]
          rw [if_neg (by omega), if_neg (by omega)]
      | delete =>
          have hlt : liveId - gdiff < id := ht
          simp only [attrGetFrom]
          rw [if_neg (by omega)]
      | userAttr b =>
          simp only [attrGetFrom]
          rw [if_neg ht]
      | _ => rfl

theorem passedBy_inert {t : TagEntry} (h : t.tagType.concernsEntry = false) (adj : ℤ) (a : ℕ) :
    t.PassedBy adj a := by
  obtain ⟨type, id, body⟩ := t
  cases type <;> first | exact True.intro | cases h

/-- The entries whose attributes a rebuild finds behind its own operation: a removal moves
those of the later entries up. -/
def WriteOp.kept (op : WriteOp) (entries : Entries) : Entries :=
  match op with
  | .remove id => entries.eraseIdx id
  | _ => entries

theorem Opens.le_id {n : ℕ} {ts : List TagEntry} {entries : Entries} (h : Opens n ts entries) :
    ∀ t ∈ ts, n ≤ t.id := by
  induction h with
  | nil n => exact fun t ht => absurd ht List.not_mem_nil
  | cons fills rest ih =>
      intro t ht
      rcases List.mem_append.1 ht with ht | ht
      · rcases List.mem_cons.1 ht with rfl | ht
        · exact le_rfl
        · exact (fills t ht).id.ge
      · exact (Nat.le_succ _).trans (ih t ht)

theorem passedBy_of_lt {t : TagEntry} {k : ℕ} (h : k < t.id) (a : ℕ) :
    t.PassedBy ((k : ℤ) - 0) a := by
  obtain ⟨type, id, body⟩ := t
  have hlt : (k : ℤ) - 0 < id := by simp only at h; omega
  cases type with
  | create | delete => exact hlt
  | userAttr b => exact fun hb => absurd hb.2 hlt.ne'
  | _ => exact True.intro

/-- What the rebuild of a surviving entry copies behind its own append, it copies from the
entry as it was, or from the next one if the append removed an earlier entry. -/
theorem lookup_behind_append {l la : MetadataLog} {op : WriteOp} {rest : List TagEntry}
    {entries : Entries} (htags : la.tags = l.tags ++ (op.emitOp ++ rest))
    (hrest : ∀ t ∈ rest, t.tagType.concernsEntry = false) (hl : Along AttrPlaced l.tags 0)
    (hplay : play l.tags [] = .ok entries) (hop : op.Addresses entries.length)
    (hname : op.WritesName) {k a : ℕ}
    (hk : k < entries.length) (hdrop : (slotPlan op k).dropEntry = false)
    (hkeep : (slotPlan op k).attrSuppress ≠ some a) :
    (forEachLiveAttr la k).lookup a = (op.kept entries)[k]?.bind fun e => e.attrs a := by
  rw [forEachLiveAttr, lookup_liveAttrsFrom List.not_mem_nil, htags, List.reverse_append,
    List.reverse_append, List.append_assoc,
    attrGetFrom_skip fun t ht => passedBy_inert (hrest t (List.mem_reverse.1 ht)) _ _]
  have hsame : (∀ t ∈ op.emitOp, t.PassedBy ((k : ℤ) - 0) a) → op.kept entries = entries →
      attrGetFrom k a 0 (op.emitOp.reverse ++ l.tags.reverse) =
        (op.kept entries)[k]?.bind fun e => e.attrs a := by
    intro hpassed hkept
    rw [attrGetFrom_skip fun t ht => hpassed t (List.mem_reverse.1 ht), hkept]
    exact attrGetFrom_play hl hplay k a 0 k (Int.sub_zero _)
  have hnew : ∀ id, op.target = some id → op.opAddsEntry = true →
      op.emitOp = op.newEntryTags id → op.kept entries = entries →
      attrGetFrom k a 0 (op.emitOp.reverse ++ l.tags.reverse) =
        (op.kept entries)[k]?.bind fun e => e.attrs a := by
    intro id hid hadds hemit hkept
    refine hsame (fun t ht => passedBy_of_lt ?_ a) hkept
    rw [hemit] at ht
    have hlen := hop id hid
    rw [if_pos hadds] at hlen
    exact (hlen ▸ hk).trans_le ((op.newEntryTags_opens id).le_id t ht)
  cases op with
  | create id | createCtz id | createDir id => exact hnew id rfl rfl rfl rfl
  | noop => exact hsame (fun t ht => absurd ht List.not_mem_nil) rfl
  | update | updateCtz | updateDirStruct =>
      refine hsame (fun t ht => ?_) rfl
      rw [List.mem_singleton.1 ht]
      exact True.intro
  | renameInPlace id nameType newName =>
      refine hsame (fun t ht => ?_) rfl
      rw [List.mem_singleton.1 ht]
      cases nameType <;> first | exact True.intro | cases hname
  | setAttr id b value | removeAttr id b =>
      refine hsame (fun t ht => ?_) rfl
      rw [List.mem_singleton.1 ht]
      rintro ⟨rfl, hid⟩
      have hid' : id = k := by simpa using hid
      subst hid'
      simp [slotPlan] at hkeep
  | remove id =>
      have hne : id ≠ k := by
        rintro rfl
        simp [slotPlan] at hdrop
      show attrGetFrom k a 0 (⟨.delete, id, .bytes []⟩ :: l.tags.reverse) = _
      simp only [attrGetFrom, WriteOp.kept, List.getElem?_eraseIdx]
      by_cases hlt : id ≤ k
      · rw [if_pos (by omega), if_neg (by omega)]
        exact attrGetFrom_play hl hplay k a _ (k + 1) (by push_cast; omega)
      · rw [if_neg (by omega), if_pos (by omega)]
        exact attrGetFrom_play hl hplay k a 0 k (Int.sub_zero _)

/-! ## The attributes a rebuild copies -/

/-- The entries' frames and their attributes, weighed apart. -/
theorem Entries.Within.split {entries : Entries} {n : ℕ} (h : entries.Within n) :
    ∃ m, Weighted Entry.AttrsWithin entries m ∧ (entries.map Entry.frameSize).sum + m ≤ n := by
  obtain ⟨ws, hws, hsum⟩ := h
  induction hws generalizing n with
  | nil => exact ⟨0, Weighted.nil, Nat.zero_le n⟩
  | @cons e w es ws he hes ih =>
      obtain ⟨b, hb, hle⟩ := he
      obtain ⟨m, hm, hrest⟩ := ih le_rfl
      rw [List.sum_cons] at hsum
      refine ⟨b + m, Weighted.cons hb hm, ?_⟩
      rw [List.map_cons, List.sum_cons]
      omega

/-- Attributes listed of one of the entries fit its share. -/
theorem dsize_le_share {entries : Entries} {us : List ℕ}
    (hus : List.Forall₂ Entry.AttrsWithin entries us) {k : ℕ} {attrs : StagedAttrs}
    (hnodup : (attrs.map Prod.fst).Nodup)
    (hall : ∀ r ∈ attrs, (entries[k]?.bind fun e => e.attrs r.1) = some r.2) :
    attrs.dsize ≤ us.getD k 0 := by
  induction hus generalizing k with
  | nil =>
      cases attrs with
      | nil => exact Nat.zero_le _
      | cons r attrs => cases hall r List.mem_cons_self
  | @cons e w es ws he hes ih =>
      cases k with
      | zero => exact he attrs hnodup fun r hr => hall r hr
      | succ k => exact ih fun r hr => hall r hr

/-- The attributes that a rebuild copies fit the shares of the entries that it finds them
at. -/
theorem copied_le_share {source : MetadataLog} {plan : SlotPlan} {entries : Entries} {us : List ℕ}
    (hus : List.Forall₂ Entry.AttrsWithin entries us) {k : ℕ}
    (hfound : ∀ a, plan.attrSuppress ≠ some a →
      (forEachLiveAttr source k).lookup a = entries[k]?.bind fun e => e.attrs a) :
    (plan.copied (forEachLiveAttr source k)).dsize ≤ us.getD k 0 := by
  have hnodup : ((forEachLiveAttr source k).map Prod.fst).Nodup := nodup_liveAttrsFrom
  refine dsize_le_share hus (hnodup.sublist (List.filter_sublist.map _)) fun r hr => ?_
  obtain ⟨hmem, hkeep⟩ := List.mem_filter.1 hr
  rw [← hfound r.1 (by simpa using hkeep)]
  exact (mem_iff_lookup hnodup).1 hmem

/-- The attributes that the rebuild behind a failed append copies weigh no more than those of
the log, whichever of the two logs it finds in the buffer. -/
theorem copied_behind_append {g : Geometry} {l source : MetadataLog} {r : CommitRequest}
    {entries : Entries} {m : ℕ} (hl : Along AttrPlaced l.tags 0)
    (hplay : play l.tags [] = .ok entries) (hr : r.Valid entries.length)
    (hsource : source.tags = l.tags ∨
      ∃ la, buildAppend g l r = .ok la ∧ source.tags = la.tags)
    (hm : Weighted Entry.AttrsWithin entries m) :
    ∃ us : List ℕ, us.sum ≤ m ∧ ∀ k, k < entries.length → (slotPlan r.op k).dropEntry = false →
      ((slotPlan r.op k).copied (forEachLiveAttr source k)).dsize ≤ us.getD k 0 := by
  rcases hsource with hsource | ⟨la, hla, hsource⟩
  · obtain ⟨us, hus, hsum⟩ := hm
    refine ⟨us, hsum, fun k hk hdrop => copied_le_share hus fun a _ => ?_⟩
    have hsame : forEachLiveAttr source k = forEachLiveAttr l k := by
      rw [forEachLiveAttr, forEachLiveAttr, hsource]
    rw [hsame]
    exact lookup_forEachLiveAttr hl hplay k a
  · have hkept : Weighted Entry.AttrsWithin (r.op.kept entries) m := by
      unfold WriteOp.kept
      split
      · exact hm.eraseIdx _
      · exact hm
    obtain ⟨us, hus, hsum⟩ := hkept
    refine ⟨us, hsum, fun k hk hdrop => copied_le_share hus fun a hkeep => ?_⟩
    obtain ⟨closing, hclosing, htags⟩ := buildAppend_tags hla
    have hshape : source.tags = l.tags ++ (r.op.emitOp ++
        (foldTags l .moveState 3 r.extraMove ++ (foldTags l .relocateState 4 r.extraRelocate ++
          (r.newTail.toList.map tailTag ++ closing)))) := by
      rw [hsource, htags, appendTags_eq]
      simp only [List.append_assoc]
    refine lookup_behind_append hshape (fun t ht => ?_) hl hplay hr.addresses hr.writesName hk hdrop
      hkeep
    simp only [List.mem_append] at ht
    rcases ht with ht | ht | ht | ht
    · exact @concernsEntry_of_types _ .moveState foldTags_type rfl t ht
    · exact @concernsEntry_of_types _ .relocateState foldTags_type rfl t ht
    · exact tailTags_inert _ t ht
    · exact hclosing.inert t ht

/-! ## The account -/

/-- The rebuild of a pair that moves, with the announcement of its new address. -/
def Rebuild.announcing (r : Rebuild) (oldPair newPair : BlockPair) : Rebuild :=
  { r with
    relocateState :=
      foldState zeroRelocate r.relocateState (some (buildRelocateBody oldPair newPair)) }

theorem tagsSize_totalTags_le {type : TagType} {zero : List ℕ} {total : Option (List ℕ)} {n : ℕ}
    (h : ∀ b, total = some b → b.length = n) :
    tagsSize (totalTags type zero total) ≤ 4 + 4 * n := by
  cases total with
  | none => exact Nat.zero_le _
  | some b =>
      have hlen := h b rfl
      unfold totalTags
      simp only
      split_ifs
      · exact Nat.zero_le _
      · simp [TagEntry.dsize, Body.length_words, hlen]

/-- The state and tail tags of the rebuild take what the log holds of them, what the append
test has reserved for them, and twenty bytes for the announcement. -/
theorem tagsSize_announcing_le {v : PairView} {source : MetadataLog} {r : CommitRequest}
    (hr : r.Sized) (newPair : BlockPair) :
    tagsSize ((rebuildOf v source r).announcing v.pairAddr newPair).stateTags + r.op.opDsizeOf ≤
      v.log.carriedSize + r.dsize + 20 := by
  have hsized := @rebuildOf_sized v source r hr
  have hmove : tagsSize (moveStateTags (rebuildOf v source r).moveState) ≤
      (if r.extraMove.isSome then 4 + 12 else 0) +
        if scanPairMoveState v.log = zeroMove then 0 else 16 := by
    have hle : tagsSize (moveStateTags (rebuildOf v source r).moveState) ≤ 16 :=
      tagsSize_totalTags_le hsized.move
    by_cases hzero : scanPairMoveState v.log = zeroMove
    · cases hextra : r.extraMove with
      | none =>
          have hnone : (rebuildOf v source r).moveState = none := by
            simp [rebuildOf, hextra, hzero]
          rw [hnone]
          exact Nat.zero_le _
      | some d => simpa [hzero] using hle
    · rw [if_neg hzero]
      omega
  have hrelocate : tagsSize (relocateStateTags
      ((rebuildOf v source r).announcing v.pairAddr newPair).relocateState) ≤ 20 :=
    tagsSize_totalTags_le (foldState_length hsized.relocate fun b hb => by cases hb; rfl)
  have htail : tagsSize (rebuiltTailTags (rebuildOf v source r).tail) ≤
      (if r.newTail.isSome then 4 + 8 else 0) + if v.log.tailLink.isSome then 12 else 0 := by
    have hone : ∀ tail : Option TailLink,
        tagsSize (rebuiltTailTags tail) ≤ if tail.isSome then 12 else 0 := by
      intro tail
      cases tail with
      | none => exact le_rfl
      | some link =>
          show tagsSize (if link.1.a = noBlock then [] else [tailTag link]) ≤ 12
          split_ifs
          · exact Nat.zero_le _
          · exact le_rfl
    refine (hone _).trans ?_
    show (if (r.newTail.or v.log.tailLink).isSome then 12 else 0) ≤ _
    cases r.newTail with
    | none => exact Nat.le_add_left _ _
    | some link => exact Nat.le_add_right _ _
  have hstate : ((rebuildOf v source r).announcing v.pairAddr newPair).stateTags =
      moveStateTags (rebuildOf v source r).moveState ++
        (relocateStateTags ((rebuildOf v source r).announcing v.pairAddr newPair).relocateState ++
          rebuiltTailTags (rebuildOf v source r).tail) := rfl
  rw [hstate, tagsSize_append, tagsSize_append, MetadataLog.carriedSize, CommitRequest.dsize]
  omega

/-- A tag about an entry is no checksum. -/
theorem isCcrc_of_concernsEntry {t : TagEntry} (h : t.tagType.concernsEntry = true) :
    t.tagType.isCcrc = false := by
  obtain ⟨type, id, body⟩ := t
  cases type <;> first | rfl | cases h

/-- The rebuild behind a failed append fits its block with a checksum, whatever the operation,
the totals and the tail.  So it is built, and ends in the block, unless a length does not fit
the ten bits of its tag. -/
theorem forced_rebuild_fits {g : Geometry} (hg : g.Admitted) {v : PairView} {r : CommitRequest}
    {s : Fs} {source : MetadataLog} (hlog : WrittenAway g v.log)
    (hslots : gatherLiveSlots v.log = .ok v.slots) (hr : r.Valid v.slots.count)
    (hcan : canAppend g v.log r = true)
    (hlost : (tryAppend g v r s).result = .ok (some source)) (newPair : BlockPair) :
    ∃ tags, emitCompactRange source v.slots r.op 0 (rebuildOf v source r).total = .ok tags ∧
      ((rebuildOf v source r).announcing v.pairAddr newPair).Fits g tags ∧
      ((∀ t ∈ tags ++ ((rebuildOf v source r).announcing v.pairAddr newPair).stateTags,
          t.body.length < lenSpecial) →
        ClosingFits g (4 + tagsSize (tags ++
          ((rebuildOf v source r).announcing v.pairAddr newPair).stateTags)) →
        ∃ lc, ((rebuildOf v source r).announcing v.pairAddr newPair).build g 0
            (rebuildOf v source r).total = .ok lc ∧ lc.committedEnd ≤ g.blockSize) := by
  obtain ⟨entries, move, relocate, tail, hcarries, hstocked⟩ := hlog.stocked
  obtain ⟨hplay, hshows⟩ := hcarries.shows hslots
  have hlive : v.slots.live = entries.map Entry.slot := hshows.live
  have hcount := hshows.count
  have hsource : source.tags = v.log.tags ∨
      ∃ la, buildAppend g v.log r = .ok la ∧ source.tags = la.tags := by
    obtain ⟨la, hla, htags⟩ := (triple_tryAppend_buffer (K := fun _ => True) v r s).returns rfl
      (fun _ _ => True.intro) hlost source rfl
    split_ifs at htags
    · exact .inl htags
    · exact .inr ⟨la, hla, htags⟩
  obtain ⟨m, hm, hwithin⟩ := Entries.Within.split hstocked.within
  rw [hcount] at hr
  obtain ⟨us, hsum, hcopied⟩ := copied_behind_append (hcarries.placed.mono fun _ _ h => h.attr)
      hplay
    hr hsource hm
  rw [← hcount] at hcopied
  obtain ⟨tags, htags⟩ : ∃ tags,
      emitCompactRange source v.slots r.op 0 (r.op.total v.slots.count) = .ok tags := by
    have hall : ∀ e ∈ (entries.take (r.op.total v.slots.count)).drop 0, e.Complete := fun e he =>
      hstocked.complete e (List.mem_of_mem_take (List.mem_of_mem_drop he))
    obtain ⟨ts, last, hts⟩ := @emitSlots_ok source r.op _ hall 0 0
    rw [List.map_drop, List.map_take, ← hlive] at hts
    unfold emitCompactRange
    rw [hts]
    exact ⟨_, rfl⟩
  have hfits : ((rebuildOf v source r).announcing v.pairAddr newPair).Fits g tags := by
    have hemitted := tagsSize_emitCompactRange hshows.wf hcopied htags
    have hframes : (v.slots.live.map Slot.frameSize).sum = (entries.map Entry.frameSize).sum := by
      rw [hlive, List.map_map]
      rfl
    have hstate := @tagsSize_announcing_le v source r hr.sized newPair
    have hop := tagsSize_emitOp r.op
    have herased : v.log.erased = true := by
      simp only [canAppend, Bool.and_eq_true] at hcan
      exact hcan.1.1.1
    have haccount := hstocked.account herased
    have hroom := canAppend_room hcan
    have hend : v.log.committedEnd = 4 + tagsSize v.log.tags := by
      have hne : v.log.tags.isEmpty = false := by
        cases htags : v.log.tags with
        | nil =>
            rw [htags] at haccount
            simp at haccount
        | cons t ts => rfl
      rw [MetadataLog.committedEnd, hne]
      rfl
    unfold Rebuild.Fits
    rw [tagsSize_append]
    omega
  refine ⟨tags, htags, hfits, fun hbodies hclosing => ?_⟩
  have hcrc : ∀ t ∈ tags, t.tagType.isCcrc = false := by
    have hopens := emitCompactRange_opens (v.slots.entries_slot source)
      (Roster.entries_length hshows.wf source) (v.slots.entries_sourced source)
      (Roster.entries_typed (gatherLiveSlots_typed hslots) source) hr.writesName htags
    exact fun t ht => isCcrc_of_concernsEntry (hopens.concernsEntry t ht)
  obtain ⟨lc, hlc⟩ := (Rebuild.build_iff hg (r :=
      (rebuildOf v source r).announcing v.pairAddr newPair)
    htags hcrc).2 ⟨hfits, hbodies, hclosing⟩
  exact ⟨lc, hlc, (Rebuild.build_end hlc).2⟩

theorem wornLog_away : WrittenAway wornGeometry wornLog := by
  have hempty : emptyDirLog wornGeometry none = .ok wornEmpty := by decide +kernel
  have hfirst : buildAppend wornGeometry wornEmpty (wornCreate 0 []) = .ok wornFirst := by
    decide +kernel
  have hsecond : buildAppend wornGeometry wornFirst (wornCreate 1 [(7, .bytes [5])]) =
      .ok wornLog := by decide +kernel
  have hvalid : ∀ (l : MetadataLog) (id : ℕ) (attrs : StagedAttrs),
      (gatherLiveSlots l).toOption.map Roster.count = some id → ∃ slots,
        gatherLiveSlots l = .ok slots ∧ (wornCreate id attrs).Valid slots.count := by
    intro l id attrs h
    cases hslots : gatherLiveSlots l with
    | error e =>
        rw [hslots] at h
        cases h
    | ok slots =>
        rw [hslots] at h
        obtain rfl := Option.some.inj h
        refine ⟨slots, rfl, ?_, True.intro, nofun, nofun⟩
        rintro _ ⟨⟩
        rfl
  obtain ⟨slots₀, hslots₀, hvalid₀⟩ := hvalid wornEmpty 0 [] (by decide +kernel)
  obtain ⟨slots₁, hslots₁, hvalid₁⟩ := hvalid wornFirst 1 [(7, .bytes [5])] (by decide +kernel)
  exact .append (.append (.emptyDir hempty) hslots₀ hvalid₀ hfirst) hslots₁ hvalid₁ hsecond

/-- The first of two files is removed, and the program of that commit reports an error. -/
theorem forced_rebuild_fits_worn : ∃ tags,
    emitCompactRange (wornSource (.failed .nothing)) wornView.slots wornRemove.op 0 2 = .ok tags ∧
      ((rebuildOf wornView (wornSource (.failed .nothing)) wornRemove).announcing ⟨4, 5⟩
        ⟨2, 5⟩).Fits wornGeometry tags := by
  obtain ⟨tags, htags, hfits, -⟩ := @forced_rebuild_fits wornGeometry
    (Geometry.admitted_iff.1 (by decide)) wornView wornRemove (wornStart (.failed .nothing))
    (wornSource (.failed .nothing)) wornLog_away wornView_slots wornRemove_valid
    (by decide +kernel) (by decide +kernel) ⟨2, 5⟩
  exact ⟨tags, htags, hfits⟩

end LittlefsPure
