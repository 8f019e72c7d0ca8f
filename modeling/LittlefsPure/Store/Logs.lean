import LittlefsPure.Store.Rest

/-!
# The logs of a flat directory

What a commit that touches inline entries alone writes: tags that name no chain and no pair
but the tail, entries whose content is inline again, and in the root's first log the
superblock as it was.

## Why the tags are looked at one by one

The commit engine emits few kinds of tags, and for files whose content is inline none of them holds
an address but the tail.  That is a fact about emission, and it is proved where the emission is: an
append adds the tags of its operation, a rebuild repeats those of the slots.  Everything above
relies on it to know what the scans can find.
-/

namespace LittlefsPure

open Logic

/-! ## Slots that can be gathered -/

section Gather

variable {α : Type} {empty : α} {onName onStruct onName' onStruct' :
    ℕ → TagEntry → α → Except Error α}

/-- A walk whose slot functions fail as out of range only fails where a lenient one does. -/
theorem walkTag_lenient (hname : ∀ off t s e, onName off t s = .error e → e = .outOfRange)
    (hstruct : ∀ off t s e, onStruct off t s = .error e → e = .outOfRange) {r : Roster α}
    {t : TagEntry} {off : ℕ} {e : Error} (he : e ≠ .outOfRange)
    (h : walkTag empty onName onStruct off t r = .error e) :
    walkTag empty onName' onStruct' off t r = .error e := by
  have hupdate : ∀ (r' : Roster α) id (f f' : α → Except Error α),
      (∀ s e, f s = .error e → e = .outOfRange) → r'.update id f = .error e →
      r'.update id f' = .error e := by
    intro r' id f f' hf hup
    unfold Roster.update at hup ⊢
    cases hs : r'.slots[id]? with
    | none =>
        rw [hs] at hup
        exact hup
    | some s =>
        rw [hs] at hup
        simp only at hup
        cases hfs : f s with
        | ok s' =>
            rw [hfs] at hup
            cases hup
        | error e' =>
            rw [hfs] at hup
            cases hup
            exact absurd (hf s _ hfs) he
  unfold walkTag at h ⊢
  cases hstep : spliceStep empty r t with
  | error e' =>
      rw [hstep] at h
      exact h
  | ok x =>
      obtain ⟨step, r'⟩ := x
      rw [hstep] at h
      cases step with
      | consumed => cases h
      | name id => exact hupdate r' id _ _ (fun s e' => hname _ _ s e') h
      | other =>
          simp only [bind, Except.bind] at h ⊢
          split_ifs at h ⊢
          · exact hupdate r' t.id _ _ (fun s e' => hstruct _ _ s e') h
          · cases h

end Gather

theorem setName_error {off : ℕ} {t : TagEntry} {s : Slot} {e : Error}
    (h : Slot.setName off t s = .error e) : e = .outOfRange := by
  unfold Slot.setName at h
  split_ifs at h
  cases h
  rfl

theorem setStruct_error {off : ℕ} {t : TagEntry} {s : Slot} {e : Error}
    (h : Slot.setStruct off t s = .error e) : e = .outOfRange := by
  unfold Slot.setStruct at h
  split_ifs at h
  cases h
  rfl

/-- The slots of tags that replay can be gathered, unless an offset is out of range. -/
theorem gatherSlotsFrom_of_play {ts : List TagEntry} {off : ℕ} {r : Roster Slot}
    {entries entries' : Entries} (hr : r.Shows Entry.slot Slot.empty entries)
    (hts : Along StructPlaced ts entries.length) (hplay : entries.play ts = .ok entries')
    (hfits : gatherSlotsFrom ts off r ≠ .error .outOfRange) :
    ∃ slots, gatherSlotsFrom ts off r = .ok slots := by
  induction ts generalizing off r entries with
  | nil => exact ⟨r, rfl⟩
  | cons t ts ih =>
      unfold gatherSlotsFrom at hfits ih ⊢
      rw [walkTags_cons] at hfits ⊢
      rw [Entries.play_cons] at hplay
      cases ht : walkTag Slot.empty Slot.setName Slot.setStruct off t r with
      | error e =>
          rw [ht] at hfits
          have he : e ≠ .outOfRange := fun heq => hfits (congrArg Except.error heq)
          have hlenient : walkTag Slot.empty (fun _ _ s => .ok s) (fun _ _ s => .ok s) off t r =
              .error e :=
            walkTag_lenient (fun _ _ _ _ => setName_error) (fun _ _ _ _ => setStruct_error) he ht
          have hrejected : entries.applyTag t = .error e :=
            walkTag_play_error (by intros; exact nofun) (by intros; exact nofun) hr hlenient
          rw [hrejected] at hplay
          cases hplay
      | ok r₁ =>
          obtain ⟨entries₁, happly, hshows⟩ := walkTag_play slot_reads hr hts.1 ht
          rw [happly] at hplay
          rw [ht] at hfits
          exact ih hshows (hts.2 _ (Entries.length_applyTag happly)) hplay hfits

/-- The slots of a log within the limits of its readers can be gathered. -/
theorem MetadataLog.Carries.gathered {l : MetadataLog} {entries : Entries} {move : MoveBody}
    {relocate : RelocateBody} {tail : Option TailLink} (h : l.Carries entries move relocate tail)
    (hlimits : l.WithinLimits) (hle : entries.length ≤ maxLiveEntries) :
    ∃ slots, gatherLiveSlots l = .ok slots := by
  have hplay : Entries.play l.tags [] = .ok entries := by
    rw [h.entries, Entries.checked_of_le hle]
  exact gatherSlotsFrom_of_play (Roster.new_shows Slot.empty)
    (h.placed.mono fun _ _ ht => ht.struct) hplay hlimits.gather

/-! ## Operations on inline entries -/

/-- An operation that gives no entry a chain or a directory. -/
def WriteOp.InlineOnly : WriteOp → Prop
  | .createCtz .. | .createDir .. | .updateCtz .. | .updateDirStruct .. => False
  | _ => True

/-- A tag of a type that points nowhere. -/
theorem TagEntry.flat_of_type {pairs : List BlockPair} {t : TagEntry}
    (h : t.tagType ≠ .dirStruct ∧ t.tagType ≠ .ctzStruct ∧ t.tagType.isTail = false) :
    t.Flat pairs := by
  obtain ⟨hdir, hctz, htail⟩ := h
  unfold TagEntry.Flat TagEntry.rawChain TagEntry.rawChild
  cases htype : t.tagType <;> rw [htype] at hdir hctz htail <;> simp_all [TagType.isTail]

theorem flat_name {type : TagType} (h : type.isName = true) (pairs : List BlockPair) (id : ℕ)
    (body : Body) : TagEntry.Flat pairs ⟨type, id, body⟩ := by
  refine TagEntry.flat_of_type ?_
  cases type with
  | regularFile | directory | superblock => exact ⟨nofun, nofun, rfl⟩
  | _ => cases h

theorem flat_attrTags (pairs : List BlockPair) (id : ℕ) (attrs : StagedAttrs) :
    ∀ t ∈ WriteOp.attrTags id attrs, t.Flat pairs := by
  intro t ht
  obtain ⟨r, -, rfl⟩ := List.mem_map.1 ht
  exact TagEntry.flat_of_type ⟨by rintro ⟨⟩, by rintro ⟨⟩, rfl⟩

theorem flat_newEntryTags {op : WriteOp} (hop : op.InlineOnly) (pairs : List BlockPair) (id : ℕ) :
    ∀ t ∈ op.newEntryTags id, t.Flat pairs := by
  cases op with
  | create _ name content attrs =>
      exact List.forall_mem_cons.2 ⟨TagEntry.flat_of_type ⟨nofun, nofun, rfl⟩,
        List.forall_mem_cons.2 ⟨TagEntry.flat_of_type ⟨nofun, nofun, rfl⟩,
          List.forall_mem_cons.2 ⟨TagEntry.flat_of_type ⟨nofun, nofun, rfl⟩,
            flat_attrTags pairs id attrs⟩⟩⟩
  | createCtz | createDir => exact hop.elim
  | _ => exact nofun

theorem flat_emitOp {op : WriteOp} (hop : op.InlineOnly) (hname : op.WritesName)
    (pairs : List BlockPair) : ∀ t ∈ op.emitOp, t.Flat pairs := by
  cases op with
  | create id name content attrs => exact flat_newEntryTags hop pairs id
  | createCtz | createDir | updateCtz | updateDirStruct => exact hop.elim
  | renameInPlace id nameType newName =>
      exact List.forall_mem_singleton.2 (flat_name hname pairs id newName)
  | noop => exact nofun
  | _ => exact List.forall_mem_singleton.2 (TagEntry.flat_of_type ⟨nofun, nofun, rfl⟩)

theorem slotPlan_inline {op : WriteOp} (hop : op.InlineOnly) {i : ℕ} {b : TagType × Body}
    (h : (slotPlan op i).structOverride = some b) : b.1 = .inlineStruct := by
  cases op with
  | updateCtz | updateDirStruct | createCtz | createDir => exact hop.elim
  | update id content =>
      simp only [slotPlan] at h
      split_ifs at h
      cases h
      rfl
  | remove | renameInPlace | setAttr | removeAttr =>
      simp only [slotPlan] at h
      split_ifs at h
  | _ => cases h

/-- The tags of a surviving inline entry. -/
theorem flat_emitSlot {source : MetadataLog} {s : Slot} (hs : s.Typed)
    (hinline : ∀ st, s.struct = some st → st.1 = .inlineStruct) {op : WriteOp}
    (hop : op.InlineOnly) (hname : op.WritesName) {i emitId : ℕ} {tags : List TagEntry}
    (h : emitSlot source s (slotPlan op i) i emitId = .ok tags) (pairs : List BlockPair) :
    ∀ t ∈ tags, t.Flat pairs := by
  obtain ⟨hextra, -⟩ := slotPlan_types op (by rintro _ _ _ rfl; exact hname) i
  unfold emitSlot at h
  split at h
  · next nameType name structType structBody hn hst =>
    cases h
    have hstruct : ((slotPlan op i).structOverride.getD (structType, structBody)).1 =
        .inlineStruct := by
      cases ho : (slotPlan op i).structOverride with
      | none => exact hinline _ hst
      | some b => exact slotPlan_inline hop ho
    intro t ht
    simp only [List.nil_append, List.cons_append, List.append_assoc,
      List.mem_cons, List.mem_append, List.mem_map, Option.mem_toList] at ht
    rcases ht with rfl | rfl | ⟨n, hx, rfl⟩ | rfl | ht | ht
    · exact TagEntry.flat_of_type ⟨by rintro ⟨⟩, by rintro ⟨⟩, rfl⟩
    · exact flat_name (hs.name _ hn) pairs _ _
    · exact flat_name (hextra n hx) pairs _ _
    · exact TagEntry.flat_of_type (hstruct.symm ▸ ⟨nofun, nofun, rfl⟩)
    · exact flat_attrTags pairs _ _ t ht
    · exact flat_attrTags pairs _ _ t ht
  · cases h

theorem flat_emitSlots {source : MetadataLog} {ss : List Slot} (hss : ∀ s ∈ ss, s.Typed)
    (hinline : ∀ s ∈ ss, ∀ st, s.struct = some st → st.1 = .inlineStruct) {op : WriteOp}
    (hop : op.InlineOnly) (hname : op.WritesName) {i emitId last : ℕ} {tags : List TagEntry}
    (h : emitSlots source op ss i emitId = .ok (tags, last)) (pairs : List BlockPair) :
    ∀ t ∈ tags, t.Flat pairs := by
  induction ss generalizing i emitId tags with
  | nil =>
      cases h
      exact nofun
  | cons s rest ih =>
      rw [List.forall_mem_cons] at hss hinline
      rcases emitSlots_cons_eq_ok h with h | ⟨ts, more, hts, hmore, rfl⟩
      · exact ih hss.2 hinline.2 h
      · exact List.forall_mem_append.2 ⟨flat_emitSlot hss.1 hinline.1 hop hname hts pairs,
          ih hss.2 hinline.2 hmore⟩

/-! ## Built logs -/

theorem Closing.flat {ts : List TagEntry} (h : Closing ts) (pairs : List BlockPair) :
    ∀ t ∈ ts, t.Flat pairs := by
  intro t ht
  refine TagEntry.flat_of_type ?_
  rcases h.cases t ht with h | h <;> rw [h] <;> exact ⟨nofun, nofun, rfl⟩

theorem flat_tailTag {pairs : List BlockPair} {link : TailLink}
    (h : link.1.isNull = false → link.1 ∈ pairs) : (tailTag link).Flat pairs := by
  obtain ⟨p, hard⟩ := link
  have hpair : (Body.ofPair p).pair = p := rfl
  have hlen : (Body.ofPair p).length = 8 := rfl
  cases hard <;>
    simp only [TagEntry.Flat, tailTag, TagEntry.rawChain, TagEntry.rawChild, hpair, hlen, true_and,
      Bool.false_eq_true, if_true, if_false] <;>
    · intro c hc
      split_ifs at hc with hlive
      cases hc
      exact h hlive

theorem flat_stateTags {r : Rebuild} {pairs : List BlockPair}
    (h : ∀ link, r.tail = some link → link.1.isNull = false → link.1 ∈ pairs) :
    ∀ t ∈ r.stateTags, t.Flat pairs := by
  refine List.forall_mem_append.2 ⟨fun t ht => TagEntry.flat_of_type ?_,
    List.forall_mem_append.2 ⟨fun t ht => TagEntry.flat_of_type ?_, fun t ht => ?_⟩⟩
  · rw [show t.tagType = .moveState from totalTags_type t ht]
    exact ⟨nofun, nofun, rfl⟩
  · rw [show t.tagType = .relocateState from totalTags_type t ht]
    exact ⟨nofun, nofun, rfl⟩
  · obtain ⟨link, htags, hlive⟩ := rebuiltTailTags_eq r.tail
    rw [htags] at ht
    obtain ⟨link, hlink, rfl⟩ := List.mem_map.1 ht
    rw [Option.mem_toList] at hlink
    subst hlink
    refine flat_tailTag fun hnull => h link ?_ hnull
    have hsome : liveLink (some link) = some link := by simp [liveLink, Option.filter, hnull]
    rw [hsome] at hlive
    exact (Option.filter_eq_some_iff.1 hlive.symm).1

/-- A rebuild of inline entries names the pair of its tail and nothing else. -/
theorem Rebuild.build_flat {g : Geometry} {r : Rebuild} {l₀ l : MetadataLog}
    (hslots : gatherLiveSlots l₀ = .ok r.slots)
    (hinline : ∀ s ∈ r.slots.live, ∀ st, s.struct = some st → st.1 = .inlineStruct)
    (hop : r.op.InlineOnly) (hname : r.op.WritesName) {lo hi : ℕ} (h : r.build g lo hi = .ok l)
    {pairs : List BlockPair}
    (htail : ∀ link, r.tail = some link → link.1.isNull = false → link.1 ∈ pairs) :
    ∀ t ∈ l.tags, t.Flat pairs := by
  obtain ⟨tags, closing, htags, hclosing, hl⟩ := build_tags h
  rw [hl]
  refine List.forall_mem_append.2 ⟨?_, List.forall_mem_append.2 ⟨flat_stateTags htail,
    hclosing.flat pairs⟩⟩
  unfold emitCompactRange at htags
  obtain ⟨⟨body, last⟩, hbody, htags⟩ := bind_eq_ok.1 htags
  cases htags
  have hsub : ∀ s ∈ (r.slots.live.take hi).drop lo, s ∈ r.slots.live := fun s hs =>
    List.mem_of_mem_take (List.mem_of_mem_drop hs)
  refine List.forall_mem_append.2 ⟨flat_emitSlots (fun s hs => gatherLiveSlots_typed hslots s
    (List.mem_of_mem_take (hsub s hs))) (fun s hs => hinline s (hsub s hs)) hop hname hbody pairs,
      ?_⟩
  split_ifs
  · exact flat_newEntryTags hop pairs last
  · exact nofun

/-- New entries are opened one by one. -/
theorem Opens.createCount {n : ℕ} {ts : List TagEntry} {entries : Entries}
    (h : Opens n ts entries) : LittlefsPure.createCount ts = entries.length := by
  induction h with
  | nil n => rfl
  | @cons n fs more entries fills rest ih =>
      have hfills : LittlefsPure.createCount fs = 0 := by
        refine createCount_eq_zero fun t ht htype => ?_
        rcases (fills t ht).kind with h | h | ⟨a, h⟩ <;> rw [htype] at h <;> cases h
      rw [createCount_append, createCount_create_cons, hfills, ih, List.length_cons]
      omega

/-- A rebuild within the readers' limits leaves no more entries than there are slots. -/
theorem Rebuild.room {g : Geometry} {r : Rebuild} {l₀ l : MetadataLog}
    (hslots : gatherLiveSlots l₀ = .ok r.slots) (hname : r.op.WritesName)
    (hop : r.op.WellFormed) {lo hi : ℕ}
    (hlim : (Event.rebuild r.source r.slots r.op lo hi).WithinLimits)
    (hl : r.build g lo hi = .ok l) :
    (r.op.part (r.slots.entries r.source) lo hi).length ≤ maxLiveEntries := by
  obtain ⟨tags, -, htags, -⟩ := build_tags hl
  have hwf : r.slots.Wf := walkTags_wf (Roster.new_wf _) hslots
  have hopens := emitCompactRange_opens (r.slots.entries_slot r.source)
    (Roster.entries_length hwf _) (r.slots.entries_sourced _)
    (Roster.entries_typed (gatherLiveSlots_typed hslots) _) hname htags
  rw [← hopens.createCount]
  exact (RebuildFits.emitted hop (gatherLiveSlots_typed hslots) hlim htags).1

/-- A rebuild of inline entries under a tail that names one of some pairs. -/
structure Rebuild.Flat (r : Rebuild) (pairs : List BlockPair) : Prop where
  slots : ∃ l, gatherLiveSlots l = .ok r.slots
  names : r.op.WritesName
  formed : r.op.WellFormed
  inlineOnly : r.op.InlineOnly
  inline : ∀ s ∈ r.slots.live, ∀ st, s.struct = some st → st.1 = .inlineStruct
  tail : ∀ link, liveLink r.tail = some link → link.1 ∈ pairs

/-- A log that names nothing but some pairs and can be gathered. -/
structure MetadataLog.Flat (l : MetadataLog) (pairs : List BlockPair) : Prop where
  tags : ∀ t ∈ l.tags, t.Flat pairs
  gathered : ∃ slots, gatherLiveSlots l = .ok slots

theorem MetadataLog.Flat.mono {l : MetadataLog} {pairs pairs' : List BlockPair} (h : l.Flat pairs)
    (hsub : ∀ p ∈ pairs, p ∈ pairs') : l.Flat pairs' :=
  ⟨fun t ht => (h.tags t ht).mono hsub, h.gathered⟩

theorem Rebuild.Flat.entries_inline {r : Rebuild} {pairs : List BlockPair} (h : r.Flat pairs) :
    ∀ e ∈ r.slots.entries r.source, e.Inline := by
  intro e he st hst
  refine h.inline e.slot ?_ st hst
  rw [r.slots.entries_slot r.source]
  exact List.mem_map_of_mem he

/-- What a rebuild of inline entries leaves, when it is within the readers' limits. -/
theorem Rebuild.Flat.build {g : Geometry} {r : Rebuild} {pairs : List BlockPair} (h : r.Flat pairs)
    (hsized : r.Sized) {lo hi : ℕ} (hlim : (Event.rebuild r.source r.slots r.op lo hi).WithinLimits)
    {l : MetadataLog} (hl : r.build g lo hi = .ok l) : l.Flat pairs := by
  obtain ⟨l₀, hslots⟩ := h.slots
  refine ⟨Rebuild.build_flat hslots h.inline h.inlineOnly h.names hl fun link hlink hlive => ?_, ?_⟩
  · exact h.tail link (by simp [hlink, liveLink, Option.filter, hlive])
  · have hcarries := Rebuild.build_entries hslots h.names hsized hl
    exact hcarries.gathered (build_withinLimits (gatherLiveSlots_typed hslots) h.formed hlim hl)
      (Rebuild.room hslots h.names h.formed hlim hl)

/-- An append of an operation on inline entries names nothing new. -/
theorem buildAppend_flat {g : Geometry} {l l' : MetadataLog} {req : CommitRequest}
    {pairs : List BlockPair} (hl : ∀ t ∈ l.tags, t.Flat pairs) (hop : req.op.InlineOnly)
    (hname : req.op.WritesName) (htail : req.newTail = none) (h : buildAppend g l req = .ok l') :
    ∀ t ∈ l'.tags, t.Flat pairs := by
  obtain ⟨closing, hclosing, htags⟩ := buildAppend_tags h
  rw [htags]
  refine List.forall_mem_append.2 ⟨hl, List.forall_mem_append.2 ⟨?_, hclosing.flat pairs⟩⟩
  rw [appendTags, htail, Option.toList_none, List.map_nil, List.append_nil]
  refine List.forall_mem_append.2 ⟨List.forall_mem_append.2 ⟨flat_emitOp hop hname pairs, ?_⟩, ?_⟩
  · intro t ht
    obtain ⟨extra, -, rfl⟩ := List.mem_map.1 ht
    exact TagEntry.flat_of_type ⟨by rintro ⟨⟩, by rintro ⟨⟩, rfl⟩
  · intro t ht
    obtain ⟨extra, -, rfl⟩ := List.mem_map.1 ht
    exact TagEntry.flat_of_type ⟨by rintro ⟨⟩, by rintro ⟨⟩, rfl⟩

/-! ## The superblock -/

/-- The superblock that `from_pair` finds in a log is the one of the geometry. -/
def MetadataLog.Labelled (g : Geometry) (l : MetadataLog) : Prop :=
  Superblock.scanTags l.tags (false, none) = (true, some (formatSuperblock g))

/-- The entry that `format` puts first. -/
def superEntry (g : Geometry) : Entry :=
  ⟨some (.superblock, magic), some (.inlineStruct, (formatSuperblock g).toBody), fun _ => none⟩

theorem scanTags_append (ts us : List TagEntry) (found : Bool × Option Superblock) :
    Superblock.scanTags (ts ++ us) found = Superblock.scanTags us
      (Superblock.scanTags ts found) := by
  induction ts generalizing found with
  | nil => rfl
  | cons t ts ih =>
      obtain ⟨seen, decoded⟩ := found
      rw [List.cons_append, Superblock.scanTags, Superblock.scanTags]
      split_ifs <;> exact ih _

/-- Once found, a superblock only gives way to an inline struct at id 0. -/
theorem scanTags_keeps {ts : List TagEntry} (h : ∀ t ∈ ts, t.tagType = .inlineStruct → t.id ≠ 0)
    (sb : Superblock) : Superblock.scanTags ts (true, some sb) = (true, some sb) := by
  induction ts with
  | nil => rfl
  | cons t ts ih =>
      obtain ⟨ht, hts⟩ := List.forall_mem_cons.1 h
      have hother : ¬ (t.tagType = .inlineStruct ∧ t.id = 0 ∧ t.body.length = 24) := fun hat =>
        ht hat.1 hat.2.1
      rw [Superblock.scanTags, if_neg hother, ih hts]
      split_ifs <;> rfl

theorem MetadataLog.Labelled.append {g : Geometry} {l l' : MetadataLog} (h : l.Labelled g)
    {more : List TagEntry} (htags : l'.tags = l.tags ++ more)
    (hmore : ∀ t ∈ more, t.tagType = .inlineStruct → t.id ≠ 0) : l'.Labelled g := by
  rw [MetadataLog.Labelled, htags, scanTags_append, h, scanTags_keeps hmore]

theorem newEntryTags_id (op : WriteOp) (id : ℕ) : ∀ t ∈ op.newEntryTags id, t.id = id := by
  intro t ht
  cases op with
  | create | createCtz | createDir =>
      simp only [WriteOp.newEntryTags, WriteOp.attrTags, List.mem_cons, List.mem_map] at ht
      rcases ht with rfl | rfl | rfl | ⟨r, -, rfl⟩ <;> rfl
  | _ => cases ht

theorem emitOp_id (op : WriteOp) : ∀ t ∈ op.emitOp, op.target = some t.id := by
  intro t ht
  cases op with
  | create | createCtz | createDir =>
      simp only [WriteOp.emitOp] at ht
      rw [newEntryTags_id _ _ t ht]
      rfl
  | noop => cases ht
  | _ =>
      rw [List.mem_singleton.1 ht]
      rfl

theorem emitSlot_id {source : MetadataLog} {s : Slot} {plan : SlotPlan} {i emitId : ℕ}
    {tags : List TagEntry} (h : emitSlot source s plan i emitId = .ok tags) :
    ∀ t ∈ tags, t.id = emitId := by
  unfold emitSlot at h
  split at h
  · cases h
    intro t ht
    simp only [WriteOp.attrTags, List.nil_append, List.cons_append,
      List.append_assoc, List.mem_cons, List.mem_append, List.mem_map] at ht
    rcases ht with rfl | rfl | ⟨n, -, rfl⟩ | rfl | ⟨r, -, rfl⟩ | ⟨r, -, rfl⟩ <;> rfl
  · cases h

theorem emitSlots_id {source : MetadataLog} {op : WriteOp} {ss : List Slot} {i emitId last : ℕ}
    {tags : List TagEntry} (h : emitSlots source op ss i emitId = .ok (tags, last)) :
    emitId ≤ last ∧ ∀ t ∈ tags, emitId ≤ t.id := by
  induction ss generalizing i emitId tags with
  | nil =>
      cases h
      exact ⟨Nat.le_refl _, nofun⟩
  | cons s rest ih =>
      rcases emitSlots_cons_eq_ok h with h | ⟨ts, more, hts, hmore, rfl⟩
      · exact ih h
      · obtain ⟨hle, hids⟩ := ih hmore
        refine ⟨by omega, List.forall_mem_append.2 ⟨fun t ht => ?_, fun t ht => ?_⟩⟩
        · rw [emitSlot_id hts t ht]
        · exact Nat.le_of_succ_le (hids t ht)

theorem tailTag_not_inline (link : TailLink) : (tailTag link).tagType ≠ .inlineStruct := by
  rcases tailTag_type link with h | h <;> rw [h] <;> exact nofun

theorem Closing.not_inline {ts : List TagEntry} (h : Closing ts) :
    ∀ t ∈ ts, t.tagType ≠ .inlineStruct := by
  intro t ht
  rcases h.cases t ht with h | h <;> rw [h] <;> exact nofun

theorem stateTags_not_inline (r : Rebuild) : ∀ t ∈ r.stateTags, t.tagType ≠ .inlineStruct := by
  refine List.forall_mem_append.2 ⟨fun t ht => ?_, List.forall_mem_append.2 ⟨fun t ht => ?_,
    fun t ht => ?_⟩⟩
  · rw [show t.tagType = .moveState from totalTags_type t ht]
    exact nofun
  · rw [show t.tagType = .relocateState from totalTags_type t ht]
    exact nofun
  · obtain ⟨link, htags, -⟩ := rebuiltTailTags_eq r.tail
    rw [htags] at ht
    obtain ⟨link, -, rfl⟩ := List.mem_map.1 ht
    exact tailTag_not_inline link

/-- An append that is not addressed to the superblock leaves it. -/
theorem buildAppend_labelled {g : Geometry} {l l' : MetadataLog} {req : CommitRequest}
    (hl : l.Labelled g) (htarget : req.op.target ≠ some 0) (h : buildAppend g l req = .ok l') :
    l'.Labelled g := by
  obtain ⟨closing, hclosing, htags⟩ := buildAppend_tags h
  refine hl.append htags (List.forall_mem_append.2 ⟨?_, fun t ht htype =>
    absurd htype (hclosing.not_inline t ht)⟩)
  refine List.forall_mem_append.2 ⟨List.forall_mem_append.2 ⟨List.forall_mem_append.2
    ⟨fun t ht _ hid => ?_, ?_⟩, ?_⟩, fun t ht htype => ?_⟩
  · rw [emitOp_id _ t ht, hid] at htarget
    exact htarget rfl
  · intro t ht htype
    obtain ⟨extra, -, rfl⟩ := List.mem_map.1 ht
    cases htype
  · intro t ht htype
    obtain ⟨extra, -, rfl⟩ := List.mem_map.1 ht
    cases htype
  · obtain ⟨link, -, rfl⟩ := List.mem_map.1 ht
    exact absurd htype (tailTag_not_inline link)

theorem slotPlan_of_target {op : WriteOp} {i : ℕ} (h : op.target ≠ some i) :
    slotPlan op i = {} := by
  cases op with
  | create | createCtz | createDir | noop => rfl
  | _ => exact if_neg fun heq => h (congrArg some heq)

/-- A rebuild from the start that is not addressed to the superblock writes it again. -/
theorem Rebuild.build_labelled {g : Geometry} {r : Rebuild} {rest : List Slot}
    (hlive : r.slots.live = (superEntry g).slot :: rest)
    (hattrs : forEachLiveAttr r.source 0 = []) (htarget : r.op.target ≠ some 0) {hi : ℕ}
    (hhi : 0 < hi) {l : MetadataLog} (h : r.build g 0 hi = .ok l) : l.Labelled g := by
  obtain ⟨tags, closing, htags, hclosing, hl⟩ := build_tags h
  obtain ⟨hi, rfl⟩ : ∃ m, hi = m + 1 := ⟨hi - 1, by omega⟩
  unfold emitCompactRange at htags
  obtain ⟨⟨body, last⟩, hbody, htags⟩ := bind_eq_ok.1 htags
  cases htags
  rw [hlive, List.take_succ_cons, List.drop_zero, emitSlots, slotPlan_of_target htarget] at hbody
  obtain ⟨ts, hts, hbody⟩ := bind_eq_ok.1 hbody
  obtain ⟨⟨more, last'⟩, hmore, hbody⟩ := bind_eq_ok.1 hbody
  cases hbody
  obtain ⟨hle, hids⟩ := emitSlots_id hmore
  simp only [emitSlot, superEntry, Entry.slot, hattrs] at hts
  cases hts
  -- the first slot is the superblock's, the others have ids of their own
  have hfirst : ∀ us, Superblock.scanTags ([⟨.create, 0, .bytes []⟩, ⟨.superblock, 0, magic⟩,
      ⟨.inlineStruct, 0, (formatSuperblock g).toBody⟩] ++ us) (false, none) =
      Superblock.scanTags us (true, some (formatSuperblock g)) := fun us => rfl
  rw [MetadataLog.Labelled, hl]
  refine Eq.trans (congrArg (Superblock.scanTags · (false, none)) ?_)
    ((hfirst (more ++ ((if 0 ≤ r.slots.count ∧ r.slots.count < hi + 1 then r.op.newEntryTags last
      else []) ++ (r.stateTags ++ closing)))).trans (scanTags_keeps ?_ _))
  · simp [WriteOp.attrTags]
  · refine List.forall_mem_append.2 ⟨fun t ht _ => ?_, List.forall_mem_append.2
      ⟨fun t ht _ => ?_, List.forall_mem_append.2 ⟨fun t ht htype => ?_, fun t ht htype => ?_⟩⟩⟩
    · have := hids t ht
      omega
    · split_ifs at ht
      · rw [newEntryTags_id _ _ t ht]
        omega
      · cases ht
    · exact absurd htype (stateTags_not_inline r t ht)
    · exact absurd htype (hclosing.not_inline t ht)

/-! ## Inline entries stay inline -/

theorem Entry.Inline.withAttrs {e : Entry} (h : e.Inline) (attrs : StagedAttrs) :
    (e.withAttrs attrs).Inline := by
  unfold Entry.Inline
  rw [(Entry.withAttrs_frame attrs e).2]
  exact h

theorem WriteOp.inline_newEntry {op : WriteOp} (hop : op.InlineOnly) :
    ∀ e ∈ op.newEntry.toList, e.Inline := by
  cases op with
  | create id name content attrs =>
      simp only [newEntry, Option.toList_some, List.forall_mem_singleton]
      have hinline : Entry.Inline ⟨some (.regularFile, name), some (.inlineStruct, content),
          fun _ => none⟩ := by
        intro st hst
        cases hst
        rfl
      exact hinline.withAttrs attrs
  | createCtz | createDir => exact hop.elim
  | _ => simp [newEntry]

theorem WriteOp.inline_onEntry {op : WriteOp} (hop : op.InlineOnly) {e e' : Entry} {i : ℕ}
    (he : e.Inline) (h : op.onEntry i e = some e') : e'.Inline := by
  unfold WriteOp.onEntry at h
  split_ifs at h
  · cases op with
    | updateCtz | updateDirStruct | createCtz | createDir => exact hop.elim
    | update id content =>
        cases h
        rintro st ⟨⟩
        rfl
    | remove => cases h
    | _ =>
        cases h
        exact he
  · cases h
    exact he

theorem WriteOp.inline_part {op : WriteOp} (hop : op.InlineOnly) {entries : Entries}
    (hentries : ∀ e ∈ entries, e.Inline) (lo hi : ℕ) : ∀ e ∈ op.part entries lo hi, e.Inline := by
  refine List.forall_mem_append.2 ⟨fun e' he' => ?_, fun e he => ?_⟩
  · obtain ⟨⟨e, i⟩, hmem, he⟩ := List.mem_filterMap.1 he'
    have hzip := List.mem_of_mem_take (List.mem_of_mem_drop hmem)
    exact WriteOp.inline_onEntry hop (hentries e (List.fst_mem_of_mem_zipIdx hzip)) he
  · split_ifs at he
    · exact WriteOp.inline_newEntry hop e he
    · cases he

end LittlefsPure
