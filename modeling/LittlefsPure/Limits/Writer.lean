import LittlefsPure.Limits.Replay
import LittlefsPure.Runs.Operations

/-!
# What the writer puts on a block

An append writes the tags of its operation behind the committed log, a rebuild
writes the surviving entries from the start of an erased block.  Neither asks how
many slots the log opens or where its bodies lie.  `Event.WithinLimits` is the test
that is missing, on what an append or a rebuild finds; a commit that passes it
leaves a log within the readers' limits.

## The test before a rebuild

`RebuildFits` counts without emitting anything.  Each entry in the range is kept unless
the operation drops it; the bytes up to its STRUCT body are those of a CREATE tag, of its
NAME, of the new name that a rename puts behind it, and of a tag word; behind the body come
its attributes.  `emitSlots_fits` says that these are the sizes of the tags that are emitted,
so a rebuild that passes has its bodies within sixteen bits, and `emitSlots_count` that it
opens no more slots than there are entries to keep.
-/

namespace LittlefsPure

/-! ## The missing test -/

/-- The number of slots a run of tags opens. -/
def createCount (tags : List TagEntry) : ℕ := tags.countP fun t => t.tagType == .create

@[simp] theorem createCount_append (ts us : List TagEntry) :
    createCount (ts ++ us) = createCount ts + createCount us := List.countP_append

theorem createCount_eq_zero {ts : List TagEntry} (h : ∀ t ∈ ts, t.tagType ≠ .create) :
    createCount ts = 0 :=
  List.countP_eq_zero.2 fun t ht => by simpa using h t ht

theorem createCount_create_cons (id : ℕ) (body : Body) (ts : List TagEntry) :
    createCount (⟨.create, id, body⟩ :: ts) = createCount ts + 1 := by
  simp [createCount]

/-- The bytes of an optional body. -/
def fieldLength (field : Option (TagType × Body)) : ℕ := (field.map fun f => f.2.length).getD 0

namespace Slot

/-- From the first tag of an entry that a rebuild keeps to the body of its STRUCT tag: the
CREATE tag, the NAME, a new name, and the word of the STRUCT tag. -/
def keptHead (s : Slot) (plan : SlotPlan) : ℕ :=
  4 + (4 + fieldLength s.name) + (plan.extraName.map fun n => 4 + n.2.length).getD 0 + 4

/-- The STRUCT body that it keeps or is given. -/
def keptStruct (s : Slot) (plan : SlotPlan) : ℕ := fieldLength (plan.structOverride.or s.struct)

/-- All its tags, with the attributes that it has in the log `source`. -/
def keptSize (source : MetadataLog) (s : Slot) (plan : SlotPlan) (i : ℕ) : ℕ :=
  s.keptHead plan + s.keptStruct plan +
    (StagedAttrs.dsize ((forEachLiveAttr source i).filter fun r => plan.attrSuppress != some r.1) +
      StagedAttrs.dsize plan.attrAppend.toList)

end Slot

section Rebuilds

variable (source : MetadataLog) (op : WriteOp)

/-- The bytes of the entries that a rebuild keeps, the first of them with index `i`. -/
def keptBytes : List Slot → ℕ → ℕ
  | [], _ => 0
  | s :: rest, i =>
      (if (slotPlan op i).dropEntry then 0 else s.keptSize source (slotPlan op i) i) +
        keptBytes rest (i + 1)

/-- Their NAME and STRUCT bodies begin at offsets of sixteen bits, when the first of their
tags stands at `off`, and are no longer than that. -/
def KeptFit : List Slot → ℕ → ℕ → Prop
  | [], _, _ => True
  | s :: rest, i, off =>
      if (slotPlan op i).dropEntry then KeptFit rest (i + 1) off
      else (off + s.keptHead (slotPlan op i) ≤ 0xFFFF ∧ s.keptStruct (slotPlan op i) ≤ 0xFFFF) ∧
        KeptFit rest (i + 1) (off + s.keptSize source (slotPlan op i) i)

instance decidableKeptFit : (ss : List Slot) → (i off : ℕ) → Decidable (KeptFit source op ss i off)
  | [], _, _ => isTrue True.intro
  | s :: rest, i, off =>
      have := decidableKeptFit rest (i + 1) off
      have := decidableKeptFit rest (i + 1) (off + s.keptSize source (slotPlan op i) i)
      inferInstanceAs (Decidable (if (slotPlan op i).dropEntry then
        KeptFit source op rest (i + 1) off else _ ∧ KeptFit source op rest (i + 1) _))

/-- The new entry of the operation falls into the range of a rebuild. -/
abbrev NewInRange (slots : Roster Slot) (lo hi : ℕ) : Prop := lo ≤ slots.count ∧ slots.count < hi

/-- What a rebuild of the entries with an index in `[lo, hi)` finds: there are slots for them and
for a new one, and the bodies lie where slots can record them. -/
structure RebuildFits (slots : Roster Slot) (lo hi : ℕ) : Prop where
  entries : ((slots.live.take hi).drop lo).length +
    (if NewInRange slots lo hi ∧ op.opAddsEntry = true then 1 else 0) ≤ maxLiveEntries
  kept : KeptFit source op ((slots.live.take hi).drop lo) lo 4
  added : NewInRange slots lo hi →
    bodiesFit (4 + keptBytes source op ((slots.live.take hi).drop lo) lo) (op.newEntryTags 0) = true

instance (slots : Roster Slot) (lo hi : ℕ) : Decidable (RebuildFits source op slots lo hi) :=
  decidable_of_iff (_ ∧ _ ∧ _) ⟨fun h => ⟨h.1, h.2.1, h.2.2⟩, fun h => ⟨h.1, h.2, h.3⟩⟩

end Rebuilds

/-- An append finds room for a new entry's slot, and writes bodies where slots can
record them; a rebuild fits the slot array and the sixteen bit offsets. -/
def Event.WithinLimits : Event → Prop
  | .append l slots op =>
      (op.opAddsEntry = true → slots.count < maxLiveEntries) ∧
        bodiesFit (4 + tagsSize l.tags) op.emitOp = true
  | .rebuild source slots op lo hi => RebuildFits source op slots lo hi
  | _ => True

instance : DecidablePred Event.WithinLimits
  | .append l slots op => inferInstanceAs (Decidable
      ((op.opAddsEntry = true → slots.count < maxLiveEntries) ∧
        bodiesFit (4 + tagsSize l.tags) op.emitOp = true))
  | .rebuild source slots op lo hi =>
    inferInstanceAs (Decidable (RebuildFits source op slots lo hi))
  | .alloc .. | .erase .. | .program .. | .programBytes .. | .commit .. | .resume .. =>
      isTrue True.intro

/-! ## Operations -/

/-- A NAME tag at an id below a live count is settled there. -/
theorem settled_name {type : TagType} (h : type.isName = true) {id count : ℕ} (hid : id < count)
    (body : Body) : TagEntry.Settled count ⟨type, id, body⟩ where
  ne_create hc := by cases hc; cases h
  ne_delete hd := by cases hd; cases h
  id_lt _ := hid

theorem settled_struct {type : TagType} (h : type.isStruct = true) (id count : ℕ) (body : Body) :
    TagEntry.Settled count ⟨type, id, body⟩ where
  ne_create := (TagType.isName_of_isStruct h).1
  ne_delete := (TagType.isName_of_isStruct h).2.1
  id_lt hn := by rw [(TagType.isName_of_isStruct h).2.2] at hn; cases hn

theorem neutral_attr (a id : ℕ) (body : Body) : TagEntry.Neutral ⟨.userAttr a, id, body⟩ :=
  ⟨nofun, nofun, rfl, rfl⟩

theorem attrTags_neutral {id : ℕ} {attrs : StagedAttrs} :
    ∀ t ∈ WriteOp.attrTags id attrs, t.Neutral := by
  intro t ht
  obtain ⟨r, -, rfl⟩ := List.mem_map.1 ht
  exact neutral_attr r.1 id r.2

/-- An operation that adds an entry opens one slot and fills it. -/
theorem newEntryTags_cases (op : WriteOp) (id : ℕ) :
    (op.opAddsEntry = false ∧ op.newEntryTags id = []) ∨ op.opAddsEntry = true ∧
      ∃ ts, op.newEntryTags id = ⟨.create, id, .bytes []⟩ :: ts ∧
        ∀ t ∈ ts, t.Settled (id + 1) := by
  have hlt : id < id + 1 := Nat.lt_succ_self id
  cases op with
  | create _ name content attrs =>
      refine .inr ⟨rfl, _, rfl, fun t ht => ?_⟩
      rcases ht with _ | ⟨_, _ | ⟨_, ht⟩⟩
      · exact settled_name rfl hlt name
      · exact settled_struct rfl id _ content
      · exact (attrTags_neutral t ht).settled _
  | createCtz _ name head size attrs =>
      refine .inr ⟨rfl, _, rfl, fun t ht => ?_⟩
      rcases ht with _ | ⟨_, _ | ⟨_, ht⟩⟩
      · exact settled_name rfl hlt name
      · exact settled_struct rfl id _ _
      · exact (attrTags_neutral t ht).settled _
  | createDir _ name dirPair attrs =>
      refine .inr ⟨rfl, _, rfl, fun t ht => ?_⟩
      rcases ht with _ | ⟨_, _ | ⟨_, ht⟩⟩
      · exact settled_name rfl hlt name
      · exact settled_struct rfl id _ _
      · exact (attrTags_neutral t ht).settled _
  | _ => exact .inl ⟨rfl, rfl⟩

theorem walkFits_newEntryTags_append {op : WriteOp} {id : ℕ} {us : List TagEntry} {off count : ℕ}
    (hus : ∀ t ∈ us, t.Neutral) (hcount : count ≤ maxLiveEntries)
    (hroom : op.opAddsEntry = true → count < maxLiveEntries)
    (hfit : bodiesFit off (op.newEntryTags id) = true) :
    WalkFits (op.newEntryTags id ++ us) off count := by
  rcases newEntryTags_cases op id with ⟨-, hnil⟩ | ⟨hadds, ts, hcons, hts⟩
  · rw [hnil]
    exact walkFits_neutral hus hcount
  · rw [hcons] at hfit ⊢
    exact walkFits_entry_append (hroom hadds) hts hfit (walkFits_neutral hus (hroom hadds))

/-- A lone tag in front of neutral ones. -/
theorem walkFits_cons_neutral {t : TagEntry} {us : List TagEntry} {off count : ℕ}
    (hus : ∀ t ∈ us, t.Neutral) (ht : TagFits off count t)
    (hstep : ∀ count', countStep t count = some count' → count' ≤ maxLiveEntries) :
    WalkFits ([t] ++ us) off count :=
  ⟨ht, fun count' hcount' => walkFits_neutral hus (hstep count' hcount')⟩

/-- The tags an operation appends, in front of neutral ones. -/
theorem walkFits_emitOp_append {op : WriteOp} (hop : op.WellFormed) {us : List TagEntry}
    (hus : ∀ t ∈ us, t.Neutral) {off count : ℕ} (hcount : count ≤ maxLiveEntries)
    (hroom : op.opAddsEntry = true → count < maxLiveEntries)
    (hfit : bodiesFit off op.emitOp = true) : WalkFits (op.emitOp ++ us) off count := by
  have hsingle : ∀ {t : TagEntry}, t.Settled count → bodiesFit off [t] = true →
      WalkFits ([t] ++ us) off count := by
    intro t ht hfit
    refine walkFits_settled_append (fun u hu => ?_) hcount hfit (walkFits_neutral hus hcount)
    rw [List.mem_singleton.1 hu]
    exact ht
  cases op with
  | create | createCtz | createDir => exact walkFits_newEntryTags_append hus hcount hroom hfit
  | update id content => exact hsingle (settled_struct rfl _ _ _) hfit
  | updateCtz id head size => exact hsingle (settled_struct rfl _ _ _) hfit
  | updateDirStruct id newPair => exact hsingle (settled_struct rfl _ _ _) hfit
  | setAttr id attrId value => exact hsingle ((neutral_attr ..).settled _) hfit
  | removeAttr id attrId => exact hsingle ((neutral_attr ..).settled _) hfit
  | noop => exact walkFits_neutral hus hcount
  | remove id =>
      refine walkFits_cons_neutral hus True.intro fun count' hcount' => ?_
      simp only [countStep] at hcount'
      split_ifs at hcount'
      cases hcount'
      omega
  | renameInPlace id nameType newName =>
      obtain ⟨hid, hname⟩ := hop
      have hbody : bodyFits off ⟨nameType, id, newName⟩ = true := by
        simpa [WriteOp.emitOp, bodiesFit, hname] using hfit
      refine walkFits_cons_neutral hus ?_ fun count' hcount' => ?_
      · cases nameType with
        | regularFile | directory | superblock => exact ⟨hid, hbody⟩
        | _ => cases hname
      · rw [countStep_name hname] at hcount'
        cases hcount'
        exact Nat.max_le.2 ⟨hcount, hid⟩

/-! ## Rebuilds -/

/-- The tags a surviving entry contributes open one slot and fill it. -/
theorem emitSlot_eq_ok {source : MetadataLog} {s : Slot} (hs : s.Typed) {op : WriteOp}
    (hop : op.WellFormed) {i emitId : ℕ} {tags : List TagEntry}
    (h : emitSlot source s (slotPlan op i) i emitId = .ok tags) :
    ∃ ts, tags = ⟨.create, emitId, .bytes []⟩ :: ts ∧ ∀ t ∈ ts, t.Settled (emitId + 1) := by
  obtain ⟨hextra, hover⟩ := slotPlan_types op (by rintro _ _ _ rfl; exact hop.2) i
  have hlt : emitId < emitId + 1 := Nat.lt_succ_self emitId
  unfold emitSlot at h
  split at h
  · next nameType name structType structBody hname hstruct =>
    cases h
    refine ⟨_, rfl, fun t ht => ?_⟩
    simp only [List.append_eq, List.nil_append, List.cons_append, List.append_assoc,
      List.mem_cons, List.mem_append, List.mem_map, Option.mem_toList] at ht
    rcases ht with rfl | ⟨n, hn, rfl⟩ | rfl | ht | ht
    · exact settled_name (hs.name _ hname) hlt _
    · exact settled_name (hextra n hn) hlt _
    · refine settled_struct ?_ _ _ _
      cases ho : (slotPlan op i).structOverride with
      | none => exact hs.struct _ hstruct
      | some b => exact hover b ho
    · exact (attrTags_neutral t ht).settled _
    · exact (attrTags_neutral t ht).settled _
  · cases h

/-- The first slot of a rebuild is dropped, or contributes its tags. -/
theorem emitSlots_cons_eq_ok {source : MetadataLog} {op : WriteOp} {s : Slot} {rest : List Slot}
    {i emitId last : ℕ} {tags : List TagEntry}
    (h : emitSlots source op (s :: rest) i emitId = .ok (tags, last)) :
    emitSlots source op rest (i + 1) emitId = .ok (tags, last) ∨
      ∃ ts more, emitSlot source s (slotPlan op i) i emitId = .ok ts ∧
        emitSlots source op rest (i + 1) (emitId + 1) = .ok (more, last) ∧ tags = ts ++ more := by
  rw [emitSlots] at h
  split_ifs at h with hdrop
  · exact .inl h
  · obtain ⟨ts, hts, h⟩ := Logic.bind_eq_ok.1 h
    obtain ⟨⟨more, last'⟩, hmore, h⟩ := Logic.bind_eq_ok.1 h
    cases h
    exact .inr ⟨ts, more, hts, hmore, rfl⟩

/-- A rebuild opens one slot for each entry it writes. -/
theorem emitSlots_last {source : MetadataLog} {op : WriteOp} (hop : op.WellFormed)
    {ss : List Slot} (hss : ∀ s ∈ ss, s.Typed) {i emitId last : ℕ} {tags : List TagEntry}
    (h : emitSlots source op ss i emitId = .ok (tags, last)) :
    last = emitId + createCount tags := by
  induction ss generalizing i emitId tags with
  | nil =>
      cases h
      rfl
  | cons s rest ih =>
      have hrest : ∀ s ∈ rest, s.Typed := fun s hs => hss s (List.mem_cons_of_mem _ hs)
      rcases emitSlots_cons_eq_ok h with h | ⟨ts, more, hts, hmore, rfl⟩
      · exact ih hrest h
      · obtain ⟨us, rfl, hus⟩ := emitSlot_eq_ok (hss s (List.mem_cons_self ..)) hop hts
        have hzero : createCount us = 0 := createCount_eq_zero fun t ht => (hus t ht).ne_create
        rw [ih hrest hmore, createCount_append, createCount_create_cons, hzero]
        omega

/-- No more slots than entries that it could keep. -/
theorem emitSlots_count {source : MetadataLog} {op : WriteOp} (hop : op.WellFormed)
    {ss : List Slot} (hss : ∀ s ∈ ss, s.Typed) {i emitId last : ℕ} {tags : List TagEntry}
    (h : emitSlots source op ss i emitId = .ok (tags, last)) : createCount tags ≤ ss.length := by
  induction ss generalizing i emitId tags with
  | nil =>
      cases h
      exact Nat.le_refl _
  | cons s rest ih =>
      have hrest : ∀ s ∈ rest, s.Typed := fun s hs => hss s (List.mem_cons_of_mem _ hs)
      rw [List.length_cons]
      rcases emitSlots_cons_eq_ok h with h | ⟨ts, more, hts, hmore, rfl⟩
      · exact (ih hrest h).trans (Nat.le_succ _)
      · obtain ⟨us, rfl, hus⟩ := emitSlot_eq_ok (hss s (List.mem_cons_self ..)) hop hts
        have hzero : createCount us = 0 := createCount_eq_zero fun t ht => (hus t ht).ne_create
        have hmoreCount := ih hrest hmore
        rw [createCount_append, createCount_create_cons, hzero]
        omega

/-- The surviving entries of a rebuild, in front of tags that fit behind them. -/
theorem walkFits_emitSlots_append {source : MetadataLog} {op : WriteOp} (hop : op.WellFormed)
    {ss : List Slot} (hss : ∀ s ∈ ss, s.Typed) {i emitId last off : ℕ} {tags us : List TagEntry}
    (h : emitSlots source op ss i emitId = .ok (tags, last)) (hroom : last ≤ maxLiveEntries)
    (hfit : bodiesFit off tags = true) (hus : WalkFits us (off + tagsSize tags) last) :
    WalkFits (tags ++ us) off emitId := by
  induction ss generalizing i emitId tags off with
  | nil =>
      cases h
      exact hus
  | cons s rest ih =>
      have hrest : ∀ s ∈ rest, s.Typed := fun s hs => hss s (List.mem_cons_of_mem _ hs)
      rcases emitSlots_cons_eq_ok h with h | ⟨ts, more, hts, hmore, rfl⟩
      · exact ih hrest h hfit hus
      · obtain ⟨es, rfl, hes⟩ := emitSlot_eq_ok (hss s (List.mem_cons_self ..)) hop hts
        rw [bodiesFit_append, Bool.and_eq_true] at hfit
        have hlast := emitSlots_last hop hrest hmore
        rw [List.append_assoc]
        refine walkFits_entry_append (by omega) hes hfit.1 (ih hrest hmore hfit.2 ?_)
        rwa [Nat.add_assoc, ← tagsSize_append]

/-! ## What the test says of the emitted tags -/

/-- Attributes are not recorded in slots. -/
theorem bodiesFit_attrTags (id : ℕ) (attrs : StagedAttrs) (off : ℕ) :
    bodiesFit off (WriteOp.attrTags id attrs) = true := by
  induction attrs generalizing off with
  | nil => rfl
  | cons r rest ih =>
      rw [WriteOp.attrTags, List.map_cons, bodiesFit, Bool.and_eq_true]
      exact ⟨rfl, ih _⟩

/-- The id of a new entry has no part in where its bodies lie. -/
theorem bodiesFit_newEntryTags (op : WriteOp) (id id' off : ℕ) :
    bodiesFit off (op.newEntryTags id) = bodiesFit off (op.newEntryTags id') := by
  have hattrs : ∀ attrs off, bodiesFit off (WriteOp.attrTags id attrs) =
      bodiesFit off (WriteOp.attrTags id' attrs) := fun attrs off => by
    rw [bodiesFit_attrTags, bodiesFit_attrTags]
  cases op with
  | create | createCtz | createDir => simp [WriteOp.newEntryTags, bodiesFit, bodyFits,
      TagEntry.dsize, hattrs]
  | _ => rfl

/-- The tags of one kept entry. -/
theorem emitSlot_fits {source : MetadataLog} {s : Slot} {plan : SlotPlan} {i emitId : ℕ}
    {tags : List TagEntry} (off : ℕ) (h : emitSlot source s plan i emitId = .ok tags) :
    tagsSize tags = s.keptSize source plan i ∧
      (off + s.keptHead plan ≤ 0xFFFF ∧ s.keptStruct plan ≤ 0xFFFF →
        bodiesFit off tags = true) := by
  unfold emitSlot at h
  split at h
  · next nameType name structType structBody hname hstruct =>
    have hkept : plan.structOverride.or s.struct =
        some (plan.structOverride.getD (structType, structBody)) := by
      rw [hstruct]
      cases plan.structOverride <;> rfl
    have hempty : (Body.bytes []).length = 0 := rfl
    generalize plan.structOverride.getD (structType, structBody) = st at h hkept
    obtain ⟨st, sb⟩ := st
    cases h
    have hextra : tagsSize (plan.extraName.toList.map fun n => ⟨n.1, emitId, n.2⟩) =
        (plan.extraName.map fun n => 4 + n.2.length).getD 0 := by
      cases plan.extraName <;> rfl
    simp only [Slot.keptSize, Slot.keptHead, Slot.keptStruct, fieldLength, hname, hkept,
      Option.map_some, Option.getD_some]
    constructor
    · simp only [tagsSize_append, tagsSize_attrTags, hextra]
      simp [tagsSize, TagEntry.dsize, hempty]
      omega
    · rintro ⟨hoff, hlen⟩
      have hnew : bodiesFit (off + 4 + (4 + name.length))
          (plan.extraName.toList.map fun n => ⟨n.1, emitId, n.2⟩) = true := by
        cases hn : plan.extraName with
        | none => rfl
        | some n =>
            rw [hn] at hoff
            simp only [Option.map_some, Option.getD_some] at hoff
            simp [bodiesFit, bodyFits, fitsU16]
            omega
      simp only [bodiesFit_append, bodiesFit_attrTags, Bool.and_true, tagsSize_append, hextra,
        Bool.and_eq_true]
      refine ⟨⟨?_, ?_⟩, ?_⟩
      · simp [bodiesFit, bodyFits, fitsU16, TagEntry.dsize, hempty]
        omega
      · simpa [tagsSize, TagEntry.dsize, hempty, Nat.add_assoc] using hnew
      · simp [bodiesFit, bodyFits, fitsU16, tagsSize, TagEntry.dsize, hempty]
        omega
  · cases h

/-- The tags of the kept entries. -/
theorem emitSlots_fits {source : MetadataLog} {op : WriteOp} {ss : List Slot}
    {i emitId last : ℕ} {tags : List TagEntry} (off : ℕ)
    (h : emitSlots source op ss i emitId = .ok (tags, last)) :
    tagsSize tags = keptBytes source op ss i ∧
      (KeptFit source op ss i off → bodiesFit off tags = true) := by
  induction ss generalizing i emitId off tags with
  | nil =>
      cases h
      exact ⟨rfl, fun _ => rfl⟩
  | cons s rest ih =>
      rw [emitSlots] at h
      rw [keptBytes, KeptFit]
      split_ifs at h ⊢ with hdrop
      · rw [Nat.zero_add]
        exact ih off h
      · obtain ⟨ts, hts, h⟩ := Logic.bind_eq_ok.1 h
        obtain ⟨⟨more, last'⟩, hmore, h⟩ := Logic.bind_eq_ok.1 h
        cases h
        obtain ⟨hsize, hfits⟩ := emitSlot_fits off hts
        obtain ⟨hsizes, hrest⟩ := ih (off + tagsSize ts) hmore
        refine ⟨by rw [tagsSize_append, hsize, hsizes], ?_⟩
        rintro ⟨hhere, hmoreFit⟩
        rw [bodiesFit_append, hfits hhere, Bool.true_and]
        exact hrest (hsize ▸ hmoreFit)

/-- The tags of a rebuild that passes the test: a slot for each entry, and bodies that slots
can record. -/
theorem RebuildFits.emitted {source : MetadataLog} {slots : Roster Slot} {op : WriteOp}
    (hop : op.WellFormed) (hslots : ∀ s ∈ slots.slots, s.Typed) {lo hi : ℕ}
    (hfits : RebuildFits source op slots lo hi) {tags : List TagEntry}
    (h : emitCompactRange source slots op lo hi = .ok tags) :
    createCount tags ≤ maxLiveEntries ∧ bodiesFit 4 tags = true := by
  obtain ⟨hentries, hkept, hadded⟩ := hfits
  unfold emitCompactRange at h
  obtain ⟨⟨entries, last⟩, hemit, h⟩ := Logic.bind_eq_ok.1 h
  have htyped : ∀ s ∈ (slots.live.take hi).drop lo, s.Typed := fun s hs =>
    hslots s (List.mem_of_mem_take (List.mem_of_mem_take (List.mem_of_mem_drop hs)))
  have hcount := emitSlots_count hop htyped hemit
  obtain ⟨hsize, hfit⟩ := emitSlots_fits 4 hemit
  cases h
  rw [createCount_append, bodiesFit_append, hfit hkept, Bool.true_and, hsize]
  split_ifs with hrange
  · rw [bodiesFit_newEntryTags op last 0]
    refine ⟨?_, hadded hrange⟩
    rcases newEntryTags_cases op last with ⟨hno, hnil⟩ | ⟨hadds, ts, hcons, hts⟩
    · rw [hnil]
      exact Nat.le_trans hcount (Nat.le_of_add_right_le hentries)
    · rw [if_pos ⟨hrange, hadds⟩] at hentries
      rw [hcons, createCount_create_cons,
        createCount_eq_zero fun t ht => (hts t ht).ne_create]
      omega
  · exact ⟨Nat.le_trans hcount (Nat.le_of_add_right_le hentries), rfl⟩

/-- The entries of a rebuild that passes the missing test, in front of neutral tags. -/
theorem walkFits_emitCompactRange_append {source : MetadataLog} {slots : Roster Slot}
    {op : WriteOp} (hop : op.WellFormed) (hslots : ∀ s ∈ slots.slots, s.Typed) {lo hi : ℕ}
    {tags us : List TagEntry} (h : emitCompactRange source slots op lo hi = .ok tags)
    (hroom : createCount tags ≤ maxLiveEntries) (hfit : bodiesFit 4 tags = true)
    (hus : ∀ t ∈ us, t.Neutral) : WalkFits (tags ++ us) 4 0 := by
  unfold emitCompactRange at h
  obtain ⟨⟨entries, last⟩, hentries, h⟩ := Logic.bind_eq_ok.1 h
  have htyped : ∀ s ∈ (slots.live.take hi).drop lo, s.Typed := fun s hs =>
    hslots s (List.mem_of_mem_take (List.mem_of_mem_take (List.mem_of_mem_drop hs)))
  have hlast := emitSlots_last hop htyped hentries
  cases h
  rw [createCount_append] at hroom
  rw [bodiesFit_append, Bool.and_eq_true] at hfit
  rw [List.append_assoc]
  refine walkFits_emitSlots_append hop htyped hentries (by omega) hfit.1 ?_
  split_ifs at hroom hfit ⊢
  · refine walkFits_newEntryTags_append hus (by omega) (fun hadds => ?_) hfit.2
    rcases newEntryTags_cases op last with ⟨hno, -⟩ | ⟨-, ts, hcons, -⟩
    · rw [hno] at hadds
      cases hadds
    · rw [hcons, createCount_create_cons] at hroom
      omega
  · exact walkFits_neutral hus (by omega)

/-! ## Commits -/

theorem closing_neutral (g : Geometry) (fcrc : Bool) (n : ℕ) :
    ∀ t ∈ (if fcrc then [Commit.fcrcTag g] else []) ++ [⟨.commitCrc 0, idNone, .checksum n⟩],
      t.Neutral := by
  intro t ht
  rcases List.mem_append.1 ht with ht | ht
  · split_ifs at ht
    · rw [List.mem_singleton.1 ht]
      exact ⟨nofun, nofun, rfl, rfl⟩
    · cases ht
  · rw [List.mem_singleton.1 ht]
    exact ⟨nofun, nofun, rfl, rfl⟩

theorem tailTag_neutral (link : TailLink) : (tailTag link).Neutral := by
  obtain ⟨p, hard⟩ := link
  cases hard <;> exact ⟨nofun, nofun, rfl, rfl⟩

/-- A commit that passes the missing test and is appended leaves a log within the
limits. -/
theorem buildAppend_withinLimits {g : Geometry} {l l' : MetadataLog} {slots : Roster Slot}
    {r : CommitRequest} (hslots : gatherLiveSlots l = .ok slots) (hop : r.op.WellFormed)
    (hlim : (Event.append l slots r.op).WithinLimits) (h : buildAppend g l r = .ok l') :
    l'.WithinLimits := by
  obtain ⟨c, fcrc, hc, rfl⟩ := buildAppend_eq_ok h
  obtain ⟨n, hn⟩ := Commit.finishPadded_eq_ok hc
  refine MetadataLog.withinLimits_of_walkFits ?_
  simp only [hn, appendTags, List.append_assoc]
  have hwf := walkTags_wf (Roster.new_wf Slot.empty) hslots
  refine walkFits_append_of_gather (Roster.new_wf Slot.empty) hslots
    (walkFits_emitOp_append hop ?_ hwf.count hlim.1 hlim.2)
  intro t ht
  simp only [List.mem_append, List.mem_map, Option.mem_toList] at ht
  rcases ht with ⟨x, -, rfl⟩ | ⟨x, -, rfl⟩ | ⟨x, -, rfl⟩ | ht
  · exact ⟨nofun, nofun, rfl, rfl⟩
  · exact ⟨nofun, nofun, rfl, rfl⟩
  · exact tailTag_neutral x
  · exact closing_neutral g fcrc n t (List.mem_append.2 ht)

theorem moveStateTags_neutral {body : Option MoveBody} :
    ∀ t ∈ moveStateTags body, t.Neutral := by
  intro t ht
  unfold moveStateTags at ht
  split at ht
  · split_ifs at ht
    · cases ht
    · rw [List.mem_singleton.1 ht]
      exact ⟨nofun, nofun, rfl, rfl⟩
  · cases ht

theorem relocateStateTags_neutral {body : Option RelocateBody} :
    ∀ t ∈ relocateStateTags body, t.Neutral := by
  intro t ht
  unfold relocateStateTags at ht
  split at ht
  · split_ifs at ht
    · cases ht
    · rw [List.mem_singleton.1 ht]
      exact ⟨nofun, nofun, rfl, rfl⟩
  · cases ht

theorem rebuiltTailTags_neutral {tail : Option TailLink} :
    ∀ t ∈ rebuiltTailTags tail, t.Neutral := by
  intro t ht
  unfold rebuiltTailTags at ht
  split at ht
  · split_ifs at ht
    · cases ht
    · rw [List.mem_singleton.1 ht]
      exact tailTag_neutral _
  · cases ht

/-- A rebuild that passes the missing test leaves a log within the limits. -/
theorem build_withinLimits {g : Geometry} {r : Rebuild} {lo hi : ℕ} {l : MetadataLog}
    (hslots : ∀ s ∈ r.slots.slots, s.Typed) (hop : r.op.WellFormed)
    (hlim : (Event.rebuild r.source r.slots r.op lo hi).WithinLimits)
    (h : r.build g lo hi = .ok l) : l.WithinLimits := by
  obtain ⟨entries, _, c, fcrc, hentries, rfl, hc, rfl⟩ := Rebuild.build_eq_ok h
  obtain ⟨n, hn⟩ := Commit.finishPadded_eq_ok hc
  obtain ⟨hroom, hfit⟩ := RebuildFits.emitted hop hslots hlim hentries
  refine MetadataLog.withinLimits_of_walkFits ?_
  simp only [hn, List.append_assoc]
  refine walkFits_emitCompactRange_append hop hslots hentries hroom hfit fun t ht => ?_
  simp only [List.mem_append] at ht
  rcases ht with ht | ht | ht | ht
  · exact moveStateTags_neutral t ht
  · exact relocateStateTags_neutral t ht
  · exact rebuiltTailTags_neutral t ht
  · exact closing_neutral g fcrc n t (List.mem_append.2 ht)

end LittlefsPure
