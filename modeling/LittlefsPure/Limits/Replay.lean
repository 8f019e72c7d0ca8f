import LittlefsPure.Disk.Splice

/-!
# Replaying a log within the readers' limits

The readers of a directory pair have two limits of their own: the slot array has
`MAX_LIVE_ENTRIES` slots, and `gather_live_slots` stores the offset and the length
of a NAME or STRUCT body in sixteen bits.  A log past either limit is rejected as
out of range.

Whether a replay runs into a limit does not depend on what the slots hold, only on
the number of live slots and on the offsets.  `WalkFits` is that condition, on a
tag list with the count and the offset it starts from, and `gatherSlotsFrom_fits`
says that it is enough.

## Why the offsets count the bytes in front

A slot keeps where the body of its STRUCT lies in the block, in sixteen bits.  The offset is the
sum of the tags in front of it, whatever they are; so attributes that no slot keeps push the bodies
behind them out of range.  `WalkFits` therefore runs over all tags, with the offset as it goes.
-/

namespace LittlefsPure

/-! ## The condition -/

/-- The body of the tag at offset `off` lies where a slot can record it. -/
def bodyFits (off : ℕ) (t : TagEntry) : Bool := fitsU16 (off + 4) && fitsU16 t.body.length

/-- A tag at offset `off`, met with `count` live slots, stays within the limits. -/
def TagFits (off count : ℕ) (t : TagEntry) : Prop :=
  match t.tagType with
  | .create => count < maxLiveEntries
  | .regularFile | .directory | .superblock => t.id < maxLiveEntries ∧ bodyFits off t
  | .inlineStruct | .ctzStruct | .dirStruct => t.id < maxLiveEntries → bodyFits off t
  | _ => True

/-- The tags stay within the limits, from an offset and a live count on.  Behind a tag
that the splice step rejects for another reason nothing is demanded. -/
def WalkFits : List TagEntry → ℕ → ℕ → Prop
  | [], _, _ => True
  | t :: ts, off, count =>
      TagFits off count t ∧ ∀ count', countStep t count = some count' →
        WalkFits ts (off + t.dsize) count'

theorem setName_ne_outOfRange {off : ℕ} {t : TagEntry} (h : bodyFits off t) (s : Slot) :
    Slot.setName (off + 4) t s ≠ .error .outOfRange := by
  have h' : (fitsU16 (off + 4) && fitsU16 t.body.length) = true := h
  rw [Slot.setName, if_pos h']
  exact nofun

theorem setStruct_ne_outOfRange {off : ℕ} {t : TagEntry} (h : bodyFits off t) (s : Slot) :
    Slot.setStruct (off + 4) t s ≠ .error .outOfRange := by
  have h' : (fitsU16 (off + 4) && fitsU16 t.body.length) = true := h
  rw [Slot.setStruct, if_pos h']
  exact nofun

theorem Roster.update_ne_outOfRange {α : Type} {r : Roster α} {id : ℕ} {f : α → Except Error α}
    (h : ∀ s, f s ≠ .error .outOfRange) : r.update id f ≠ .error .outOfRange := by
  unfold Roster.update
  split
  · next s _ =>
    cases hf : f s with
    | error e =>
        intro he
        cases he
        exact h s hf
    | ok s' => exact nofun
  · exact nofun

section Fits

variable {α : Type} {empty : α} {onName onStruct : ℕ → TagEntry → α → Except Error α}

/-- One tag within the limits is not rejected as out of range, whatever the slot
functions are, as long as they accept a body they can record. -/
theorem walkTag_fits
    (hname : ∀ off t s, bodyFits off t → onName (off + 4) t s ≠ .error .outOfRange)
    (hstruct : ∀ off t s, bodyFits off t → onStruct (off + 4) t s ≠ .error .outOfRange)
    {r : Roster α} {t : TagEntry} {off : ℕ} (h : TagFits off r.count t) :
    walkTag empty onName onStruct off t r ≠ .error .outOfRange := by
  obtain ⟨type, id, body⟩ := t
  cases type with
  | create =>
      have hlt : ¬ maxLiveEntries ≤ r.count := Nat.not_le_of_lt h
      simp only [walkTag, spliceStep, if_neg hlt]
      split_ifs <;> (intro he; cases he)
  | delete =>
      simp only [walkTag, spliceStep]
      split_ifs <;> (intro he; cases he)
  | regularFile | directory | superblock =>
      have hlt : ¬ maxLiveEntries ≤ id := Nat.not_le_of_lt h.1
      simp only [walkTag, spliceStep, if_neg hlt]
      exact Roster.update_ne_outOfRange fun s => hname off _ s h.2
  | inlineStruct | ctzStruct | dirStruct =>
      simp only [walkTag, spliceStep, bind, Except.bind, TagType.isStruct, Bool.true_and,
        decide_eq_true_eq]
      split_ifs with hid
      · exact Roster.update_ne_outOfRange fun s => hstruct off _ s (h hid)
      · intro he
        cases he
  | _ =>
      intro he
      cases he

/-- A replay within the limits is not rejected as out of range. -/
theorem walkTags_fits
    (hname : ∀ off t s, bodyFits off t → onName (off + 4) t s ≠ .error .outOfRange)
    (hstruct : ∀ off t s, bodyFits off t → onStruct (off + 4) t s ≠ .error .outOfRange)
    {ts : List TagEntry} {off : ℕ} {r : Roster α} (hr : r.Wf) (h : WalkFits ts off r.count) :
    walkTags empty onName onStruct ts off r ≠ .error .outOfRange := by
  induction ts generalizing off r with
  | nil => exact nofun
  | cons t ts ih =>
      rw [walkTags_cons]
      cases ht : walkTag empty onName onStruct off t r with
      | error e =>
          intro he
          cases he
          exact walkTag_fits hname hstruct h.1 ht
      | ok r' =>
          obtain ⟨hr', hcount⟩ := walkTag_eq_ok hr ht
          exact ih hr' (h.2 _ hcount)

end Fits

theorem gatherSlotsFrom_fits {ts : List TagEntry} {off : ℕ} {r : Roster Slot} (hr : r.Wf)
    (h : WalkFits ts off r.count) : gatherSlotsFrom ts off r ≠ .error .outOfRange :=
  walkTags_fits (fun _ _ s hb => setName_ne_outOfRange hb s)
    (fun _ _ s hb => setStruct_ne_outOfRange hb s) hr h

/-- A tag `gather_live_slots` accepts is within the limits. -/
theorem tagFits_of_walkTag {r r' : Roster Slot} {t : TagEntry} {off : ℕ}
    (h : walkTag Slot.empty Slot.setName Slot.setStruct off t r = .ok r') :
    TagFits off r.count t := by
  have hbody : ∀ {c : Prop} [Decidable c] {s s' : Slot},
      (if c then .ok s else .error .outOfRange : Except Error Slot) = .ok s' → c := by
    intro c _ s s' h
    by_contra hc
    rw [if_neg hc] at h
    cases h
  have hstep := walkTag_step h
  obtain ⟨type, id, body⟩ := t
  cases type with
  | create =>
      cases hstep with
      | create type room id_le => exact room
      | name | struct | delete => contradiction
      | other hc => contradiction
  | regularFile | directory | superblock =>
      cases hstep with
      | name type id_lt s s' slot value => exact ⟨id_lt, hbody value⟩
      | create | struct | delete => contradiction
      | other hc hd hn => cases hn
  | inlineStruct | ctzStruct | dirStruct =>
      intro hid
      cases hstep with
      | struct type id_lt s s' slot value => exact hbody value
      | create | name | delete => contradiction
      | other hc hd hn hs => exact absurd (hs rfl) (Nat.not_le_of_lt hid)
  | _ => exact True.intro

theorem WalkFits.left {ts us : List TagEntry} {off count : ℕ} (h : WalkFits (ts ++ us) off count) :
    WalkFits ts off count := by
  induction ts generalizing off count with
  | nil => exact True.intro
  | cons t ts ih => exact ⟨h.1, fun count' hcount' => ih (h.2 count' hcount')⟩

/-- More tags behind a log that `gather_live_slots` accepts: they start from the count
it arrived at. -/
theorem walkFits_append_of_gather {ts us : List TagEntry} {off : ℕ} {r r' : Roster Slot}
    (hr : r.Wf) (h : gatherSlotsFrom ts off r = .ok r')
    (hus : WalkFits us (off + tagsSize ts) r'.count) : WalkFits (ts ++ us) off r.count := by
  induction ts generalizing off r with
  | nil => cases h; exact hus
  | cons t ts ih =>
      change (walkTag Slot.empty Slot.setName Slot.setStruct off t r).bind
        (gatherSlotsFrom ts (off + t.dsize)) = .ok r' at h
      cases ht : walkTag Slot.empty Slot.setName Slot.setStruct off t r with
      | error e => rw [ht] at h; cases h
      | ok r₁ =>
          rw [ht] at h
          obtain ⟨hr₁, hcount⟩ := walkTag_eq_ok hr ht
          refine ⟨tagFits_of_walkTag ht, fun count' hcount' => ?_⟩
          rw [hcount] at hcount'
          cases hcount'
          refine ih hr₁ h ?_
          rwa [Nat.add_assoc, ← tagsSize_cons]

/-- A log `gather_live_slots` accepts is within the limits. -/
theorem walkFits_of_gather {ts : List TagEntry} {off : ℕ} {r r' : Roster Slot} (hr : r.Wf)
    (h : gatherSlotsFrom ts off r = .ok r') : WalkFits ts off r.count := by
  rw [← List.append_nil ts]
  exact walkFits_append_of_gather hr h True.intro

/-! ## Runs of tags -/

/-- The NAME and STRUCT bodies of a run of tags lie where a slot can record them, from
an offset on. -/
def bodiesFit : ℕ → List TagEntry → Bool
  | _, [] => true
  | off, t :: ts =>
      (!(t.tagType.isName || t.tagType.isStruct) || bodyFits off t) &&
        bodiesFit (off + t.dsize) ts

theorem bodiesFit_append (ts us : List TagEntry) (off : ℕ) :
    bodiesFit off (ts ++ us) = (bodiesFit off ts && bodiesFit (off + tagsSize ts) us) := by
  induction ts generalizing off with
  | nil => simp [bodiesFit]
  | cons t ts ih => simp [bodiesFit, ih, Bool.and_assoc, Nat.add_assoc]

/-- A tag that leaves the live count alone when it is at `count`. -/
structure TagEntry.Settled (count : ℕ) (t : TagEntry) : Prop where
  ne_create : t.tagType ≠ .create
  ne_delete : t.tagType ≠ .delete
  id_lt : t.tagType.isName = true → t.id < count

theorem TagEntry.Settled.mono {count count' : ℕ} {t : TagEntry} (h : t.Settled count)
    (hle : count ≤ count') : t.Settled count' :=
  ⟨h.ne_create, h.ne_delete, fun hn => Nat.lt_of_lt_of_le (h.id_lt hn) hle⟩

theorem countStep_settled {count : ℕ} {t : TagEntry} (h : t.Settled count) :
    countStep t count = some count := by
  obtain ⟨type, id, body⟩ := t
  obtain ⟨hc, hd, hid⟩ := h
  cases type with
  | create | delete => contradiction
  | regularFile | directory | superblock =>
      have hlt : id < count := hid rfl
      simp only [countStep, Nat.max_eq_left hlt]
  | _ => rfl

theorem tagFits_settled {off count : ℕ} {t : TagEntry} (h : t.Settled count)
    (hcount : count ≤ maxLiveEntries)
    (hfit : (!(t.tagType.isName || t.tagType.isStruct) || bodyFits off t) = true) :
    TagFits off count t := by
  obtain ⟨type, id, body⟩ := t
  obtain ⟨hc, hd, hid⟩ := h
  cases type with
  | create | delete => contradiction
  | regularFile | directory | superblock =>
      have hlt : id < count := hid rfl
      exact ⟨by simp only; omega, hfit⟩
  | inlineStruct | ctzStruct | dirStruct => exact fun _ => hfit
  | _ => exact True.intro

/-- A run of settled tags in front of a run that fits. -/
theorem walkFits_settled_append {ts us : List TagEntry} {off count : ℕ}
    (h : ∀ t ∈ ts, t.Settled count) (hcount : count ≤ maxLiveEntries)
    (hfit : bodiesFit off ts = true) (hus : WalkFits us (off + tagsSize ts) count) :
    WalkFits (ts ++ us) off count := by
  induction ts generalizing off with
  | nil => exact hus
  | cons t ts ih =>
      have ht := h t (List.mem_cons_self ..)
      rw [bodiesFit, Bool.and_eq_true] at hfit
      refine ⟨tagFits_settled ht hcount hfit.1, fun count' hcount' => ?_⟩
      rw [countStep_settled ht] at hcount'
      cases hcount'
      refine ih (fun u hu => h u (List.mem_cons_of_mem _ hu)) hfit.2 ?_
      rwa [Nat.add_assoc, ← tagsSize_cons]

theorem walkFits_settled {ts : List TagEntry} {off count : ℕ} (h : ∀ t ∈ ts, t.Settled count)
    (hcount : count ≤ maxLiveEntries) (hfit : bodiesFit off ts = true) :
    WalkFits ts off count := by
  rw [← List.append_nil ts]
  exact walkFits_settled_append h hcount hfit True.intro

/-- A tag the slot array does not see. -/
structure TagEntry.Neutral (t : TagEntry) : Prop where
  ne_create : t.tagType ≠ .create
  ne_delete : t.tagType ≠ .delete
  isName : t.tagType.isName = false
  isStruct : t.tagType.isStruct = false

theorem TagEntry.Neutral.settled {t : TagEntry} (h : t.Neutral) (count : ℕ) : t.Settled count :=
  ⟨h.ne_create, h.ne_delete, fun hn => by rw [h.isName] at hn; cases hn⟩

theorem bodiesFit_neutral {ts : List TagEntry} (h : ∀ t ∈ ts, t.Neutral) (off : ℕ) :
    bodiesFit off ts = true := by
  induction ts generalizing off with
  | nil => rfl
  | cons t ts ih =>
      have ht := h t (List.mem_cons_self ..)
      simp [bodiesFit, ht.isName, ht.isStruct, ih fun u hu => h u (List.mem_cons_of_mem _ hu)]

theorem walkFits_neutral {ts : List TagEntry} {off count : ℕ} (h : ∀ t ∈ ts, t.Neutral)
    (hcount : count ≤ maxLiveEntries) : WalkFits ts off count :=
  walkFits_settled (fun t ht => (h t ht).settled count) hcount (bodiesFit_neutral h off)

/-- The tags of one entry: a create, then tags settled at the new slot.  A create past
the live count is rejected for that. -/
theorem walkFits_entry_append {id off count : ℕ} {body : Body} {ts us : List TagEntry}
    (hcount : count < maxLiveEntries) (hts : ∀ t ∈ ts, t.Settled (id + 1))
    (hfit : bodiesFit off (⟨.create, id, body⟩ :: ts) = true)
    (hus : WalkFits us (off + tagsSize (⟨.create, id, body⟩ :: ts)) (count + 1)) :
    WalkFits (⟨.create, id, body⟩ :: ts ++ us) off count := by
  rw [bodiesFit, Bool.and_eq_true] at hfit
  refine ⟨hcount, fun count' hcount' => ?_⟩
  simp only [countStep] at hcount'
  split_ifs at hcount' with hid
  cases hcount'
  refine walkFits_settled_append (fun t ht => (hts t ht).mono (Nat.succ_le_succ hid)) hcount
    hfit.2 ?_
  rwa [Nat.add_assoc, ← tagsSize_cons]

/-! ## Replay through the splice step alone -/

/-- The tags run through `splice_step`, with nothing recorded in the slots. -/
def replay (tags : List TagEntry) : Except Error (Roster Unit) :=
  walkTags () (fun _ _ s => .ok s) (fun _ _ s => .ok s) tags 4 (Roster.new ())

/-- What the readers of a pair demand of its log. -/
structure MetadataLog.WithinLimits (l : MetadataLog) : Prop where
  /-- No prefix of the log opens more slots than the slot array has. -/
  replay : ∀ ts us, l.tags = ts ++ us →
    LittlefsPure.replay ts ≠ .error .outOfRange ∧
      ∀ r, LittlefsPure.replay ts = .ok r → r.count ≤ maxLiveEntries
  /-- No body lies past what a slot records. -/
  gather : gatherLiveSlots l ≠ .error .outOfRange

theorem MetadataLog.withinLimits_of_walkFits {l : MetadataLog} (h : WalkFits l.tags 4 0) :
    l.WithinLimits where
  replay ts us hl := by
    rw [hl] at h
    have hfits : WalkFits ts 4 (Roster.new ()).count := h.left
    refine ⟨walkTags_fits ?_ ?_ (Roster.new_wf ()) hfits, fun r hr => ?_⟩
    · exact fun _ _ _ _ => nofun
    · exact fun _ _ _ _ => nofun
    · exact (walkTags_wf (Roster.new_wf ()) hr).count
  gather := gatherSlotsFrom_fits (Roster.new_wf Slot.empty) h

end LittlefsPure
