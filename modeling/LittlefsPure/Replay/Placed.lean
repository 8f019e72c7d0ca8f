import LittlefsPure.Fs.Commit
import LittlefsPure.Replay.Rebuild

/-!
# The logs of the commit engine

A commit is put on its pair in one of two ways: `buildAppend` writes tags behind the
log, `Rebuild.build` writes the log anew.  The tags of both are in their place, and
the readers of the state and of the tail find in them what was written last.

## What is in its place

A tag that concerns an entry names one that is open when the tag is played.  `Along` carries such a
condition through a list of tags together with the number of open entries, so that it can be
checked for the tags of each operation by themselves and put together when they follow one another.
-/

namespace LittlefsPure

open Entries Logic

/-! ## Tags in their place -/

/-- A STRUCT or attribute tag names an entry that is open. -/
structure Placed (n : ℕ) (t : TagEntry) : Prop where
  struct : StructPlaced n t
  attr : AttrPlaced n t

theorem Along.mono {P Q : ℕ → TagEntry → Prop} (h : ∀ n t, P n t → Q n t) {ts : List TagEntry}
    {n : ℕ} (hts : Along P ts n) : Along Q ts n := by
  induction ts generalizing n with
  | nil => exact True.intro
  | cons t ts ih => exact ⟨h _ _ hts.1, fun n' hn' => ih (hts.2 n' hn')⟩

/-- A tag that is about an entry. -/
def TagType.concernsEntry : TagType → Bool
  | .regularFile | .directory | .superblock | .dirStruct | .inlineStruct | .ctzStruct |
    .userAttr _ | .create | .delete => true
  | _ => false

theorem applyTag_inert {t : TagEntry} (h : t.tagType.concernsEntry = false) (entries : Entries) :
    entries.applyTag t = .ok entries := by
  obtain ⟨type, id, body⟩ := t
  cases type <;> first | rfl | cases h

theorem play_inert {ts : List TagEntry} (h : ∀ t ∈ ts, t.tagType.concernsEntry = false)
    (entries : Entries) : play ts entries = .ok entries := by
  induction ts with
  | nil => rfl
  | cons t ts ih =>
      rw [play_cons, applyTag_inert (h t (List.mem_cons_self ..))]
      exact ih fun u hu => h u (List.mem_cons_of_mem _ hu)

theorem countStep_inert {t : TagEntry} (h : t.tagType.concernsEntry = false) (n : ℕ) :
    countStep t n = some n := by
  obtain ⟨type, id, body⟩ := t
  cases type <;> first | rfl | cases h

theorem placed_inert {t : TagEntry} (h : t.tagType.concernsEntry = false) (n : ℕ) : Placed n t := by
  obtain ⟨type, id, body⟩ := t
  refine ⟨fun hs => ?_, fun a ha => ?_⟩
  · cases type <;> first | (cases h; done) | cases hs
  · simp only at ha
    subst ha
    cases h

theorem along_inert {ts : List TagEntry} (h : ∀ t ∈ ts, t.tagType.concernsEntry = false) (n : ℕ) :
    Along Placed ts n := by
  induction ts with
  | nil => exact True.intro
  | cons t ts ih =>
      have ht := h t (List.mem_cons_self ..)
      refine ⟨placed_inert ht n, fun n' hn' => ?_⟩
      rw [countStep_inert ht] at hn'
      cases hn'
      exact ih fun u hu => h u (List.mem_cons_of_mem _ hu)

theorem TagEntry.Fills.placed {n : ℕ} {t : TagEntry} (h : t.Fills n) : Placed (n + 1) t :=
  ⟨fun _ => h.id ▸ Nat.lt_succ_self _, fun _ _ => h.id ▸ Nat.lt_succ_self _⟩

theorem TagEntry.Fills.countStep {n : ℕ} {t : TagEntry} (h : t.Fills n) :
    LittlefsPure.countStep t (n + 1) = some (n + 1) := by
  obtain ⟨type, id, body⟩ := t
  obtain ⟨rfl, hkind⟩ := h
  rcases hkind with hname | hstruct | ⟨a, rfl⟩
  · rw [countStep_name hname, Nat.max_self]
  · obtain ⟨hc, hd, hn⟩ := TagType.isName_of_isStruct hstruct
    exact countStep_other hc hd hn _
  · rfl

theorem TagEntry.Fills.concernsEntry {n : ℕ} {t : TagEntry} (h : t.Fills n) :
    t.tagType.concernsEntry = true := by
  obtain ⟨type, id, body⟩ := t
  obtain ⟨-, hname | hstruct | ⟨a, rfl⟩⟩ := h
  · cases type <;> first | rfl | cases hname
  · cases type <;> first | rfl | cases hstruct
  · rfl

namespace Opens

variable {n : ℕ} {ts us : List TagEntry} {entries : Entries}

/-- New entries are in their place, in front of tags that are. -/
theorem along (h : Opens n ts entries) (hus : Along Placed us (n + entries.length)) :
    Along Placed (ts ++ us) n := by
  induction h with
  | nil n => exact hus
  | @cons n fs ts entries fills rest ih =>
      have hrest : Along Placed (ts ++ us) (n + 1) := by
        refine ih ?_
        rw [List.length_cons] at hus
        rwa [show n + 1 + entries.length = n + (entries.length + 1) by omega]
      have hfills : Along Placed (fs ++ (ts ++ us)) (n + 1) := by
        clear ih rest hus
        induction fs with
        | nil => exact hrest
        | cons t fs ih =>
            have ht := fills t (List.mem_cons_self ..)
            refine ⟨ht.placed, fun n' hn' => ?_⟩
            rw [ht.countStep] at hn'
            cases hn'
            exact ih fun u hu => fills u (List.mem_cons_of_mem _ hu)
      rw [List.append_assoc, List.cons_append]
      refine ⟨⟨nofun, nofun⟩, fun n' hn' => ?_⟩
      simp only [countStep, if_pos (Nat.le_refl n)] at hn'
      cases hn'
      exact hfills

theorem concernsEntry (h : Opens n ts entries) : ∀ t ∈ ts, t.tagType.concernsEntry = true := by
  induction h with
  | nil n => exact nofun
  | cons fills rest ih =>
      intro t ht
      rcases List.mem_append.1 ht with ht | ht
      · rcases List.mem_cons.1 ht with rfl | ht
        · rfl
        · exact (fills t ht).concernsEntry
      · exact ih t ht

end Opens

/-- The tags of an operation are in their place. -/
theorem emitOp_along {op : WriteOp} {n : ℕ} (hop : op.Addresses n) {us : List TagEntry}
    (hus : ∀ t ∈ us, t.tagType.concernsEntry = false) : Along Placed (op.emitOp ++ us) n := by
  have hone : ∀ {t : TagEntry}, op.emitOp = [t] → t.id < n → Along Placed (op.emitOp ++ us) n := by
    intro t ht hid
    rw [ht]
    exact ⟨⟨fun _ => hid, fun _ _ => hid⟩, fun n' _ => along_inert hus n'⟩
  cases op with
  | create id name content attrs =>
      obtain rfl : id = n := hop id rfl
      exact (WriteOp.newEntryTags_opens (.create id name content attrs) id).along
        (along_inert hus _)
  | createCtz id name head size attrs =>
      obtain rfl : id = n := hop id rfl
      exact (WriteOp.newEntryTags_opens (.createCtz id name head size attrs) id).along
        (along_inert hus _)
  | createDir id name dirPair attrs =>
      obtain rfl : id = n := hop id rfl
      exact (WriteOp.newEntryTags_opens (.createDir id name dirPair attrs) id).along
        (along_inert hus _)
  | noop => exact along_inert hus n
  | update id | updateCtz id | updateDirStruct id | remove id =>
      have hid : id < n := hop id rfl
      exact hone rfl hid
  | renameInPlace id | setAttr id | removeAttr id =>
      have hid : id < n := hop id rfl
      exact hone rfl hid

theorem emitOp_concernsEntry {op : WriteOp} (hname : op.WritesName) :
    ∀ t ∈ op.emitOp, t.tagType.concernsEntry = true := by
  cases op with
  | create id name content attrs =>
      exact (WriteOp.newEntryTags_opens (.create id name content attrs) id).concernsEntry
  | createCtz id name head size attrs =>
      exact (WriteOp.newEntryTags_opens (.createCtz id name head size attrs) id).concernsEntry
  | createDir id name dirPair attrs =>
      exact (WriteOp.newEntryTags_opens (.createDir id name dirPair attrs) id).concernsEntry
  | noop => exact nofun
  | renameInPlace id nameType newName =>
      intro t ht
      rw [List.mem_singleton.1 ht]
      exact (fills_name hname id newName).concernsEntry
  | _ =>
      intro t ht
      rw [List.mem_singleton.1 ht]
      rfl

/-! ## The built logs -/

/-- The tags that close a commit. -/
def Closing (ts : List TagEntry) : Prop :=
  ∃ (g : Geometry) (fcrc : Bool) (n : ℕ), ts = (if fcrc then [Commit.fcrcTag g] else []) ++
    [⟨.commitCrc 0, idNone, .checksum n⟩]

theorem buildAppend_tags {g : Geometry} {l l' : MetadataLog} {r : CommitRequest}
    (h : buildAppend g l r = .ok l') :
    ∃ closing, Closing closing ∧ l'.tags = l.tags ++ (appendTags l r ++ closing) := by
  obtain ⟨c, fcrc, hc, rfl⟩ := buildAppend_eq_ok h
  obtain ⟨n, hn⟩ := Commit.finishPadded_eq_ok hc
  exact ⟨_, ⟨g, fcrc, n, rfl⟩, by rw [hn]⟩

/-- The state and tail tags of a rebuild. -/
def Rebuild.stateTags (r : Rebuild) : List TagEntry :=
  moveStateTags r.moveState ++ (relocateStateTags r.relocateState ++ rebuiltTailTags r.tail)

theorem build_tags {g : Geometry} {r : Rebuild} {lo hi : ℕ} {l : MetadataLog}
    (h : r.build g lo hi = .ok l) :
    ∃ tags closing, emitCompactRange r.source r.slots r.op lo hi = .ok tags ∧ Closing closing ∧
      l.tags = tags ++ (r.stateTags ++ closing) := by
  obtain ⟨tags, _, c, fcrc, htags, rfl, hc, rfl⟩ := Rebuild.build_eq_ok h
  obtain ⟨n, hn⟩ := Commit.finishPadded_eq_ok hc
  refine ⟨tags, _, htags, ⟨g, fcrc, n, rfl⟩, ?_⟩
  simp only [hn, Rebuild.stateTags, List.append_assoc]

/-! ### The state of a pair -/

theorem Closing.cases {ts : List TagEntry} (h : Closing ts) :
    ∀ t ∈ ts, t.tagType = .forwardCrc ∨ t.tagType = .commitCrc 0 := by
  obtain ⟨g, fcrc, n, rfl⟩ := h
  intro t ht
  rcases List.mem_append.1 ht with ht | ht
  · split_ifs at ht
    · rw [List.mem_singleton.1 ht]
      exact .inl rfl
    · cases ht
  · rw [List.mem_singleton.1 ht]
    exact .inr rfl

theorem Closing.inert {ts : List TagEntry} (h : Closing ts) :
    ∀ t ∈ ts, t.tagType.concernsEntry = false := by
  intro t ht
  rcases h.cases t ht with h | h
  · rw [h]
    rfl
  · rw [h]
    rfl

theorem tailTag_type (link : TailLink) :
    (tailTag link).tagType = .softTail ∨ (tailTag link).tagType = .hardTail := by
  obtain ⟨p, hard⟩ := link
  cases hard
  · exact .inl rfl
  · exact .inr rfl

/-- The latest state tag of a run behind a log, or the log's own. -/
theorem latestState_append {l l' : MetadataLog} {type : TagType} {words : ℕ}
    {ts : List TagEntry} (h : l'.tags = l.tags ++ ts) (hts : ∀ t ∈ ts, t.tagType ≠ type) :
    latestState l' type words = latestState l type words := by
  have hnone : ts.reverse.find? (fun t => t.tagType == type && t.body.length == 4 * words) =
      none := by
    rw [List.find?_eq_none]
    intro t ht
    have hne := hts t (List.mem_reverse.1 ht)
    simp [hne]
  rw [latestState, latestState, h, List.reverse_append, List.find?_append, hnone, Option.none_or]

/-- A state tag with nothing of its type behind it is the latest one. -/
theorem latestState_of_tag {l : MetadataLog} {type : TagType} {words : ℕ} {ts us : List TagEntry}
    {id : ℕ} {body : List ℕ} (h : l.tags = ts ++ (⟨type, id, .words body⟩ :: us))
    (hus : ∀ t ∈ us, t.tagType ≠ type) (hbody : body.length = words) :
    latestState l type words = body := by
  have hnone : us.reverse.find? (fun t => t.tagType == type && t.body.length == 4 * words) =
      none := by
    rw [List.find?_eq_none]
    intro t ht
    have hne := hus t (List.mem_reverse.1 ht)
    simp [hne]
  have hwords : (List.range words).map (Body.words body).word = body := by
    subst hbody
    apply List.ext_getElem
    · simp
    · intro i h₁ h₂
      simp [Body.word, h₂]
  rw [latestState, h, List.reverse_append, List.reverse_cons, List.find?_append,
    List.find?_append, hnone, Option.none_or]
  simp [Body.length, hbody, hwords]

theorem latestState_of_none {l : MetadataLog} {type : TagType} {words : ℕ}
    (h : ∀ t ∈ l.tags, t.tagType ≠ type) : latestState l type words = List.replicate words 0 := by
  have hnone : l.tags.reverse.find? (fun t => t.tagType == type && t.body.length == 4 * words) =
      none := by
    rw [List.find?_eq_none]
    intro t ht
    have hne := h t (List.mem_reverse.1 ht)
    simp [hne]
  rw [latestState, hnone]

theorem length_latestState (l : MetadataLog) (type : TagType) (words : ℕ) :
    (latestState l type words).length = words := by
  unfold latestState
  split <;> simp

/-- The tail of a run behind a log, or the log's own. -/
theorem scanForTail_append (ts us : List TagEntry) :
    MetadataLog.scanForTail (ts ++ us) =
      (MetadataLog.scanForTail us).or (MetadataLog.scanForTail ts) := by
  induction ts with
  | nil => simp [MetadataLog.scanForTail]
  | cons t ts ih =>
      rw [List.cons_append, MetadataLog.scanForTail, MetadataLog.scanForTail, ih]
      cases MetadataLog.scanForTail us with
      | none => rfl
      | some later => rfl

theorem scanForTail_of_not_tail {ts : List TagEntry} (h : ∀ t ∈ ts, t.tagType.isTail = false) :
    MetadataLog.scanForTail ts = none := by
  induction ts with
  | nil => rfl
  | cons t ts ih =>
      rw [MetadataLog.scanForTail, ih fun u hu => h u (List.mem_cons_of_mem _ hu)]
      simp [h t (List.mem_cons_self ..)]

theorem scanForTail_tailTag (link : TailLink) :
    MetadataLog.scanForTail [tailTag link] = some link := by
  obtain ⟨p, hard⟩ := link
  cases hard <;> rfl

theorem isTail_of_concernsEntry {t : TagEntry} (h : t.tagType.concernsEntry = true) :
    t.tagType.isTail = false := by
  obtain ⟨type, id, body⟩ := t
  cases type <;> first | rfl | cases h

end LittlefsPure
