import LittlefsPure.Disk.Splice
import Mathlib.Data.List.InsertIdx

/-!
# The entries a log describes

The readers of a pair keep slots, and each keeps in them what it needs.  What they
all read is the sequence of entries that the tags of the log describe when they are
played in order: a `Create` opens an entry at its id, a `Delete` takes one away, and
a NAME, a STRUCT or an attribute changes the entry at its id.  `Entries.play` is
that sequence, with the whole attribute map of each entry in it.

A slot walk that accepts a log ends with the slots of these entries, whatever it
keeps of them, provided that the STRUCT tags of the log name entries that are open,
since the slot array is then empty behind the live slots.  This is `walkTags_play`;
the readers instantiate it.
-/

namespace LittlefsPure

/-! ## Entries -/

/-- A live entry: its NAME and STRUCT, and its attributes. -/
structure Entry where
  name : Option (TagType × Body)
  struct : Option (TagType × Body)
  attrs : ℕ → Option Body

/-- The value an attribute tag gives its attribute; a deletion marker takes it away. -/
def Body.value : Body → Option Body
  | .removed => none
  | body => some body

theorem Body.value_of_ne {b : Body} (h : b ≠ .removed) : b.value = some b := by
  cases b with
  | removed => exact absurd rfl h
  | _ => rfl

namespace Entry

/-- An entry that has just been opened. -/
def empty : Entry := ⟨none, none, fun _ => none⟩

/-- A NAME tag arrives. -/
def setName (t : TagEntry) (e : Entry) : Entry := { e with name := some (t.tagType, t.body) }

/-- A STRUCT tag arrives. -/
def setStruct (t : TagEntry) (e : Entry) : Entry := { e with struct := some (t.tagType, t.body) }

/-- A tag of attribute `a` arrives. -/
def setAttr (a : ℕ) (body : Body) (e : Entry) : Entry :=
  { e with attrs := fun x => if x = a then body.value else e.attrs x }

end Entry

/-- The live entries of a pair in id order. -/
abbrev Entries := List Entry

namespace Entries

/-- Open entries up to an id, as a NAME tag past the end does. -/
def pad (id : ℕ) (entries : Entries) : Entries :=
  entries ++ List.replicate (id + 1 - entries.length) Entry.empty

theorem pad_of_lt {id : ℕ} {entries : Entries} (h : id < entries.length) :
    entries.pad id = entries := by
  rw [pad, Nat.sub_eq_zero_of_le h, List.replicate_zero, List.append_nil]

/-- What one tag does to the entries. -/
def applyTag (t : TagEntry) (entries : Entries) : Except Error Entries :=
  match t.tagType with
  | .create =>
      if maxLiveEntries ≤ entries.length then .error .outOfRange
      else if entries.length < t.id then .error .corrupt
      else .ok (entries.insertIdx t.id Entry.empty)
  | .delete =>
      if entries.length ≤ t.id then .error .corrupt
      else .ok (entries.eraseIdx t.id)
  | .regularFile | .directory | .superblock =>
      if maxLiveEntries ≤ t.id then .error .outOfRange
      else .ok ((entries.pad t.id).modify t.id (Entry.setName t))
  | .dirStruct | .inlineStruct | .ctzStruct => .ok (entries.modify t.id (Entry.setStruct t))
  | .userAttr a => .ok (entries.modify t.id (Entry.setAttr a t.body))
  | _ => .ok entries

theorem applyTag_name {t : TagEntry} (h : t.tagType.isName = true) (entries : Entries) :
    entries.applyTag t = if maxLiveEntries ≤ t.id then .error .outOfRange
      else .ok ((entries.pad t.id).modify t.id (Entry.setName t)) := by
  obtain ⟨type, id, body⟩ := t
  cases type <;> first | rfl | cases h

theorem applyTag_struct {t : TagEntry} (h : t.tagType.isStruct = true) (entries : Entries) :
    entries.applyTag t = .ok (entries.modify t.id (Entry.setStruct t)) := by
  obtain ⟨type, id, body⟩ := t
  cases type <;> first | rfl | cases h

/-- The entries behind a run of tags. -/
def play : List TagEntry → Entries → Except Error Entries
  | [], entries => .ok entries
  | t :: ts, entries => (applyTag t entries).bind (play ts)

@[simp] theorem play_nil (entries : Entries) : play [] entries = .ok entries := rfl

theorem play_cons (t : TagEntry) (ts : List TagEntry) (entries : Entries) :
    play (t :: ts) entries = (applyTag t entries).bind (play ts) := rfl

theorem play_append (ts us : List TagEntry) (entries : Entries) :
    play (ts ++ us) entries = (play ts entries).bind (play us) := by
  induction ts generalizing entries with
  | nil => rfl
  | cons t ts ih =>
      rw [List.cons_append, play_cons, play_cons]
      cases applyTag t entries with
      | error e => rfl
      | ok entries' => exact ih entries'

theorem play_singleton (t : TagEntry) (entries : Entries) :
    play [t] entries = applyTag t entries := by
  rw [play_cons]
  cases applyTag t entries <;> rfl

end Entries

/-! ## Tags in their place -/

/-- A condition on each tag with the number of entries it is met with. -/
def Along (P : ℕ → TagEntry → Prop) : List TagEntry → ℕ → Prop
  | [], _ => True
  | t :: ts, n => P n t ∧ ∀ n', countStep t n = some n' → Along P ts n'

/-- A STRUCT tag names an entry that is open. -/
def StructPlaced (n : ℕ) (t : TagEntry) : Prop := t.tagType.isStruct = true → t.id < n

/-- An attribute tag names an entry that is open. -/
def AttrPlaced (n : ℕ) (t : TagEntry) : Prop := ∀ a, t.tagType = .userAttr a → t.id < n

/-- How many entries a tag leaves. -/
theorem Entries.length_applyTag {t : TagEntry} {entries entries' : Entries}
    (h : entries.applyTag t = .ok entries') : countStep t entries.length =
      some entries'.length := by
  obtain ⟨type, id, body⟩ := t
  cases type with
  | create =>
      simp only [applyTag] at h
      split_ifs at h with hroom hid
      cases h
      have hle : id ≤ entries.length := Nat.le_of_not_lt hid
      simp only [countStep, if_pos hle, List.length_insertIdx]
  | delete =>
      simp only [applyTag] at h
      split_ifs at h with hid
      cases h
      have hlt : id < entries.length := Nat.lt_of_not_le hid
      simp only [countStep, if_pos hlt, List.length_eraseIdx]
  | regularFile | directory | superblock =>
      simp only [applyTag] at h
      split_ifs at h
      cases h
      simp only [countStep, pad, List.length_modify, List.length_append, List.length_replicate]
      congr 1
      omega
  | dirStruct | inlineStruct | ctzStruct | userAttr =>
      simp only [applyTag] at h
      cases h
      simp only [countStep, List.length_modify]
  | _ =>
      cases h
      rfl

theorem Along.left {P : ℕ → TagEntry → Prop} {ts us : List TagEntry} {n : ℕ}
    (h : Along P (ts ++ us) n) : Along P ts n := by
  induction ts generalizing n with
  | nil => exact True.intro
  | cons t ts ih => exact ⟨h.1, fun n' hn' => ih (h.2 n' hn')⟩

/-- The condition on a run in two parts, the second met behind the entries of the first. -/
theorem along_append {P : ℕ → TagEntry → Prop} {ts us : List TagEntry} {entries entries' : Entries}
    (h : entries.play ts = .ok entries') :
    Along P (ts ++ us) entries.length ↔
      Along P ts entries.length ∧ Along P us entries'.length := by
  induction ts generalizing entries with
  | nil =>
      cases h
      exact ⟨fun hus => ⟨True.intro, hus⟩, fun hus => hus.2⟩
  | cons t ts ih =>
      rw [Entries.play_cons] at h
      cases ht : entries.applyTag t with
      | error e =>
          rw [ht] at h
          cases h
      | ok entries₁ =>
          rw [ht] at h
          have hcount := Entries.length_applyTag ht
          have hrest := ih h
          constructor
          · rintro ⟨hP, hstep⟩
            obtain ⟨hts, hus⟩ := hrest.1 (hstep _ hcount)
            refine ⟨⟨hP, fun n' hn' => ?_⟩, hus⟩
            rw [hcount] at hn'
            cases hn'
            exact hts
          · rintro ⟨⟨hP, hstep⟩, hus⟩
            refine ⟨hP, fun n' hn' => ?_⟩
            rw [hcount] at hn'
            cases hn'
            exact hrest.2 ⟨hstep _ hcount, hus⟩

/-! ## The slot walks -/

section Walk

variable {α : Type} {empty : α} {onName onStruct : ℕ → TagEntry → α → Except Error α}
  {proj : Entry → α}

/-- The slot functions keep a projection of the entries. -/
structure Reads (proj : Entry → α) (empty : α)
    (onName onStruct : ℕ → TagEntry → α → Except Error α) : Prop where
  empty : proj Entry.empty = empty
  name : ∀ off t e s, onName off t (proj e) = .ok s → s = proj (e.setName t)
  struct : ∀ off t e s, onStruct off t (proj e) = .ok s → s = proj (e.setStruct t)
  attr : ∀ a body e, proj (Entry.setAttr a body e) = proj e

/-- The slot array of a walker agrees with the entries, and is empty behind them. -/
structure Roster.Shows (r : Roster α) (proj : Entry → α) (empty : α) (entries : Entries) :
    Prop where
  wf : r.Wf
  count : r.count = entries.length
  slots : ∀ k < maxLiveEntries, r.slots[k]? = some ((entries[k]?.map proj).getD empty)

namespace Roster.Shows

variable {r : Roster α} {entries : Entries}

theorem length_le (h : r.Shows proj empty entries) : entries.length ≤ maxLiveEntries :=
  h.count ▸ h.wf.count

theorem live (h : r.Shows proj empty entries) : r.live = entries.map proj := by
  have hle := h.length_le
  apply List.ext_getElem?
  intro k
  rw [Roster.live, List.getElem?_take, h.count, List.getElem?_map]
  by_cases hk : k < entries.length
  · rw [if_pos hk, h.slots k (by omega), List.getElem?_eq_getElem hk]
    rfl
  · rw [if_neg hk, List.getElem?_eq_none (Nat.le_of_not_lt hk)]
    rfl

theorem create (h : r.Shows proj empty entries) (hempty : proj Entry.empty = empty) {i k : ℕ}
    (hi : i ≤ r.count) (hroom : r.count < maxLiveEntries) (hk : k < maxLiveEntries) :
    ((r.slots.eraseIdx r.count).insertIdx i empty)[k]? =
      some (((entries.insertIdx i Entry.empty)[k]?.map proj).getD empty) := by
  have hcount := h.count
  have hlen : (r.slots.eraseIdx r.count).length = maxLiveEntries - 1 := by
    rw [List.length_eraseIdx, h.wf.length, if_pos hroom]
  rcases lt_trichotomy k i with hlt | rfl | hgt
  · rw [List.getElem?_insertIdx_of_lt hlt, List.getElem?_insertIdx_of_lt hlt,
      List.getElem?_eraseIdx_of_lt (by omega), h.slots k hk]
  · rw [List.getElem?_insertIdx_self, List.getElem?_insertIdx_self, hlen, if_pos (by omega),
      if_pos (by omega), Option.map_some, Option.getD_some, hempty]
  · rw [List.getElem?_insertIdx_of_gt hgt, List.getElem?_insertIdx_of_gt hgt]
    by_cases hlast : k - 1 < r.count
    · rw [List.getElem?_eraseIdx_of_lt hlast, h.slots _ (by omega)]
    · have hnone : ∀ j, entries.length ≤ j → entries[j]? = none := fun j => List.getElem?_eq_none
      rw [List.getElem?_eraseIdx_of_ge (by omega), Nat.sub_add_cancel (by omega), h.slots k hk,
        hnone k (by omega), hnone (k - 1) (by omega)]

theorem delete (h : r.Shows proj empty entries) {i k : ℕ} (hi : i < r.count)
    (hk : k < maxLiveEntries) :
    ((r.slots.eraseIdx i).insertIdx (r.count - 1) empty)[k]? =
      some (((entries.eraseIdx i)[k]?.map proj).getD empty) := by
  have hcount := h.count
  have hwf := h.wf.count
  have hlen : (r.slots.eraseIdx i).length = maxLiveEntries - 1 := by
    rw [List.length_eraseIdx, h.wf.length, if_pos (by omega)]
  have hnone : ∀ j, entries.length ≤ j → entries[j]? = none := fun j => List.getElem?_eq_none
  rcases lt_trichotomy k (r.count - 1) with hlt | rfl | hgt
  · rw [List.getElem?_insertIdx_of_lt hlt]
    by_cases hki : k < i
    · rw [List.getElem?_eraseIdx_of_lt hki, List.getElem?_eraseIdx_of_lt hki, h.slots k hk]
    · rw [List.getElem?_eraseIdx_of_ge (by omega), List.getElem?_eraseIdx_of_ge (by omega),
        h.slots (k + 1) (by omega)]
  · rw [List.getElem?_insertIdx_self, hlen, if_pos (by omega),
      List.getElem?_eraseIdx_of_ge (by omega), hnone _ (by omega)]
    rfl
  · rw [List.getElem?_insertIdx_of_gt hgt, List.getElem?_eraseIdx_of_ge (by omega),
      List.getElem?_eraseIdx_of_ge (by omega), Nat.sub_add_cancel (by omega), h.slots k hk,
      hnone k (by omega), hnone (k + 1) (by omega)]

/-- The slot at an id, whether its entry is open or about to be opened. -/
theorem slot (h : r.Shows proj empty entries) (hempty : proj Entry.empty = empty) {i : ℕ}
    (hi : i < maxLiveEntries) {s : α} (hs : r.slots[i]? = some s) :
    s = proj ((entries[i]?).getD Entry.empty) := by
  rw [h.slots i hi] at hs
  cases hs
  cases entries[i]? with
  | none => exact hempty.symm
  | some e => rfl

theorem set (h : r.Shows proj empty entries) (hempty : proj Entry.empty = empty) {i k : ℕ}
    {f : Entry → Entry} {s' : α} (hs' : s' = proj (f ((entries[i]?).getD Entry.empty)))
    (hk : k < maxLiveEntries) :
    (r.slots.set i s')[k]? = some ((((entries.pad i).modify i f)[k]?.map proj).getD empty) := by
  have hpad : ∀ j : ℕ, ((entries.pad i)[j]?.map proj).getD empty =
      (entries[j]?.map proj).getD empty := by
    intro j
    rw [Entries.pad, List.getElem?_append, List.getElem?_replicate]
    by_cases hj : j < entries.length
    · rw [if_pos hj]
    · rw [if_neg hj, List.getElem?_eq_none (Nat.le_of_not_lt hj)]
      split_ifs
      · exact hempty
      · rfl
  rw [List.getElem?_set, List.getElem?_modify, h.wf.length]
  by_cases hik : i = k
  · subst hik
    rw [if_pos rfl, if_pos hk, hs']
    have hlt : i < (entries.pad i).length := by
      rw [Entries.pad, List.length_append, List.length_replicate]
      omega
    have hget : (entries.pad i)[i]? = some ((entries[i]?).getD Entry.empty) := by
      rw [Entries.pad, List.getElem?_append, List.getElem?_replicate]
      by_cases hi : i < entries.length
      · rw [if_pos hi, List.getElem?_eq_getElem hi]
        rfl
      · rw [if_neg hi, if_pos (by omega), List.getElem?_eq_none (Nat.le_of_not_lt hi)]
        rfl
    rw [hget]
    simp
  · rw [if_neg hik, h.slots k hk, ← hpad k]
    simp [hik]

end Roster.Shows

/-- One accepted tag, in the slots and in the entries. -/
theorem walkTag_play (hreads : Reads proj empty onName onStruct) {r r' : Roster α}
    {entries : Entries} (hr : r.Shows proj empty entries) {t : TagEntry}
    (ht : StructPlaced entries.length t) {off : ℕ}
    (h : walkTag empty onName onStruct off t r = .ok r') :
    ∃ entries', entries.applyTag t = .ok entries' ∧ r'.Shows proj empty entries' := by
  obtain ⟨hwf, hstep⟩ := walkTag_eq_ok hr.wf h
  have hcount := hr.count
  have hle := hr.length_le
  -- the count follows from the tag, in the walk and in the replay
  have hshows : ∀ entries', entries.applyTag t = .ok entries' →
      (∀ k < maxLiveEntries, r'.slots[k]? = some ((entries'[k]?.map proj).getD empty)) →
      ∃ entries', entries.applyTag t = .ok entries' ∧ r'.Shows proj empty entries' := by
    intro entries' happly hslots
    have hlen := Entries.length_applyTag happly
    rw [← hcount, hstep] at hlen
    exact ⟨entries', happly, hwf, Option.some.inj hlen, hslots⟩
  cases walkTag_step h with
  | create type room id_le =>
      refine hshows (entries.insertIdx t.id Entry.empty) ?_
        fun k hk => hr.create hreads.empty id_le room hk
      have hroom : ¬ maxLiveEntries ≤ entries.length := by omega
      have hid : ¬ entries.length < t.id := by omega
      simp only [Entries.applyTag, type, if_neg hroom, if_neg hid]
  | delete type id_lt =>
      refine hshows (entries.eraseIdx t.id) ?_ fun k hk => hr.delete id_lt hk
      have hid : ¬ entries.length ≤ t.id := by omega
      simp only [Entries.applyTag, type, if_neg hid]
  | name type id_lt s s' slot value =>
      obtain rfl := hr.slot hreads.empty id_lt slot
      have hs' := hreads.name _ _ _ _ value
      refine hshows _ (Entries.applyTag_name type entries ▸ if_neg (Nat.not_le_of_lt id_lt))
        fun k hk => hr.set hreads.empty hs' hk
  | struct type id_lt s s' slot value =>
      obtain rfl := hr.slot hreads.empty id_lt slot
      have hs' := hreads.struct _ _ _ _ value
      refine hshows _ (Entries.applyTag_struct type entries) fun k hk => ?_
      rw [hr.set hreads.empty hs' hk, Entries.pad_of_lt (ht type)]
  | other ne_create ne_delete not_name not_struct =>
      -- a tag that leaves the slots alone
      have hsame : ∀ f : Entry → Entry, (∀ e, proj (f e) = proj e) → ∀ k < maxLiveEntries,
          r.slots[k]? = some (((entries.modify t.id f)[k]?.map proj).getD empty) := by
        intro f hf k hk
        rw [hr.slots k hk, List.getElem?_modify]
        cases entries[k]? with
        | none => rfl
        | some e => split_ifs <;> simp [hf]
      obtain ⟨type, id, body⟩ := t
      cases type with
      | create => exact absurd rfl ne_create
      | delete => exact absurd rfl ne_delete
      | regularFile | directory | superblock => cases not_name
      | dirStruct | inlineStruct | ctzStruct =>
          have hlt : id < entries.length := ht rfl
          have hge : maxLiveEntries ≤ id := not_struct rfl
          omega
      | userAttr a => exact ⟨_, rfl,
        hwf, by rw [List.length_modify, hcount], hsame _ (hreads.attr a body)⟩
      | _ => exact ⟨entries, rfl, hr⟩

/-- What a walk with slot functions that never fail rejects, the entries reject too. -/
theorem walkTag_play_error (hname : ∀ off t s e, onName off t s ≠ .error e)
    (hstruct : ∀ off t s e, onStruct off t s ≠ .error e) {r : Roster α} {entries : Entries}
    (hr : r.Shows proj empty entries) {t : TagEntry} {off : ℕ} {e : Error}
    (h : walkTag empty onName onStruct off t r = .error e) : entries.applyTag t = .error e := by
  have hcount := hr.count
  have hupdate : ∀ n id f, id < maxLiveEntries → (∀ s e, f s ≠ Except.error e) →
      Roster.update ⟨r.slots, n⟩ id f ≠ .error e := by
    intro n id f hid hf hup
    have hlt : id < r.slots.length := by
      rw [hr.wf.length]
      exact hid
    have hget : r.slots[id]? = some r.slots[id] := List.getElem?_eq_getElem hlt
    rw [Roster.update, hget] at hup
    simp only at hup
    cases hfs : f r.slots[id] with
    | error e' => exact hf _ _ hfs
    | ok s' =>
        rw [hfs] at hup
        cases hup
  obtain ⟨type, id, body⟩ := t
  cases type with
  | create =>
      by_cases hroom : maxLiveEntries ≤ r.count
      · simp only [walkTag, spliceStep, if_pos hroom] at h
        cases h
        rw [hcount] at hroom
        simp only [Entries.applyTag, if_pos hroom]
      by_cases hid : r.count < id
      · simp only [walkTag, spliceStep, if_neg hroom, if_pos hid] at h
        cases h
        rw [hcount] at hroom hid
        simp only [Entries.applyTag, if_neg hroom, if_pos hid]
      simp only [walkTag, spliceStep, if_neg hroom, if_neg hid] at h
      cases h
  | delete =>
      by_cases hid : r.count ≤ id
      · simp only [walkTag, spliceStep, if_pos hid] at h
        cases h
        rw [hcount] at hid
        simp only [Entries.applyTag, if_pos hid]
      simp only [walkTag, spliceStep, if_neg hid] at h
      cases h
  | regularFile | directory | superblock =>
      by_cases hid : maxLiveEntries ≤ id
      · simp only [walkTag, spliceStep, if_pos hid] at h
        cases h
        simp only [Entries.applyTag, if_pos hid]
      simp only [walkTag, spliceStep, if_neg hid] at h
      exact (hupdate _ id (onName (off + 4) ⟨_, id, body⟩) (Nat.lt_of_not_le hid)
        (fun s e' => hname _ _ s e') h).elim
  | inlineStruct | ctzStruct | dirStruct =>
      by_cases hid : id < maxLiveEntries
      · simp only [walkTag, spliceStep, bind, Except.bind, TagType.isStruct, Bool.true_and,
          decide_eq_true_eq, if_pos hid] at h
        exact (hupdate _ id _ hid (fun s e' => hstruct _ _ s e') h).elim
      · simp only [walkTag, spliceStep, bind, Except.bind, TagType.isStruct, Bool.true_and,
          decide_eq_true_eq, if_neg hid] at h
        cases h
  | _ => cases h

/-- A walk that accepts a log ends with the slots of the entries the log describes. -/
theorem walkTags_play (hreads : Reads proj empty onName onStruct) {ts : List TagEntry}
    {r r' : Roster α} {entries : Entries} (hr : r.Shows proj empty entries)
    (hts : Along StructPlaced ts entries.length) {off : ℕ}
    (h : walkTags empty onName onStruct ts off r = .ok r') :
    ∃ entries', entries.play ts = .ok entries' ∧ r'.Shows proj empty entries' := by
  induction ts generalizing off r entries with
  | nil =>
      cases h
      exact ⟨entries, rfl, hr⟩
  | cons t ts ih =>
      rw [walkTags_cons] at h
      cases ht : walkTag empty onName onStruct off t r with
      | error e =>
          rw [ht] at h
          cases h
      | ok r₁ =>
          rw [ht] at h
          obtain ⟨entries₁, happly, hshows⟩ := walkTag_play hreads hr hts.1 ht
          obtain ⟨entries', hplay, hshows'⟩ :=
            ih hshows (hts.2 _ (Entries.length_applyTag happly)) h
          refine ⟨entries', ?_, hshows'⟩
          rw [Entries.play_cons, happly]
          exact hplay

/-- A walk whose slot functions never fail, as a replay. -/
theorem walkTags_eq_play (hreads : Reads proj empty onName onStruct)
    (hname : ∀ off t s e, onName off t s ≠ .error e)
    (hstruct : ∀ off t s e, onStruct off t s ≠ .error e) {ts : List TagEntry} {r : Roster α}
    {entries : Entries} (hr : r.Shows proj empty entries)
      (hts : Along StructPlaced ts entries.length)
    (off : ℕ) :
    (walkTags empty onName onStruct ts off r).map Roster.live =
      (entries.play ts).map (List.map proj) := by
  induction ts generalizing off r entries with
  | nil => exact congrArg Except.ok hr.live
  | cons t ts ih =>
      rw [walkTags_cons, Entries.play_cons]
      cases ht : walkTag empty onName onStruct off t r with
      | error e =>
          rw [walkTag_play_error hname hstruct hr ht]
          rfl
      | ok r₁ =>
          obtain ⟨entries₁, happly, hshows⟩ := walkTag_play hreads hr hts.1 ht
          rw [happly]
          exact ih hshows (hts.2 _ (Entries.length_applyTag happly)) _

end Walk

/-! ## The readers -/

theorem Roster.new_shows {α : Type} {proj : Entry → α} (empty : α) :
    (Roster.new empty).Shows proj empty [] where
  wf := Roster.new_wf empty
  count := rfl
  slots k hk := by simp [Roster.new, hk]

/-- What `gather_live_slots` keeps of an entry. -/
def Entry.slot (e : Entry) : Slot := ⟨e.name, e.struct⟩

theorem slot_reads : Reads Entry.slot Slot.empty Slot.setName Slot.setStruct where
  empty := rfl
  name off t e s h := by
    unfold Slot.setName at h
    split_ifs at h
    cases h
    rfl
  struct off t e s h := by
    unfold Slot.setStruct at h
    split_ifs at h
    cases h
    rfl
  attr _ _ _ := rfl

/-- The slots `gather_live_slots` finds are those of the entries. -/
theorem gatherLiveSlots_play {l : MetadataLog} {slots : Roster Slot}
    (hl : Along StructPlaced l.tags 0) (h : gatherLiveSlots l = .ok slots) :
    ∃ entries, Entries.play l.tags [] = .ok entries ∧ slots.Shows Entry.slot Slot.empty entries :=
  walkTags_play slot_reads (Roster.new_shows Slot.empty) hl h

/-- What `lookup_checked` keeps of an entry. -/
def Entry.lookupSlot (e : Entry) : LookupSlot :=
  ⟨e.name.map Prod.snd, e.name.bind fun n => n.1.entryKind, e.struct⟩

/-- The slots that `lookup_checked` searches: the live entries with their name, kind,
struct type and struct body. -/
def lookupSlots (l : MetadataLog) : Except Error (List LookupSlot) :=
  (walkTags (⟨none, none, none⟩ : LookupSlot)
    (fun _ t s => .ok { s with name := some t.body, kind := t.tagType.entryKind })
    (fun _ t s => .ok { s with structData := some (t.tagType, t.body) })
    l.tags 4 (Roster.new ⟨none, none, none⟩)).map Roster.live

theorem lookupSlot_reads : Reads Entry.lookupSlot ⟨none, none, none⟩
    (fun _ t s => .ok { s with name := some t.body, kind := t.tagType.entryKind })
    (fun _ t s => .ok { s with structData := some (t.tagType, t.body) }) where
  empty := rfl
  name off t e s h := by
    cases h
    rfl
  struct off t e s h := by
    cases h
    rfl
  attr _ _ _ := rfl

/-- The slots `lookup_checked` searches are those of the entries. -/
theorem lookupSlots_eq_play {l : MetadataLog} (hl : Along StructPlaced l.tags 0) :
    lookupSlots l = (Entries.play l.tags []).map (List.map Entry.lookupSlot) :=
  walkTags_eq_play lookupSlot_reads (fun _ _ _ _ h => by cases h) (fun _ _ _ _ h => by cases h)
    (Roster.new_shows _) hl 4

end LittlefsPure
