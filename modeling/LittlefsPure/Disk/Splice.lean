import LittlefsPure.Disk.Dir
import LittlefsPure.Logic.Except
import Mathlib.Data.List.InsertIdx

/-!
# What the tags of a log do to a slot array

The walkers of `dir.rs` and `fs.rs` differ in what a slot holds and share the
splicing.  `walkTag_step` says once what an accepted tag does, for any slot type,
and the facts about whole walks follow by induction on the tags: how walks compose,
that the slot array keeps its size and the count stays below it, and that a
property of slots is kept when the slot functions keep it.

## Why one step lemma

A tag is accepted or refused depending on its type, its id and the number of live slots, and an
accepted one opens a slot, closes one, changes one, or does nothing.  Every fact about a walk
comes down to these four, so they are said once, with what they leave alone.
-/

namespace LittlefsPure

/-! ## Walks, tag by tag -/

section Walk

theorem mem_insertIdx_imp {α : Type} {xs : List α} {i : ℕ} {a x : α} (h : a ∈ xs.insertIdx i x) :
    a = x ∨ a ∈ xs := by
  by_cases hi : i ≤ xs.length
  · exact (List.mem_insertIdx hi).1 h
  · rw [List.insertIdx_of_length_lt (Nat.lt_of_not_le hi)] at h
    exact .inr h

variable {α : Type} {empty : α} {onName onStruct : ℕ → TagEntry → α → Except Error α}

@[simp] theorem walkTags_nil (off : ℕ) (r : Roster α) :
    walkTags empty onName onStruct [] off r = .ok r := rfl

theorem walkTags_cons (t : TagEntry) (ts : List TagEntry) (off : ℕ) (r : Roster α) :
    walkTags empty onName onStruct (t :: ts) off r =
      (walkTag empty onName onStruct off t r).bind
        (walkTags empty onName onStruct ts (off + t.dsize)) := rfl

/-- A slot array of the size the walkers use, with a count that fits it. -/
structure Roster.Wf (r : Roster α) : Prop where
  length : r.slots.length = maxLiveEntries
  count : r.count ≤ maxLiveEntries

theorem Roster.new_wf (e : α) : (Roster.new e).Wf :=
  ⟨List.length_replicate, Nat.zero_le _⟩

/-- A rewritten slot array has the same size and count, and its slots are the old ones
and the rewritten one. -/
theorem Roster.update_eq_ok {r r' : Roster α} {id : ℕ} {f : α → Except Error α}
    (h : r.update id f = .ok r') :
    ∃ s s', r.slots[id]? = some s ∧ f s = .ok s' ∧
      r' = { r with slots := r.slots.set id s' } := by
  unfold Roster.update at h
  split at h
  · next s hs =>
    cases hf : f s with
    | error e => rw [hf] at h; cases h
    | ok s' => rw [hf] at h; cases h; exact ⟨s, s', hs, hf, rfl⟩
  · cases h

/-- What one tag does to a slot array, when the walk accepts it. -/
inductive WalkStep (empty : α) (onName onStruct : ℕ → TagEntry → α → Except Error α) (off : ℕ)
    (t : TagEntry) (r : Roster α) : Roster α → Prop where
  | create (type : t.tagType = .create) (room : r.count < maxLiveEntries) (id_le : t.id ≤ r.count) :
      WalkStep empty onName onStruct off t r
        ⟨(r.slots.eraseIdx r.count).insertIdx t.id empty, r.count + 1⟩
  | delete (type : t.tagType = .delete) (id_lt : t.id < r.count) :
      WalkStep empty onName onStruct off t r
        ⟨(r.slots.eraseIdx t.id).insertIdx (r.count - 1) empty, r.count - 1⟩
  | name (type : t.tagType.isName = true) (id_lt : t.id < maxLiveEntries) (s s' : α)
      (slot : r.slots[t.id]? = some s) (value : onName (off + 4) t s = .ok s') :
      WalkStep empty onName onStruct off t r ⟨r.slots.set t.id s', max r.count (t.id + 1)⟩
  | struct (type : t.tagType.isStruct = true) (id_lt : t.id < maxLiveEntries) (s s' : α)
      (slot : r.slots[t.id]? = some s) (value : onStruct (off + 4) t s = .ok s') :
      WalkStep empty onName onStruct off t r ⟨r.slots.set t.id s', r.count⟩
  | other (ne_create : t.tagType ≠ .create) (ne_delete : t.tagType ≠ .delete)
      (not_name : t.tagType.isName = false)
      (not_struct : t.tagType.isStruct = true → maxLiveEntries ≤ t.id) :
      WalkStep empty onName onStruct off t r r

theorem walkTag_step {r r' : Roster α} {t : TagEntry} {off : ℕ}
    (h : walkTag empty onName onStruct off t r = .ok r') :
    WalkStep empty onName onStruct off t r r' := by
  obtain ⟨type, id, body⟩ := t
  cases type with
  | create =>
      by_cases hroom : maxLiveEntries ≤ r.count
      · simp only [walkTag, spliceStep, if_pos hroom] at h
        cases h
      by_cases hid : r.count < id
      · simp only [walkTag, spliceStep, if_neg hroom, if_pos hid] at h
        cases h
      simp only [walkTag, spliceStep, if_neg hroom, if_neg hid] at h
      cases h
      exact .create rfl (Nat.lt_of_not_le hroom) (Nat.le_of_not_lt hid)
  | delete =>
      by_cases hid : r.count ≤ id
      · simp only [walkTag, spliceStep, if_pos hid] at h
        cases h
      simp only [walkTag, spliceStep, if_neg hid] at h
      cases h
      exact .delete rfl (Nat.lt_of_not_le hid)
  | regularFile | directory | superblock =>
      by_cases hid : maxLiveEntries ≤ id
      · simp only [walkTag, spliceStep, if_pos hid] at h
        cases h
      simp only [walkTag, spliceStep, if_neg hid] at h
      obtain ⟨s, s', hs, hs', rfl⟩ := Roster.update_eq_ok h
      exact .name rfl (Nat.lt_of_not_le hid) s s' hs hs'
  | inlineStruct | ctzStruct | dirStruct =>
      by_cases hid : id < maxLiveEntries
      · simp only [walkTag, spliceStep, bind, Except.bind, TagType.isStruct, Bool.true_and,
          decide_eq_true_eq, if_pos hid] at h
        obtain ⟨s, s', hs, hs', rfl⟩ := Roster.update_eq_ok h
        exact .struct rfl hid s s' hs hs'
      · simp only [walkTag, spliceStep, bind, Except.bind, TagType.isStruct, Bool.true_and,
          decide_eq_true_eq, if_neg hid] at h
        cases h
        exact .other nofun nofun rfl fun _ => Nat.le_of_not_lt hid
  | _ =>
      cases h
      exact .other nofun nofun rfl nofun

/-- The live count behind a tag, when the tag is one the splice step accepts. -/
def countStep (t : TagEntry) (count : ℕ) : Option ℕ :=
  match t.tagType with
  | .create => if t.id ≤ count then some (count + 1) else none
  | .delete => if t.id < count then some (count - 1) else none
  | .regularFile | .directory | .superblock => some (max count (t.id + 1))
  | _ => some count

theorem countStep_name {t : TagEntry} (h : t.tagType.isName = true) (count : ℕ) :
    countStep t count = some (max count (t.id + 1)) := by
  obtain ⟨type, id, body⟩ := t
  cases type <;> first | rfl | cases h

theorem countStep_other {t : TagEntry} (hc : t.tagType ≠ .create) (hd : t.tagType ≠ .delete)
    (hn : t.tagType.isName = false) (count : ℕ) : countStep t count = some count := by
  obtain ⟨type, id, body⟩ := t
  cases type <;> first | rfl | contradiction

theorem TagType.isName_of_isStruct {type : TagType} (h : type.isStruct = true) :
    type ≠ .create ∧ type ≠ .delete ∧ type.isName = false := by
  cases type with
  | dirStruct | inlineStruct | ctzStruct =>
      exact ⟨nofun, nofun, rfl⟩
  | _ => cases h

/-- The size of the slot array stays, its count follows `countStep`. -/
theorem walkTag_eq_ok {r r' : Roster α} {t : TagEntry} {off : ℕ} (hr : r.Wf)
    (h : walkTag empty onName onStruct off t r = .ok r') :
    r'.Wf ∧ countStep t r.count = some r'.count := by
  obtain ⟨hlen, hcount⟩ := hr
  cases walkTag_step h with
  | create type room id_le =>
      refine ⟨⟨?_, room⟩, by simp only [countStep, type, if_pos id_le]⟩
      rw [List.length_insertIdx, List.length_eraseIdx]
      split_ifs <;> omega
  | delete type id_lt =>
      refine ⟨⟨?_, by simp only; omega⟩, by simp only [countStep, type, if_pos id_lt]⟩
      rw [List.length_insertIdx, List.length_eraseIdx]
      split_ifs <;> omega
  | name type id_lt s s' slot value =>
      refine ⟨⟨by rw [List.length_set]; exact hlen, ?_⟩, countStep_name type _⟩
      exact Nat.max_le.2 ⟨hcount, id_lt⟩
  | struct type id_lt s s' slot value =>
      obtain ⟨hc, hd, hn⟩ := TagType.isName_of_isStruct type
      exact ⟨⟨by rw [List.length_set]; exact hlen, hcount⟩, countStep_other hc hd hn _⟩
  | other hc hd hn hs => exact ⟨⟨hlen, hcount⟩, countStep_other hc hd hn _⟩

theorem walkTag_slots {P : α → Prop} (hempty : P empty)
    (hname : ∀ off t s s', t.tagType.isName = true → P s → onName off t s = .ok s' → P s')
    (hstruct : ∀ off t s s', t.tagType.isStruct = true → P s → onStruct off t s = .ok s' → P s')
    {t : TagEntry} {off : ℕ} {r r' : Roster α} (hr : ∀ s ∈ r.slots, P s)
    (h : walkTag empty onName onStruct off t r = .ok r') : ∀ s ∈ r'.slots, P s := by
  have hsplice : ∀ i j, ∀ s ∈ (r.slots.eraseIdx i).insertIdx j empty, P s := by
    intro i j s hs
    rcases mem_insertIdx_imp hs with rfl | hs
    · exact hempty
    · exact hr s (List.mem_of_mem_eraseIdx hs)
  have hset : ∀ i s', P s' → ∀ s ∈ r.slots.set i s', P s := by
    intro i s' hs' s hs
    rcases List.mem_or_eq_of_mem_set hs with hs | rfl
    · exact hr s hs
    · exact hs'
  cases walkTag_step h with
  | create type room id_le => exact hsplice _ _
  | delete type id_lt => exact hsplice _ _
  | name type id_lt s s' slot value =>
      exact hset _ _ (hname _ _ s s' type (hr s (List.mem_of_getElem? slot)) value)
  | struct type id_lt s s' slot value =>
      exact hset _ _ (hstruct _ _ s s' type (hr s (List.mem_of_getElem? slot)) value)
  | other hc hd hn hs => exact hr

theorem walkTags_wf {ts : List TagEntry} {off : ℕ} {r r' : Roster α} (hr : r.Wf)
    (h : walkTags empty onName onStruct ts off r = .ok r') : r'.Wf := by
  induction ts generalizing off r with
  | nil => cases h; exact hr
  | cons t ts ih =>
      rw [walkTags_cons] at h
      cases ht : walkTag empty onName onStruct off t r with
      | error e => rw [ht] at h; cases h
      | ok r₁ => rw [ht] at h; exact ih (walkTag_eq_ok hr ht).1 h

/-- A property of slots that the slot functions keep holds of all slots of a walk's
result. -/
theorem walkTags_slots {P : α → Prop} (hempty : P empty)
    (hname : ∀ off t s s', t.tagType.isName = true → P s → onName off t s = .ok s' → P s')
    (hstruct : ∀ off t s s', t.tagType.isStruct = true → P s → onStruct off t s = .ok s' → P s')
    {ts : List TagEntry} {off : ℕ} {r r' : Roster α} (hr : ∀ s ∈ r.slots, P s)
    (h : walkTags empty onName onStruct ts off r = .ok r') : ∀ s ∈ r'.slots, P s := by
  induction ts generalizing off r with
  | nil => cases h; exact hr
  | cons t ts ih =>
      rw [walkTags_cons] at h
      cases ht : walkTag empty onName onStruct off t r with
      | error e => rw [ht] at h; cases h
      | ok r₁ =>
          rw [ht] at h
          exact ih (walkTag_slots hempty hname hstruct hr ht) h

end Walk

/-! ## Slots -/

/-- A slot holds a NAME tag and a STRUCT tag. -/
structure Slot.Typed (s : Slot) : Prop where
  name : ∀ n, s.name = some n → n.1.isName = true
  struct : ∀ b, s.struct = some b → b.1.isStruct = true

theorem Slot.empty_typed : Slot.empty.Typed := ⟨nofun, nofun⟩

theorem Slot.setName_typed {off : ℕ} {t : TagEntry} {s s' : Slot} (ht : t.tagType.isName = true)
    (hs : s.Typed) (h : s.setName off t = .ok s') : s'.Typed := by
  unfold Slot.setName at h
  split_ifs at h
  cases h
  exact ⟨fun n hn => by cases hn; exact ht, hs.struct⟩

theorem Slot.setStruct_typed {off : ℕ} {t : TagEntry} {s s' : Slot}
    (ht : t.tagType.isStruct = true) (hs : s.Typed) (h : s.setStruct off t = .ok s') :
    s'.Typed := by
  unfold Slot.setStruct at h
  split_ifs at h
  cases h
  exact ⟨hs.name, fun n hn => by cases hn; exact ht⟩

theorem gatherLiveSlots_typed {l : MetadataLog} {r : Roster Slot}
    (h : gatherLiveSlots l = .ok r) : ∀ s ∈ r.slots, s.Typed :=
  walkTags_slots Slot.empty_typed (fun _ _ _ _ => Slot.setName_typed)
    (fun _ _ _ _ => Slot.setStruct_typed)
    (fun s hs => by rw [List.eq_of_mem_replicate hs]; exact Slot.empty_typed) h

/-! ## Projections -/

/-- A roster seen through a projection of its slots. -/
def Roster.map {α β : Type} (proj : α → β) (r : Roster α) : Roster β := ⟨r.slots.map proj, r.count⟩

section Projection

variable {α β : Type} (proj : α → β) {empty : α} {empty' : β}
  {onName onStruct : ℕ → TagEntry → α → Except Error α}
  {onName' onStruct' : ℕ → TagEntry → β → Except Error β}

/-- The splice step does not look into the slots. -/
theorem spliceStep_commutes (r : Roster α) (t : TagEntry) :
    spliceStep (proj empty) (r.map proj) t =
      (spliceStep empty r t).map fun x => (x.1, x.2.map proj) := by
  obtain ⟨type, id, body⟩ := t
  cases type with
  | create =>
      show (if maxLiveEntries ≤ r.count then Except.error Error.outOfRange
        else if r.count < id then Except.error Error.corrupt
        else .ok (SpliceStep.consumed,
          Roster.mk (((r.slots.map proj).eraseIdx r.count).insertIdx id (proj empty))
            (r.count + 1))) = _
      simp only [spliceStep]
      split_ifs
      · rfl
      · rfl
      · rw [List.eraseIdx_map, ← List.map_insertIdx]
        rfl
  | delete =>
      show (if r.count ≤ id then Except.error Error.corrupt
        else .ok (SpliceStep.consumed,
          Roster.mk (((r.slots.map proj).eraseIdx id).insertIdx (r.count - 1) (proj empty))
            (r.count - 1))) = _
      simp only [spliceStep]
      split_ifs
      · rfl
      · rw [List.eraseIdx_map, ← List.map_insertIdx]
        rfl
  | regularFile | directory | superblock =>
      simp only [spliceStep]
      split_ifs
      · rfl
      · rfl
  | _ => rfl

theorem spliceStep_map (hempty : proj empty = empty') {r r' : Roster α} {t : TagEntry}
    {step : SpliceStep} (h : spliceStep empty r t = .ok (step, r')) :
    spliceStep empty' (r.map proj) t = .ok (step, r'.map proj) := by
  rw [← hempty, spliceStep_commutes, h]
  rfl

theorem Roster.update_map {r r' : Roster α} {id : ℕ} {f : α → Except Error α}
    {f' : β → Except Error β} (hf : ∀ s s', f s = .ok s' → f' (proj s) = .ok (proj s'))
    (h : r.update id f = .ok r') : (r.map proj).update id f' = .ok (r'.map proj) := by
  unfold Roster.update at h ⊢
  simp only [Roster.map, List.getElem?_map]
  cases hs : r.slots[id]? with
  | none =>
      rw [hs] at h
      cases h
  | some s =>
      rw [hs] at h
      obtain ⟨s', hs', h⟩ := Logic.map_eq_ok.1 h
      cases h
      simp only [Option.map_some, hf s s' hs', Except.map, List.map_set]

/-- Two walkers whose slot functions agree through a projection read the same log alike. -/
theorem walkTags_map (hempty : proj empty = empty')
    (hname : ∀ off t s s', onName off t s = .ok s' → onName' off t (proj s) = .ok (proj s'))
    (hstruct : ∀ off t s s', onStruct off t s = .ok s' → onStruct' off t (proj s) = .ok (proj s'))
    {ts : List TagEntry} {off : ℕ} {r r' : Roster α}
    (h : walkTags empty onName onStruct ts off r = .ok r') :
    walkTags empty' onName' onStruct' ts off (r.map proj) = .ok (r'.map proj) := by
  induction ts generalizing off r with
  | nil =>
      cases h
      rfl
  | cons t ts ih =>
      rw [walkTags] at h ⊢
      obtain ⟨r₁, h₁, h⟩ := Logic.bind_eq_ok.1 h
      refine Logic.bind_eq_ok.2 ⟨r₁.map proj, ?_, ih h⟩
      unfold walkTag at h₁ ⊢
      obtain ⟨⟨step, r₂⟩, hstep, h₁⟩ := Logic.bind_eq_ok.1 h₁
      refine Logic.bind_eq_ok.2 ⟨(step, r₂.map proj), spliceStep_map proj hempty hstep, ?_⟩
      cases step with
      | consumed =>
          cases h₁
          rfl
      | name id => exact Roster.update_map proj (hname _ t) h₁
      | other =>
          simp only at h₁ ⊢
          split_ifs at h₁ ⊢
          · exact Roster.update_map proj (hstruct _ t) h₁
          · cases h₁
            rfl

end Projection

end LittlefsPure
