import LittlefsPure.Replay.Entries
import Mathlib.Data.List.Induction

/-!
# Attribute queries

`attr_get` and `for_each_live_attr` walk a log from its end and follow an entry's id
back through the splices.  They find what the replay of the log left at the entry:
the induction is on the log from its end, and the walk's splice difference is the
distance between the id the entry has now and the one it had then.

## Why the walk goes backwards

The reader has no room for the attributes of all entries, so a query looks for one of them, and
the last write wins: from the end, the first tag that fits is the answer.  What fits changes on the
way, since the entry had another id before each splice below it, and none before it was created.
The splice difference is that change of id, and the induction keeps it equal to what the splices
behind have done.
-/

namespace LittlefsPure

open Entries

/-! ## `attr_get` -/

/-- One step back over a tag: the entry at an id and the entry it was before the tag. -/
theorem attrGetFrom_step {entries entries' : Entries} {t : TagEntry}
    (h : entries.applyTag t = .ok entries') (ht : AttrPlaced entries.length t) {liveId gdiff : ℤ}
    {a : ℕ} {ts : List TagEntry}
    (hrest : ∀ (gdiff : ℤ) (x : ℕ), liveId - gdiff = x →
      attrGetFrom liveId a gdiff ts = entries[x]?.bind fun e => e.attrs a)
    {x : ℕ} (hx : liveId - gdiff = x) :
    attrGetFrom liveId a gdiff (t :: ts) = entries'[x]?.bind fun e => e.attrs a := by
  obtain ⟨type, id, body⟩ := t
  -- a tag that leaves the attributes at `x` alone is passed over
  have hsame : (entries'[x]?.bind fun e => e.attrs a) = entries[x]?.bind (fun e => e.attrs a) →
      attrGetFrom liveId a gdiff ts = entries'[x]?.bind fun e => e.attrs a :=
    fun heq => (hrest gdiff x hx).trans heq.symm
  cases type with
  | create =>
      simp only [applyTag] at h
      split_ifs at h with hroom hid
      cases h
      simp only [attrGetFrom, hx, Nat.cast_inj, Nat.cast_lt, List.getElem?_insertIdx]
      by_cases heq : id = x
      · subst heq
        have hle : id ≤ entries.length := Nat.le_of_not_lt hid
        simp [hle, Entry.empty]
      rw [if_neg heq]
      by_cases hlt : id < x
      · have hprev : liveId - (gdiff + 1) = ((x - 1 : ℕ) : ℤ) := by omega
        rw [if_pos hlt, if_neg (by omega), if_neg (Ne.symm heq), hrest _ _ hprev]
      · rw [if_neg hlt, if_pos (by omega), hrest _ _ hx]
  | delete =>
      simp only [applyTag] at h
      split_ifs at h with hid
      cases h
      simp only [attrGetFrom, hx, Nat.cast_le, List.getElem?_eraseIdx]
      by_cases hle : id ≤ x
      · have hprev : liveId - (gdiff - 1) = ((x + 1 : ℕ) : ℤ) := by push_cast; omega
        rw [if_pos hle, if_neg (by omega), hrest _ _ hprev]
      · rw [if_neg hle, if_pos (by omega), hrest _ _ hx]
  | regularFile | directory | superblock =>
      simp only [applyTag] at h
      split_ifs at h
      cases h
      simp only [attrGetFrom]
      refine hsame ?_
      simp only [List.getElem?_modify, pad, List.getElem?_append, List.getElem?_replicate]
      by_cases hx' : x < entries.length
      · have hget : entries[x]? = some entries[x] := List.getElem?_eq_getElem hx'
        simp only [hx', if_true, hget]
        split_ifs <;> rfl
      · have hnone : entries[x]? = none := List.getElem?_eq_none (Nat.le_of_not_lt hx')
        simp only [hx', if_false, hnone]
        split_ifs <;> rfl
  | dirStruct | inlineStruct | ctzStruct =>
      simp only [applyTag] at h
      cases h
      simp only [attrGetFrom]
      refine hsame ?_
      simp only [List.getElem?_modify]
      cases entries[x]? with
      | none => rfl
      | some e => split_ifs <;> rfl
  | userAttr b =>
      simp only [applyTag] at h
      cases h
      have hid : id < entries.length := ht b rfl
      simp only [attrGetFrom, hx, Nat.cast_inj]
      by_cases hat : b = a ∧ id = x
      · obtain ⟨rfl, rfl⟩ := hat
        rw [if_pos ⟨rfl, rfl⟩, List.getElem?_modify, List.getElem?_eq_getElem hid]
        cases body <;> simp [Entry.setAttr, Body.value]
      · rw [if_neg hat]
        refine hsame ?_
        simp only [List.getElem?_modify]
        cases entries[x]? with
        | none => rfl
        | some e =>
            by_cases heq : id = x
            · have hne : a ≠ b := fun h => hat ⟨h.symm, heq⟩
              simp [heq, Entry.setAttr, hne]
            · simp [heq]
  | _ =>
      cases h
      exact hsame rfl

/-- The backward walk finds the attribute that the replay left at the entry. -/
theorem attrGetFrom_play {ts : List TagEntry} (hts : Along AttrPlaced ts 0) {entries : Entries}
    (h : play ts [] = .ok entries) (liveId : ℤ) (a : ℕ) (gdiff : ℤ) (x : ℕ)
    (hx : liveId - gdiff = x) :
    attrGetFrom liveId a gdiff ts.reverse = entries[x]?.bind fun e => e.attrs a := by
  induction ts using List.reverseRecOn generalizing entries gdiff x with
  | nil =>
      cases h
      rfl
  | append_singleton ts t ih =>
      rw [play_append] at h
      cases hplay : play ts [] with
      | error e =>
          rw [hplay] at h
          cases h
      | ok entries₁ =>
          rw [hplay] at h
          have happly : entries₁.applyTag t = .ok entries :=
              (play_singleton t entries₁).symm.trans h
          obtain ⟨hts₁, ht⟩ := (along_append hplay).1 hts
          rw [List.reverse_append]
          exact attrGetFrom_step happly ht.1 (fun gdiff x hx => ih hts₁ hplay gdiff x hx) hx

/-- `attr_get` finds the attribute that the replay left at the entry. -/
theorem attrGet_play {l : MetadataLog} (hl : Along AttrPlaced l.tags 0) {entries : Entries}
    (h : play l.tags [] = .ok entries) (liveId a : ℕ) :
    attrGet l liveId a = entries[liveId]?.bind fun e => e.attrs a :=
  attrGetFrom_play hl h liveId a 0 liveId (Int.sub_zero _)

/-! ## `for_each_live_attr` -/

/-- What one tag adds to the list: the walk ends, passes the tag over, or lists it. -/
theorem liveAttrsFrom_cons (liveId gdiff : ℤ) (seen : List ℕ) (t : TagEntry) (ts : List TagEntry) :
    liveAttrsFrom liveId gdiff seen (t :: ts) = [] ∨
      (∃ gdiff' seen', (∀ a ∈ seen, a ∈ seen') ∧
        liveAttrsFrom liveId gdiff seen (t :: ts) = liveAttrsFrom liveId gdiff' seen' ts) ∨
      ∃ a body, a ∉ seen ∧ body ≠ .removed ∧ liveAttrsFrom liveId gdiff seen (t :: ts) =
        (a, body) :: liveAttrsFrom liveId gdiff (a :: seen) ts := by
  obtain ⟨type, id, body⟩ := t
  cases type with
  | create =>
      simp only [liveAttrsFrom]
      split_ifs
      · exact .inl rfl
      · exact .inr (.inl ⟨_, _, fun _ h => h, rfl⟩)
      · exact .inr (.inl ⟨_, _, fun _ h => h, rfl⟩)
  | delete =>
      simp only [liveAttrsFrom]
      exact .inr (.inl ⟨_, _, fun _ h => h, rfl⟩)
  | userAttr b =>
      simp only [liveAttrsFrom]
      split_ifs with hb
      · cases body with
        | removed => exact .inr (.inl ⟨_, _, fun _ h => List.mem_cons_of_mem _ h, rfl⟩)
        | bytes bs => exact .inr (.inr ⟨b, .bytes bs, hb.2, nofun, rfl⟩)
        | words ws => exact .inr (.inr ⟨b, .words ws, hb.2, nofun, rfl⟩)
        | checksum n => exact .inr (.inr ⟨b, .checksum n, hb.2, nofun, rfl⟩)
      · exact .inr (.inl ⟨_, _, fun _ h => h, rfl⟩)
  | _ => exact .inr (.inl ⟨_, _, fun _ h => h, rfl⟩)

/-- What is listed was not seen before and carries a value. -/
theorem mem_liveAttrsFrom {liveId gdiff : ℤ} {seen : List ℕ} {ts : List TagEntry} :
    ∀ r ∈ liveAttrsFrom liveId gdiff seen ts, r.1 ∉ seen ∧ r.2 ≠ .removed := by
  induction ts generalizing gdiff seen with
  | nil => exact nofun
  | cons t ts ih =>
      intro r hr
      rcases liveAttrsFrom_cons liveId gdiff seen t ts with hnil | ⟨_, _, hsub, heq⟩ |
        ⟨a, body, ha, hbody, heq⟩
      · rw [hnil] at hr
        cases hr
      · rw [heq] at hr
        obtain ⟨hseen, hvalue⟩ := ih r hr
        exact ⟨fun h => hseen (hsub _ h), hvalue⟩
      · rw [heq] at hr
        rcases List.mem_cons.1 hr with rfl | hr
        · exact ⟨ha, hbody⟩
        · obtain ⟨hseen, hvalue⟩ := ih r hr
          exact ⟨fun h => hseen (List.mem_cons_of_mem _ h), hvalue⟩

/-- No attribute is listed twice. -/
theorem nodup_liveAttrsFrom {liveId gdiff : ℤ} {seen : List ℕ} {ts : List TagEntry} :
    ((liveAttrsFrom liveId gdiff seen ts).map Prod.fst).Nodup := by
  induction ts generalizing gdiff seen with
  | nil => exact List.nodup_nil
  | cons t ts ih =>
      rcases liveAttrsFrom_cons liveId gdiff seen t ts with hnil | ⟨_, _, -, heq⟩ |
        ⟨a, body, -, -, heq⟩
      · rw [hnil]
        exact List.nodup_nil
      · rw [heq]
        exact ih
      · rw [heq, List.map_cons, List.nodup_cons]
        refine ⟨fun hmem => ?_, ih⟩
        obtain ⟨r, hr, hra⟩ := List.mem_map.1 hmem
        exact (mem_liveAttrsFrom r hr).1 (hra ▸ List.mem_cons_self ..)

/-- An attribute that was seen is not listed again. -/
theorem lookup_liveAttrsFrom_of_mem {liveId gdiff : ℤ} {a : ℕ} {seen : List ℕ}
    {ts : List TagEntry} (ha : a ∈ seen) :
    (liveAttrsFrom liveId gdiff seen ts).lookup a = none := by
  rw [List.lookup_eq_none_iff]
  intro r hr
  rw [bne_iff_ne]
  exact fun heq => (mem_liveAttrsFrom r hr).1 (heq ▸ ha)

/-- An attribute not seen yet is listed with the value `attr_get` finds. -/
theorem lookup_liveAttrsFrom {liveId gdiff : ℤ} {a : ℕ} {seen : List ℕ} {ts : List TagEntry}
    (ha : a ∉ seen) :
    (liveAttrsFrom liveId gdiff seen ts).lookup a = attrGetFrom liveId a gdiff ts := by
  induction ts generalizing gdiff seen with
  | nil => rfl
  | cons t ts ih =>
      obtain ⟨type, id, body⟩ := t
      cases type with
      | create =>
          simp only [liveAttrsFrom, attrGetFrom]
          split_ifs
          · rfl
          · exact ih ha
          · exact ih ha
      | delete =>
          simp only [liveAttrsFrom, attrGetFrom]
          exact ih ha
      | userAttr b =>
          simp only [liveAttrsFrom, attrGetFrom]
          by_cases hid : (id : ℤ) = liveId - gdiff
          · by_cases hb : b = a
            · subst hb
              rw [if_pos ⟨hid, ha⟩, if_pos ⟨rfl, hid⟩]
              cases body with
              | removed => exact lookup_liveAttrsFrom_of_mem (List.mem_cons_self ..)
              | _ => simp
            · rw [if_neg fun h : b = a ∧ _ => hb h.1]
              by_cases hseen : b ∈ seen
              · rw [if_neg fun h => h.2 hseen]
                exact ih ha
              · have hnext : a ∉ b :: seen := by
                  rintro (_ | ⟨_, hmem⟩)
                  · exact hb rfl
                  · exact ha hmem
                rw [if_pos ⟨hid, hseen⟩]
                cases body with
                | removed => exact ih hnext
                | _ =>
                    have hne : (a == b) = false := beq_false_of_ne (Ne.symm hb)
                    simp only [List.lookup_cons, hne]
                    exact ih hnext
          · rw [if_neg fun h => hid h.1, if_neg fun h => hid h.2]
            exact ih ha
      | _ => exact ih ha

/-- `for_each_live_attr` calls back for the attributes that the replay left at the entry,
each with its value. -/
theorem lookup_forEachLiveAttr {l : MetadataLog} (hl : Along AttrPlaced l.tags 0)
    {entries : Entries} (h : play l.tags [] = .ok entries) (liveId a : ℕ) :
    (forEachLiveAttr l liveId).lookup a = entries[liveId]?.bind fun e => e.attrs a := by
  rw [← attrGet_play hl h]
  exact lookup_liveAttrsFrom List.not_mem_nil

end LittlefsPure
