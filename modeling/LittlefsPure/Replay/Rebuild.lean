import LittlefsPure.Logic.Except
import LittlefsPure.Replay.Effect

/-!
# What a rebuild writes

`emit_compact_range` writes the entries of a range out again: the slots gathered from
the log, the attributes read back from it, and for the entry an operation is addressed
to the change of its slot plan.  Replayed, its tags give the part of the operation's
result that the range asks for.

## Why the plan is per slot

An operation is addressed to one entry, and a rebuild visits them all.  `slot_plan` turns the
first into the second: for each entry it says what the operation does there, which for all but one
is nothing.  So the rebuild is an induction on the entries with no case for the operation in it,
and the operation comes in through the plan of a single slot.
-/

namespace LittlefsPure

open Entries

/-! ## One entry -/

@[simp] theorem Entry.withAttrs_nil (e : Entry) : e.withAttrs [] = e := rfl

theorem Entry.withAttrs_cons (r : ℕ × Body) (attrs : StagedAttrs) (e : Entry) :
    e.withAttrs (r :: attrs) = (e.setAttr r.1 r.2).withAttrs attrs := rfl

/-- Setting attributes changes nothing but attributes. -/
theorem Entry.withAttrs_frame (attrs : StagedAttrs) (e : Entry) :
    (e.withAttrs attrs).name = e.name ∧ (e.withAttrs attrs).struct = e.struct := by
  induction attrs generalizing e with
  | nil => exact ⟨rfl, rfl⟩
  | cons r attrs ih => exact ih (e.setAttr r.1 r.2)

/-- Each attribute set once, to a value. -/
theorem Entry.withAttrs_attrs {attrs : StagedAttrs} (hnodup : (attrs.map Prod.fst).Nodup)
    (hvalue : ∀ r ∈ attrs, r.2 ≠ .removed) (e : Entry) (a : ℕ) :
    (e.withAttrs attrs).attrs a = (attrs.lookup a).or (e.attrs a) := by
  induction attrs generalizing e with
  | nil => rfl
  | cons r attrs ih =>
      obtain ⟨b, v⟩ := r
      rw [List.map_cons, List.nodup_cons] at hnodup
      obtain ⟨hnotin, hnodup⟩ := hnodup
      have hrest := ih hnodup (fun r hr => hvalue r (List.mem_cons_of_mem _ hr)) (e.setAttr b v)
      rw [Entry.withAttrs_cons, hrest]
      by_cases hab : a = b
      · subst hab
        have hnone : attrs.lookup a = none := by
          rw [List.lookup_eq_none_iff]
          intro r hr
          rw [bne_iff_ne]
          exact fun heq => hnotin (List.mem_map.2 ⟨r, hr, heq.symm⟩)
        have hv : v.value = some v := Body.value_of_ne (hvalue _ (List.mem_cons_self ..))
        rw [hnone]
        simp [Entry.setAttr, hv]
      · have hne : (a == b) = false := beq_false_of_ne hab
        simp [Entry.setAttr, List.lookup_cons, hab, hne]

/-- Attributes kept by a test on their ids. -/
theorem lookup_filter_fst {attrs : StagedAttrs} (keep : ℕ → Bool) (a : ℕ) :
    (attrs.filter fun r => keep r.1).lookup a = if keep a then attrs.lookup a else none := by
  induction attrs with
  | nil => simp
  | cons r attrs ih =>
      obtain ⟨b, v⟩ := r
      rw [List.filter_cons, List.lookup_cons]
      by_cases hab : a = b
      · subst hab
        cases hkeep : keep a with
        | true => simp
        | false =>
            simp only [Bool.false_eq_true, if_false]
            rw [ih, hkeep]
            simp
      · have hne : (a == b) = false := beq_false_of_ne hab
        cases hkeep : keep b with
        | true =>
            simp only [if_true, List.lookup_cons, hne]
            exact ih
        | false =>
            simp only [Bool.false_eq_true, if_false, hne]
            exact ih

/-- What a slot plan makes of an entry. -/
def SlotPlan.entry (plan : SlotPlan) (e : Entry) : Entry :=
  Entry.withAttrs plan.attrAppend.toList
    { name := plan.extraName.or e.name
      struct := plan.structOverride.or e.struct
      attrs := fun a => if plan.attrSuppress = some a then none else e.attrs a }

/-- The slot plan of an operation is what the operation does to the entry. -/
theorem slotPlan_onEntry (op : WriteOp) (i : ℕ) (e : Entry) :
    op.onEntry i e =
      if (slotPlan op i).dropEntry then none else some ((slotPlan op i).entry e) := by
  have hkeep : (({} : SlotPlan).entry e) = e := by simp [SlotPlan.entry]
  cases op with
  | remove id =>
      by_cases h : id = i
      · simp [WriteOp.onEntry, WriteOp.target, WriteOp.opAddsEntry, WriteOp.change, slotPlan, h]
      · simp [WriteOp.onEntry, WriteOp.target, slotPlan, h, hkeep]
  | update id | updateCtz id | updateDirStruct id | renameInPlace id =>
      by_cases h : id = i
      · simp [WriteOp.onEntry, WriteOp.target, WriteOp.opAddsEntry, WriteOp.change, slotPlan, h,
          SlotPlan.entry]
      · simp [WriteOp.onEntry, WriteOp.target, slotPlan, h, hkeep]
  | setAttr id a value | removeAttr id a =>
      by_cases h : id = i
      · simp only [WriteOp.onEntry, WriteOp.target, WriteOp.opAddsEntry, WriteOp.change, slotPlan,
          h, SlotPlan.entry, Entry.setAttr, Entry.withAttrs, and_self, if_true, Bool.false_eq_true,
          if_false, Option.toList_some, Option.toList_none, List.foldl_cons, List.foldl_nil,
          Option.none_or, Option.some.injEq]
        congr 1
        funext x
        by_cases hx : x = a
        · simp [hx, Body.value]
        · simp [hx, Ne.symm hx]
      · simp [WriteOp.onEntry, WriteOp.target, slotPlan, h, hkeep]
  | _ => simp [WriteOp.onEntry, WriteOp.opAddsEntry, WriteOp.target, slotPlan, hkeep]

/-- The log the attributes are read from knows the entries. -/
def Sourced (source : MetadataLog) (entries : Entries) : Prop :=
  ∀ i e, entries[i]? = some e → ∀ a, (forEachLiveAttr source i).lookup a = e.attrs a

theorem Entry.receive_name {type : TagType} (h : type.isName = true) (e : Entry) (id : ℕ)
    (body : Body) : e.receive ⟨type, id, body⟩ = { e with name := some (type, body) } := by
  cases type <;> first | rfl | cases h

theorem Entry.receive_struct {type : TagType} (h : type.isStruct = true) (e : Entry) (id : ℕ)
    (body : Body) : e.receive ⟨type, id, body⟩ = { e with struct := some (type, body) } := by
  cases type <;> first | rfl | cases h

/-- The attributes a rebuild copies are those of the entry that the plan does not
suppress. -/
theorem withAttrs_forEachLiveAttr {source : MetadataLog} {i : ℕ} {e : Entry}
    (hattrs : ∀ a, (forEachLiveAttr source i).lookup a = e.attrs a) (suppress : Option ℕ)
    (name struct : Option (TagType × Body)) :
    Entry.withAttrs ((forEachLiveAttr source i).filter fun r => suppress != some r.1)
        ⟨name, struct, fun _ => none⟩ =
      ⟨name, struct, fun a => if suppress = some a then none else e.attrs a⟩ := by
  have hsub : ∀ r ∈ (forEachLiveAttr source i).filter (fun r => suppress != some r.1),
      r.2 ≠ .removed := fun r hr => (mem_liveAttrsFrom r (List.mem_filter.1 hr).1).2
  have hnodup : (((forEachLiveAttr source i).filter fun r => suppress != some r.1).map
      Prod.fst).Nodup := nodup_liveAttrsFrom.sublist (List.filter_sublist.map _)
  obtain ⟨hname, hstruct⟩ := Entry.withAttrs_frame
    ((forEachLiveAttr source i).filter fun r => suppress != some r.1) ⟨name, struct, fun _ => none⟩
  have hval : ∀ a, (Entry.withAttrs ((forEachLiveAttr source i).filter fun r => suppress !=
      some r.1)
      ⟨name, struct, fun _ => none⟩).attrs a = if suppress = some a then none else e.attrs a := by
    intro a
    rw [Entry.withAttrs_attrs hnodup hsub, lookup_filter_fst fun a => suppress != some a,
      Option.or_none, hattrs]
    by_cases ha : suppress = some a <;> simp [ha]
  generalize Entry.withAttrs _ _ = out at hname hstruct hval
  obtain ⟨n, st, attrs⟩ := out
  simp only at hname hstruct hval
  rw [hname, hstruct, funext hval]

/-- The tags of one entry of a rebuild give what the slot plan makes of it. -/
theorem emitSlot_fills {source : MetadataLog} {i emitId : ℕ} {e : Entry}
    (hattrs : ∀ a, (forEachLiveAttr source i).lookup a = e.attrs a) (htyped : e.slot.Typed)
    {op : WriteOp} (hop : op.WritesName) {tags : List TagEntry}
    (h : emitSlot source e.slot (slotPlan op i) i emitId = .ok tags) :
    ∃ ts, tags = ⟨.create, emitId, .bytes []⟩ :: ts ∧ (∀ t ∈ ts, t.Fills emitId) ∧
      ts.foldl Entry.receive Entry.empty = (slotPlan op i).entry e := by
  obtain ⟨hextra, hover⟩ := slotPlan_types op (by rintro _ _ _ rfl; exact hop) i
  unfold emitSlot at h
  split at h
  · next nameType name structType structBody hn hs =>
    have htype : nameType.isName = true := htyped.name _ hn
    have hst : ((slotPlan op i).structOverride.getD
        (structType, structBody)).1.isStruct = true := by
      cases ho : (slotPlan op i).structOverride with
      | none => exact htyped.struct _ hs
      | some b => exact hover b ho
    cases h
    refine ⟨_, rfl, ?_, ?_⟩
    · intro t ht
      simp only [List.append_eq, List.nil_append, List.cons_append, List.append_assoc,
        List.mem_cons, List.mem_append, List.mem_map, Option.mem_toList] at ht
      rcases ht with rfl | ⟨n, hx, rfl⟩ | rfl | ht | ht
      · exact fills_name htype _ _
      · exact fills_name (hextra n hx) _ _
      · exact fills_struct hst _ _
      · exact attrTags_fills _ _ t ht
      · exact attrTags_fills _ _ t ht
    · have hname : e.name = some (nameType, name) := hn
      have hstruct : e.struct = some (structType, structBody) := hs
      have hfoldName : ∀ E : Entry, ((slotPlan op i).extraName.toList.map fun n =>
          (⟨n.1, emitId, n.2⟩ : TagEntry)).foldl Entry.receive E =
            { E with name := (slotPlan op i).extraName.or E.name } := by
        intro E
        cases hx : (slotPlan op i).extraName with
        | none => rfl
        | some n => exact Entry.receive_name (hextra n hx) E emitId n.2
      have hfoldStruct : ∀ E : Entry, E.receive
          ⟨((slotPlan op i).structOverride.getD (structType, structBody)).1, emitId,
            ((slotPlan op i).structOverride.getD (structType, structBody)).2⟩ =
          { E with struct := (slotPlan op i).structOverride.or e.struct } := by
        intro E
        rw [Entry.receive_struct hst, hstruct]
        cases (slotPlan op i).structOverride <;> rfl
      simp only [List.append_eq, List.nil_append, List.cons_append, List.append_assoc,
        List.foldl_cons, List.foldl_append, foldl_attrTags, Entry.receive_name htype, hfoldName]
      rw [SlotPlan.entry, ← withAttrs_forEachLiveAttr hattrs, hname]
      exact congrArg (Entry.withAttrs _) (congrArg (Entry.withAttrs _) (hfoldStruct _))
  · cases h

/-! ## A range of entries -/

/-- What an operation leaves of entries with ids from `i` on. -/
def WriteOp.survivors (op : WriteOp) (i : ℕ) (entries : Entries) : Entries :=
  (entries.zipIdx i).filterMap fun p => op.onEntry p.2 p.1

theorem WriteOp.survivors_cons (op : WriteOp) (i : ℕ) (e : Entry) (es : Entries) :
    op.survivors i (e :: es) = (op.onEntry i e).toList ++ op.survivors (i + 1) es := by
  rw [survivors, List.zipIdx_cons, List.filterMap_cons]
  cases op.onEntry i e <;> rfl

/-- The first slot of a rebuild is dropped, or contributes the tags of its entry. -/
theorem emitSlots_cons {source : MetadataLog} {i emitId last : ℕ} {e : Entry} {rest : List Slot}
    (hattrs : ∀ a, (forEachLiveAttr source i).lookup a = e.attrs a) (htyped : e.slot.Typed)
    {op : WriteOp} (hop : op.WritesName) {tags : List TagEntry}
    (h : emitSlots source op (e.slot :: rest) i emitId = .ok (tags, last)) :
    (op.onEntry i e = none ∧ emitSlots source op rest (i + 1) emitId = .ok (tags, last)) ∨
      ∃ ts more e', op.onEntry i e = some e' ∧
        tags = ⟨.create, emitId, .bytes []⟩ :: ts ++ more ∧ (∀ t ∈ ts, t.Fills emitId) ∧
        ts.foldl Entry.receive Entry.empty = e' ∧
        emitSlots source op rest (i + 1) (emitId + 1) = .ok (more, last) := by
  have hon := slotPlan_onEntry op i e
  rw [emitSlots] at h
  split_ifs at h with hdrop
  · rw [if_pos hdrop] at hon
    exact .inl ⟨hon, h⟩
  · rw [if_neg hdrop] at hon
    obtain ⟨tags', hslot, h⟩ := Logic.bind_eq_ok.1 h
    obtain ⟨⟨more, last'⟩, hmore, h⟩ := Logic.bind_eq_ok.1 h
    cases h
    obtain ⟨ts, rfl, hts, hfold⟩ := emitSlot_fills hattrs htyped hop hslot
    exact .inr ⟨ts, more, _, hon, rfl, hts, hfold, hmore⟩

/-- The tags of the surviving entries open them, and the last id is the one behind them. -/
theorem emitSlots_opens {source : MetadataLog} {op : WriteOp} (hop : op.WritesName)
    {es : Entries} {i emitId last : ℕ}
    (hattrs : ∀ k e, es[k]? = some e → ∀ a,
      (forEachLiveAttr source (i + k)).lookup a = e.attrs a)
    (htyped : ∀ e ∈ es, e.slot.Typed) {tags : List TagEntry}
    (h : emitSlots source op (es.map Entry.slot) i emitId = .ok (tags, last)) :
    last = emitId + (op.survivors i es).length ∧ Opens emitId tags (op.survivors i es) := by
  induction es generalizing i emitId tags with
  | nil =>
      cases h
      exact ⟨rfl, .nil last⟩
  | cons e es ih =>
      have hhead : ∀ a, (forEachLiveAttr source i).lookup a = e.attrs a := hattrs 0 e rfl
      have hrest : ∀ k e, es[k]? = some e → ∀ a,
          (forEachLiveAttr source (i + 1 + k)).lookup a = e.attrs a := by
        intro k x hx
        have hk := hattrs (k + 1) x hx
        rwa [show i + (k + 1) = i + 1 + k by omega] at hk
      have htyped' : ∀ e ∈ es, e.slot.Typed := fun x hx => htyped x (List.mem_cons_of_mem _ hx)
      rw [List.map_cons] at h
      rw [WriteOp.survivors_cons]
      rcases emitSlots_cons hhead (htyped e (List.mem_cons_self ..)) hop h with
        ⟨hon, h⟩ | ⟨ts, more, e', hon, rfl, hts, rfl, hmore⟩
      · rw [hon, Option.toList_none, List.nil_append]
        exact ih hrest htyped' h
      · obtain ⟨hlast, hopens⟩ := ih hrest htyped' hmore
        rw [hon, Option.toList_some, List.singleton_append, List.length_cons]
        exact ⟨by omega, .cons hts hopens⟩

/-- The surviving entries of a range. -/
theorem WriteOp.survivors_range (op : WriteOp) (entries : Entries) (lo hi : ℕ) :
    op.survivors lo ((entries.take hi).drop lo) =
      ((entries.zipIdx.take hi).drop lo).filterMap fun p => op.onEntry p.2 p.1 := by
  rw [survivors]
  congr 1
  apply List.ext_getElem?
  intro k
  simp only [List.getElem?_zipIdx, List.getElem?_drop, List.getElem?_take, Nat.zero_add]
  split_ifs
  · rfl
  · rfl

/-- The tags of a rebuilt range open that part of the operation's result. -/
theorem emitCompactRange_opens {source : MetadataLog} {slots : Roster Slot} {entries : Entries}
    (hlive : slots.live = entries.map Entry.slot) (hcount : slots.count = entries.length)
    (hsource : Sourced source entries) (htyped : ∀ e ∈ entries, e.slot.Typed) {op : WriteOp}
    (hop : op.WritesName) {lo hi : ℕ} {tags : List TagEntry}
    (h : emitCompactRange source slots op lo hi = .ok tags) :
    Opens 0 tags (op.part entries lo hi) := by
  unfold emitCompactRange at h
  obtain ⟨⟨body, last⟩, hbody, h⟩ := Logic.bind_eq_ok.1 h
  cases h
  rw [hlive, ← List.map_take, ← List.map_drop] at hbody
  have hattrs : ∀ k e, ((entries.take hi).drop lo)[k]? = some e → ∀ a,
      (forEachLiveAttr source (lo + k)).lookup a = e.attrs a := by
    intro k e he
    rw [List.getElem?_drop, List.getElem?_take] at he
    split_ifs at he
    exact hsource _ e he
  have htyped' : ∀ e ∈ (entries.take hi).drop lo, e.slot.Typed := fun e he =>
    htyped e (List.mem_of_mem_take (List.mem_of_mem_drop he))
  obtain ⟨hlast, hopens⟩ := emitSlots_opens hop hattrs htyped' hbody
  rw [WriteOp.part, hcount, ← WriteOp.survivors_range]
  refine hopens.append ?_
  split_ifs
  · rw [← hlast]
    exact op.newEntryTags_opens last
  · exact .nil _

end LittlefsPure
