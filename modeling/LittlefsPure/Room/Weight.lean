import LittlefsPure.Logic.Weighted
import LittlefsPure.Room.Append

/-!
# The live bytes of a log

A rebuild writes each live entry once: its `Create`, its NAME, its STRUCT and its live
attributes.  Every one of these tags is in the log already, so the live entries weigh no
more than the tags of the log that concern entries, and an operation adds to the weight no
more than the tags it emits.  The root is left out: `format` writes its first entry
without a `Create`.

## Why the live bytes

The log grows with every commit, and most of it is superseded.  What a rebuild writes depends on
the live part alone.  That the live part is never heavier than the log is an invariant of the log
and not of a moment: each tag adds to the log what it adds to the live part, or more.
-/

namespace LittlefsPure

open Entries Logic

/-! ## The weight of an entry -/

namespace Entry

/-- The size of the tag that carries a NAME or a STRUCT. -/
def partSize (part : Option (TagType × Body)) : ℕ := (part.map fun p => 4 + p.2.length).getD 0

/-- The size of an entry's `Create`, NAME and STRUCT. -/
def frameSize (e : Entry) : ℕ := 4 + partSize e.name + partSize e.struct

/-- However the attributes of an entry are listed, their tags take at most `w` bytes. -/
def AttrsWithin (e : Entry) (w : ℕ) : Prop :=
  ∀ attrs : StagedAttrs, (attrs.map Prod.fst).Nodup →
    (∀ r ∈ attrs, e.attrs r.1 = some r.2) → attrs.dsize ≤ w

/-- The live tags of an entry take at most `w` bytes. -/
def Within (e : Entry) (w : ℕ) : Prop := ∃ a, e.AttrsWithin a ∧ e.frameSize + a ≤ w

variable {e : Entry} {w : ℕ}

theorem AttrsWithin.congr {e' : Entry} (h : e.AttrsWithin w) (hattrs : e'.attrs = e.attrs) :
    e'.AttrsWithin w :=
  fun attrs hnodup hall => h attrs hnodup fun r hr => hattrs ▸ hall r hr

theorem attrsWithin_of_bare (h : e.attrs = fun _ => none) : e.AttrsWithin 0 := by
  intro attrs _ hall
  cases attrs with
  | nil => exact le_rfl
  | cons r attrs =>
      have hr := hall r List.mem_cons_self
      rw [h] at hr
      cases hr

theorem within_empty : Entry.empty.Within 4 := ⟨0, attrsWithin_of_bare rfl, le_rfl⟩

theorem Within.setName (h : e.Within w) (type : TagType) (body : Body) :
    ({ e with name := some (type, body) } : Entry).Within (w + (4 + body.length)) := by
  obtain ⟨a, ha, hle⟩ := h
  refine ⟨a, ha.congr rfl, ?_⟩
  simp only [frameSize, partSize, Option.map_some, Option.getD_some] at hle ⊢
  omega

theorem Within.setStruct (h : e.Within w) (type : TagType) (body : Body) :
    ({ e with struct := some (type, body) } : Entry).Within (w + (4 + body.length)) := by
  obtain ⟨a, ha, hle⟩ := h
  refine ⟨a, ha.congr rfl, ?_⟩
  simp only [frameSize, partSize, Option.map_some, Option.getD_some] at hle ⊢
  omega

/-- Of the attributes listed, the one that was set has the value it was set to, and the
others are as they were. -/
theorem AttrsWithin.setAttr (h : e.AttrsWithin w) (a : ℕ) (body : Body) :
    (e.setAttr a body).AttrsWithin (w + (4 + body.length)) := by
  intro attrs hnodup hall
  by_cases hmem : ∃ v, (a, v) ∈ attrs
  · obtain ⟨v, hv⟩ := hmem
    obtain ⟨front, back, rfl⟩ := List.append_of_mem hv
    have hvalue : v = body := by
      have hset := hall _ hv
      simp only [Entry.setAttr, if_true] at hset
      cases body <;> simp_all [Body.value]
    subst hvalue
    rw [List.map_append, List.map_cons, List.nodup_append] at hnodup
    obtain ⟨hfront, hback, hapart⟩ := hnodup
    rw [List.nodup_cons] at hback
    have hrest : ∀ r ∈ front ++ back, e.attrs r.1 = some r.2 := by
      intro r hr
      have hne : r.1 ≠ a := by
        rintro rfl
        rcases List.mem_append.1 hr with hr | hr
        · exact hapart _ (List.mem_map.2 ⟨r, hr, rfl⟩) _ List.mem_cons_self rfl
        · exact hback.1 (List.mem_map.2 ⟨r, hr, rfl⟩)
      have hset := hall r (by
        rcases List.mem_append.1 hr with hr | hr
        · exact List.mem_append_left _ hr
        · exact List.mem_append_right _ (List.mem_cons_of_mem _ hr))
      simpa [Entry.setAttr, hne] using hset
    have hkeys : ((front ++ back).map Prod.fst).Nodup := by
      rw [List.map_append, List.nodup_append]
      exact ⟨hfront, hback.2, fun x hx y hy => hapart x hx y (List.mem_cons_of_mem _ hy)⟩
    have hle := h _ hkeys hrest
    simp only [StagedAttrs.dsize, List.map_append, List.map_cons, List.sum_append,
      List.sum_cons] at hle ⊢
    omega
  · refine (h attrs hnodup fun r hr => ?_).trans (Nat.le_add_right _ _)
    have hne : r.1 ≠ a := by
      rintro rfl
      exact hmem ⟨r.2, hr⟩
    have hset := hall r hr
    simpa [Entry.setAttr, hne] using hset

theorem Within.setAttr (h : e.Within w) (a : ℕ) (body : Body) :
    (e.setAttr a body).Within (w + (4 + body.length)) := by
  obtain ⟨b, hb, hle⟩ := h
  refine ⟨b + (4 + body.length), hb.setAttr a body, ?_⟩
  show e.frameSize + _ ≤ _
  omega

/-- A tag that fills an entry in adds its own size. -/
theorem Within.receive (h : e.Within w) {t : TagEntry} {n : ℕ} (ht : t.Fills n) :
    (e.receive t).Within (w + t.dsize) := by
  obtain ⟨type, id, body⟩ := t
  obtain ⟨-, hname | hstruct | ⟨a, rfl⟩⟩ := ht
  · simp only at hname
    rw [Entry.receive_name hname]
    exact h.setName type body
  · simp only at hstruct
    rw [Entry.receive_struct hstruct]
    exact h.setStruct type body
  · exact h.setAttr a body

end Entry

/-! ## The weight of the entries of a log -/

/-- The live tags of the entries take at most `n` bytes. -/
abbrev Entries.Within (entries : Entries) (n : ℕ) : Prop := Weighted Entry.Within entries n

/-- Newly opened entries weigh no more than the tags that open them and fill them in. -/
theorem Opens.within {n : ℕ} {ts : List TagEntry} {entries : Entries} (h : Opens n ts entries) :
    entries.Within (tagsSize ts) := by
  induction h with
  | nil n => exact Weighted.nil
  | @cons n fs ts entries fills rest ih =>
      have hfill : ∀ {us : List TagEntry} {e : Entry} {w : ℕ}, (∀ t ∈ us, t.Fills n) →
          e.Within w → (us.foldl Entry.receive e).Within (w + tagsSize us) := by
        intro us
        induction us with
        | nil => exact fun _ he => he
        | cons t us ihus =>
            intro e w hus he
            rw [List.foldl_cons, tagsSize_cons, ← Nat.add_assoc]
            exact ihus (fun u hu => hus u (List.mem_cons_of_mem t hu))
              (he.receive (hus t List.mem_cons_self))
      have hall := Weighted.cons (hfill fills Entry.within_empty) ih
      refine hall.mono (le_of_eq ?_)
      rw [List.cons_append, tagsSize_cons, tagsSize_append]
      simp only [TagEntry.dsize, Body.length_bytes, List.length_nil]
      omega

/-- An operation adds to the weight no more than the tags it emits. -/
theorem Entries.Within.apply {entries : Entries} {n : ℕ} (h : entries.Within n) (op : WriteOp) :
    Entries.Within (op.apply entries) (n + tagsSize op.emitOp) := by
  have hadds : op.opAddsEntry = true ∨ op.target = none → (∃ id, op.emitOp = op.newEntryTags id) →
      Entries.Within (op.apply entries) (n + tagsSize op.emitOp) := by
    rintro hop ⟨id, hemit⟩
    rw [WriteOp.apply_of_adds hop, hemit]
    exact Weighted.append h (op.newEntryTags_opens id).within
  have hsize : ∀ {type : TagType} {id : ℕ} {body : Body},
      tagsSize [⟨type, id, body⟩] = 4 + body.length := fun {type id body} => by
    simp [TagEntry.dsize]
  cases op with
  | create id | createCtz id | createDir id => exact hadds (.inl rfl) ⟨id, rfl⟩
  | noop => exact hadds (.inr rfl) ⟨0, rfl⟩
  | remove id =>
      rw [WriteOp.apply_remove]
      exact (Weighted.eraseIdx h id).mono (Nat.le_add_right _ _)
  | update id content =>
      rw [WriteOp.apply_modify rfl rfl fun _ => rfl, WriteOp.emitOp, hsize]
      exact Weighted.modify h id fun e w he => he.setStruct _ _
  | updateCtz id head size =>
      rw [WriteOp.apply_modify rfl rfl fun _ => rfl, WriteOp.emitOp, hsize]
      exact Weighted.modify h id fun e w he => he.setStruct _ _
  | updateDirStruct id newPair =>
      rw [WriteOp.apply_modify rfl rfl fun _ => rfl, WriteOp.emitOp, hsize]
      exact Weighted.modify h id fun e w he => he.setStruct _ _
  | renameInPlace id nameType newName =>
      rw [WriteOp.apply_modify rfl rfl fun _ => rfl, WriteOp.emitOp, hsize]
      exact Weighted.modify h id fun e w he => he.setName _ _
  | setAttr id a value =>
      rw [WriteOp.apply_modify rfl rfl fun _ => rfl, WriteOp.emitOp, hsize]
      exact Weighted.modify h id fun e w he => he.setAttr _ _
  | removeAttr id a =>
      rw [WriteOp.apply_modify rfl rfl fun _ => rfl, WriteOp.emitOp, hsize]
      exact Weighted.modify h id fun e w he => he.setAttr _ _

end LittlefsPure
