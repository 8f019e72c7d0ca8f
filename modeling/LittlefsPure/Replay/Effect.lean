import LittlefsPure.Fs.WriteOp
import LittlefsPure.Replay.Attrs

/-!
# What an operation does to the entries

`WriteOp.apply` is the meaning of an operation on the entries of a pair.  An append
carries it out by the tags of `emit_op`, which the readers replay behind the log; a
rebuild writes the entries out again, each with the change the operation makes to
it.  Both come to `WriteOp.apply`, or run out of slots together.

A rebuild of a range of entries writes `WriteOp.part`, and consecutive ranges write
consecutive parts.

## Why a third meaning

That an append and a rebuild agree could be said of the two directly.  But they have nothing in
common to compare: one is a handful of tags behind a log, the other a new log of everything.  With
the meaning of the operation on entries between them each is compared with it alone, by its own
induction, and it is the meaning that the results about directories speak of.
-/

namespace LittlefsPure

open Entries

/-! ## The meaning of an operation -/

/-- Attributes set one after the other. -/
def Entry.withAttrs (attrs : StagedAttrs) (e : Entry) : Entry :=
  attrs.foldl (fun e r => e.setAttr r.1 r.2) e

namespace WriteOp

/-- The entry an operation brings into being. -/
def newEntry : WriteOp → Option Entry
  | .create _ name content attrs => some <|
      Entry.withAttrs attrs
        ⟨some (.regularFile, name), some (.inlineStruct, content), fun _ => none⟩
  | .createCtz _ name head size attrs => some <|
      Entry.withAttrs attrs
        ⟨some (.regularFile, name), some (.ctzStruct, .words [head, size]), fun _ => none⟩
  | .createDir _ name dirPair attrs => some <|
      Entry.withAttrs attrs
        ⟨some (.directory, name), some (.dirStruct, Body.ofPair dirPair), fun _ => none⟩
  | _ => none

/-- The id an operation is addressed to. -/
def target : WriteOp → Option ℕ
  | .create id .. | .createCtz id .. | .createDir id .. | .update id _ | .updateCtz id .. |
    .remove id | .renameInPlace id .. | .setAttr id .. | .removeAttr id _ |
    .updateDirStruct id _ => some id
  | .noop => none

/-- What an operation does to the entry it is addressed to; nothing is left of a removed
one. -/
def change : WriteOp → Entry → Option Entry
  | .update _ content, e => some { e with struct := some (.inlineStruct, content) }
  | .updateCtz _ head size, e => some { e with struct := some (.ctzStruct, .words [head, size]) }
  | .updateDirStruct _ newPair, e =>
      some { e with struct := some (.dirStruct, Body.ofPair newPair) }
  | .remove _, _ => none
  | .renameInPlace _ nameType newName, e => some { e with name := some (nameType, newName) }
  | .setAttr _ a value, e => some (e.setAttr a value)
  | .removeAttr _ a, e => some (e.setAttr a .removed)
  | _, e => some e

/-- What an operation leaves of the entry with id `i`. -/
def onEntry (op : WriteOp) (i : ℕ) (e : Entry) : Option Entry :=
  if op.target = some i ∧ op.opAddsEntry = false then op.change e else some e

/-- The meaning of an operation: the entry it is addressed to is changed, or a new one
comes to stand behind the others. -/
def apply (op : WriteOp) (entries : Entries) : Entries :=
  (entries.zipIdx.filterMap fun p => op.onEntry p.2 p.1) ++ op.newEntry.toList

/-- The entries with index in `[lo, hi)` after the operation, a new entry counting as the
last one. -/
def part (op : WriteOp) (entries : Entries) (lo hi : ℕ) : Entries :=
  (((entries.zipIdx.take hi).drop lo).filterMap fun p => op.onEntry p.2 p.1) ++
    if lo ≤ entries.length ∧ entries.length < hi then op.newEntry.toList else []

/-- The id of an operation names a live entry, or is the next free one if the operation
adds an entry. -/
def Addresses (op : WriteOp) (count : ℕ) : Prop :=
  ∀ id, op.target = some id → if op.opAddsEntry = true then id = count else id < count

theorem newEntry_isSome (op : WriteOp) : op.newEntry.isSome = op.opAddsEntry := by
  cases op <;> rfl

theorem newEntry_of_not_adds {op : WriteOp} (h : op.opAddsEntry = false) : op.newEntry = none := by
  rw [← Option.not_isSome_iff_eq_none, newEntry_isSome, h]
  exact Bool.false_ne_true

/-! ### Parts -/

/-- The number of entries an operation leaves or finds. -/
def total (op : WriteOp) (count : ℕ) : ℕ := count + if op.opAddsEntry then 1 else 0

/-- A part that covers everything. -/
theorem part_total (op : WriteOp) (entries : Entries) :
    op.part entries 0 (op.total entries.length) = op.apply entries := by
  have htake : entries.zipIdx.take (op.total entries.length) = entries.zipIdx := by
    refine List.take_of_length_le ?_
    rw [List.length_zipIdx, total]
    exact Nat.le_add_right _ _
  rw [part, apply, htake, List.drop_zero]
  cases hadds : op.opAddsEntry with
  | true => rw [if_pos ⟨Nat.zero_le _, by simp [total, hadds]⟩]
  | false =>
      rw [newEntry_of_not_adds hadds]
      simp

/-- Consecutive parts. -/
theorem part_append (op : WriteOp) (entries : Entries) {lo mid hi : ℕ} (hlo : lo ≤ mid)
    (hhi : mid ≤ hi) : op.part entries lo mid ++ op.part entries mid hi =
      op.part entries lo hi := by
  have hlen : entries.zipIdx.length = entries.length := List.length_zipIdx
  by_cases hmid : entries.length < mid
  · -- the first part reaches past the end
    have hrest : entries.zipIdx.drop mid = [] := List.drop_eq_nil_of_le (by omega)
    have htake : ∀ k, entries.length < k → entries.zipIdx.take k = entries.zipIdx :=
      fun k hk => List.take_of_length_le (by omega)
    simp only [part, htake mid hmid, htake hi (by omega), hrest, hmid, Nat.lt_of_lt_of_le hmid hhi,
      Nat.not_le_of_lt hmid, if_false, and_true, List.filterMap_nil, List.append_nil]
  · have hle : mid ≤ entries.length := Nat.le_of_not_lt hmid
    have hsplit : (entries.zipIdx.take mid).drop lo ++ (entries.zipIdx.take hi).drop mid =
        (entries.zipIdx.take hi).drop lo := by
      have htake : entries.zipIdx.take mid = (entries.zipIdx.take hi).take mid := by
        rw [List.take_take, Nat.min_eq_left hhi]
      rw [htake, ← List.drop_append_of_le_length, List.take_append_drop]
      rw [List.length_take, List.length_take]
      omega
    simp only [part, hmid, hle, Nat.le_trans hlo hle, true_and, and_false, if_false,
      List.append_nil]
    rw [← List.append_assoc, ← List.filterMap_append, hsplit]

/-! ### Changing and removing an entry -/

/-- An operation that changes the entry it is addressed to. -/
theorem apply_modify {op : WriteOp} {id : ℕ} {f : Entry → Entry} (hid : op.target = some id)
    (hadds : op.opAddsEntry = false) (hf : ∀ e, op.change e = some (f e)) (entries : Entries) :
    op.apply entries = entries.modify id f := by
  have hon : (fun p : Entry × ℕ => op.onEntry p.2 p.1) =
      fun p => some (if id = p.2 then f p.1 else p.1) := by
    funext p
    rw [onEntry, hid, hadds, hf]
    by_cases h : id = p.2 <;> simp [h]
  rw [apply, newEntry_of_not_adds hadds, hon, Option.toList_none, List.append_nil,
    List.filterMap_eq_map']
  apply List.ext_getElem?
  intro k
  rw [List.getElem?_map, List.getElem?_zipIdx, List.getElem?_modify]
  cases entries[k]? with
  | none => rfl
  | some e => simp

theorem filterMap_zipIdx_ne {entries : Entries} {k i : ℕ} (h : i < k) :
    ((entries.zipIdx k).filterMap fun p => if i = p.2 then none else some p.1) = entries := by
  induction entries generalizing k with
  | nil => rfl
  | cons e es ih =>
      have hne : i ≠ k := Nat.ne_of_lt h
      rw [List.zipIdx_cons, List.filterMap_cons]
      simp only [hne, if_false]
      rw [ih (Nat.lt_succ_of_lt h)]

theorem filterMap_zipIdx_eraseIdx {entries : Entries} {k i : ℕ} :
    ((entries.zipIdx k).filterMap fun p => if k + i = p.2 then none else some p.1) =
      entries.eraseIdx i := by
  induction entries generalizing k i with
  | nil => rfl
  | cons e es ih =>
      rw [List.zipIdx_cons, List.filterMap_cons]
      cases i with
      | zero =>
          simp only [Nat.add_zero, if_true, List.eraseIdx_cons_zero]
          exact filterMap_zipIdx_ne (Nat.lt_succ_self k)
      | succ i =>
          have hne : k + (i + 1) ≠ k := by omega
          have hshift : k + (i + 1) = k + 1 + i := by omega
          simp only [hne, if_false, List.eraseIdx_cons_succ]
          rw [hshift, ih]

/-- A removal. -/
theorem apply_remove (id : ℕ) (entries : Entries) :
    (WriteOp.remove id).apply entries = entries.eraseIdx id := by
  have hon : (fun p : Entry × ℕ => (WriteOp.remove id).onEntry p.2 p.1) =
      fun p => if 0 + id = p.2 then none else some p.1 := by
    funext p
    by_cases h : id = p.2 <;> simp [onEntry, target, opAddsEntry, change, h]
  rw [apply, hon, filterMap_zipIdx_eraseIdx]
  exact List.append_nil _

/-- An operation that leaves the entries there are alone. -/
theorem apply_of_adds {op : WriteOp} (h : op.opAddsEntry = true ∨ op.target = none)
    (entries : Entries) : op.apply entries = entries ++ op.newEntry.toList := by
  have hon : (fun p : Entry × ℕ => op.onEntry p.2 p.1) = fun p => some p.1 := by
    funext p
    rw [onEntry, if_neg]
    rintro ⟨htarget, hadds⟩
    rcases h with h | h
    · rw [h] at hadds
      cases hadds
    · rw [h] at htarget
      cases htarget
  rw [apply, hon, List.filterMap_eq_map', List.zipIdx_map_fst]

end WriteOp

/-! ## Replaying the tags of one entry -/

/-- A tag arrives at its entry. -/
def Entry.receive (e : Entry) (t : TagEntry) : Entry :=
  match t.tagType with
  | .regularFile | .directory | .superblock => e.setName t
  | .dirStruct | .inlineStruct | .ctzStruct => e.setStruct t
  | .userAttr a => e.setAttr a t.body
  | _ => e

/-- A tag that fills in the entry with id `n`. -/
structure TagEntry.Fills (n : ℕ) (t : TagEntry) : Prop where
  id : t.id = n
  kind : t.tagType.isName = true ∨ t.tagType.isStruct = true ∨ ∃ a, t.tagType = .userAttr a

namespace Entries

/-- The entries, if the slot array has room for them. -/
def checked (entries : Entries) : Except Error Entries :=
  if entries.length ≤ maxLiveEntries then .ok entries else .error .outOfRange

theorem checked_of_le {entries : Entries} (h : entries.length ≤ maxLiveEntries) :
    entries.checked = .ok entries := if_pos h

theorem modify_last (entries : Entries) (e : Entry) (f : Entry → Entry) :
    (entries ++ [e]).modify entries.length f = entries ++ [f e] := by
  induction entries with
  | nil => rfl
  | cons x xs ih => exact congrArg (x :: ·) ih

theorem applyTag_fills {entries : Entries} {e : Entry} {t : TagEntry}
    (ht : t.Fills entries.length) (hroom : entries.length < maxLiveEntries) :
    applyTag t (entries ++ [e]) = .ok (entries ++ [e.receive t]) := by
  obtain ⟨type, id, body⟩ := t
  obtain ⟨rfl, hkind⟩ := ht
  have hlt : entries.length < (entries ++ [e]).length := by simp
  rcases hkind with hname | hstruct | ⟨a, rfl⟩
  · rw [applyTag_name hname, if_neg (Nat.not_le_of_lt hroom), pad_of_lt hlt, modify_last]
    cases type <;> first | rfl | cases hname
  · rw [applyTag_struct hstruct, modify_last]
    cases type <;> first | rfl | cases hstruct
  · exact congrArg Except.ok (modify_last ..)

theorem play_fills {entries : Entries} {e : Entry} {ts : List TagEntry}
    (hts : ∀ t ∈ ts, t.Fills entries.length) (hroom : entries.length < maxLiveEntries) :
    play ts (entries ++ [e]) = .ok (entries ++ [ts.foldl Entry.receive e]) := by
  induction ts generalizing e with
  | nil => rfl
  | cons t ts ih =>
      rw [play_cons, applyTag_fills (hts t (List.mem_cons_self ..)) hroom]
      exact ih fun u hu => hts u (List.mem_cons_of_mem _ hu)

end Entries

/-- The tags of consecutive new entries, with ids from `n` on: each a `Create` and what
fills the entry in. -/
inductive Opens : ℕ → List TagEntry → Entries → Prop
  | nil (n : ℕ) : Opens n [] []
  | cons {n : ℕ} {ts more : List TagEntry} {entries : Entries} (fills : ∀ t ∈ ts, t.Fills n)
      (rest : Opens (n + 1) more entries) :
      Opens n (⟨.create, n, .bytes []⟩ :: ts ++ more)
        (ts.foldl Entry.receive Entry.empty :: entries)

namespace Opens

variable {n : ℕ} {ts us : List TagEntry} {entries more : Entries}

theorem append (h : Opens n ts entries) (h' : Opens (n + entries.length) us more) :
    Opens n (ts ++ us) (entries ++ more) := by
  induction h with
  | nil n => exact h'
  | @cons n fs ts entries fills rest ih =>
      have hshift : n + (Entry.empty :: entries).length = n + 1 + entries.length := by
        rw [List.length_cons]
        omega
      rw [List.append_assoc]
      refine .cons fills (ih ?_)
      rw [← hshift]
      exact h'

/-- The entries come to stand behind those there are, as far as the slot array has room. -/
theorem play (h : Opens n ts more) (hn : n = entries.length)
    (hle : entries.length ≤ maxLiveEntries) :
    Entries.play ts entries = checked (entries ++ more) := by
  induction h generalizing entries with
  | nil n =>
      rw [List.append_nil, checked_of_le hle]
      rfl
  | @cons n fs ts more fills rest ih =>
      subst hn
      have hsplit : ∀ e : Entry, entries ++ e :: more = entries ++ [e] ++ more := by simp
      rw [hsplit, play_append, play_cons]
      by_cases hroom : maxLiveEntries ≤ entries.length
      · have hfull : ∀ e : Entry, ¬ (entries ++ [e] ++ more).length ≤ maxLiveEntries := by
          intro e
          rw [List.length_append, List.length_append, List.length_singleton]
          omega
        rw [checked, if_neg (hfull _)]
        simp only [applyTag, if_pos hroom]
        rfl
      · have hopen : applyTag ⟨.create, entries.length, .bytes []⟩ entries =
            .ok (entries ++ [Entry.empty]) := by
          simp only [applyTag, if_neg hroom, if_neg (Nat.lt_irrefl _), List.insertIdx_length_self]
        rw [hopen]
        change (Entries.play fs (entries ++ [Entry.empty])).bind _ = _
        rw [play_fills fills (Nat.lt_of_not_le hroom)]
        refine ih ?_ ?_
        · rw [List.length_append, List.length_singleton]
        · rw [List.length_append, List.length_singleton]
          omega

end Opens

/-! ## The tags of an operation -/

theorem foldl_attrTags (id : ℕ) (attrs : StagedAttrs) (e : Entry) :
    (WriteOp.attrTags id attrs).foldl Entry.receive e = e.withAttrs attrs := by
  rw [WriteOp.attrTags, List.foldl_map]
  rfl

theorem attrTags_fills (id : ℕ) (attrs : StagedAttrs) :
    ∀ t ∈ WriteOp.attrTags id attrs, t.Fills id := by
  intro t ht
  obtain ⟨r, -, rfl⟩ := List.mem_map.1 ht
  exact ⟨rfl, .inr (.inr ⟨r.1, rfl⟩)⟩

theorem fills_name {type : TagType} (h : type.isName = true) (id : ℕ) (body : Body) :
    TagEntry.Fills id ⟨type, id, body⟩ := ⟨rfl, .inl h⟩

theorem fills_struct {type : TagType} (h : type.isStruct = true) (id : ℕ) (body : Body) :
    TagEntry.Fills id ⟨type, id, body⟩ := ⟨rfl, .inr (.inl h)⟩

namespace WriteOp

/-- The tags of a new entry open it and fill it in. -/
theorem newEntryTags_opens (op : WriteOp) (id : ℕ) :
    Opens id (op.newEntryTags id) op.newEntry.toList := by
  have hone : ∀ {ts : List TagEntry} {e : Entry}, (∀ t ∈ ts, t.Fills id) →
      ts.foldl Entry.receive Entry.empty = e → Opens id (⟨.create, id, .bytes []⟩ :: ts) [e] := by
    rintro ts e hts rfl
    have h := Opens.cons hts (.nil (id + 1))
    rwa [List.append_nil] at h
  cases op with
  | create _ name content attrs =>
      refine hone ?_ (foldl_attrTags id attrs _)
      exact List.forall_mem_cons.2 ⟨fills_name rfl id name,
        List.forall_mem_cons.2 ⟨fills_struct rfl id content, attrTags_fills id attrs⟩⟩
  | createCtz _ name head size attrs =>
      refine hone ?_ (foldl_attrTags id attrs _)
      exact List.forall_mem_cons.2 ⟨fills_name rfl id name,
        List.forall_mem_cons.2 ⟨fills_struct rfl id _, attrTags_fills id attrs⟩⟩
  | createDir _ name dirPair attrs =>
      refine hone ?_ (foldl_attrTags id attrs _)
      exact List.forall_mem_cons.2 ⟨fills_name rfl id name,
        List.forall_mem_cons.2 ⟨fills_struct rfl id _, attrTags_fills id attrs⟩⟩
  | _ => exact .nil id

theorem play_newEntryTags (op : WriteOp) {entries : Entries}
    (hle : entries.length ≤ maxLiveEntries) :
    play (op.newEntryTags entries.length) entries = checked (entries ++ op.newEntry.toList) :=
  (op.newEntryTags_opens entries.length).play rfl hle

/-- A renaming writes a NAME tag. -/
def WritesName : WriteOp → Prop
  | .renameInPlace _ nameType _ => nameType.isName = true
  | _ => True

/-- The tags of `emit_op` carry the operation out. -/
theorem play_emitOp {op : WriteOp} {entries : Entries} (hop : op.Addresses entries.length)
    (hname : op.WritesName) (hle : entries.length ≤ maxLiveEntries) :
    play op.emitOp entries = checked (op.apply entries) := by
  -- one tag that changes the entry it is addressed to
  have hchange : ∀ {t : TagEntry} {f : Entry → Entry}, op.emitOp = [t] →
      op.target = some t.id → op.opAddsEntry = false → (∀ e, op.change e = some (f e)) →
      entries.applyTag t = .ok (entries.modify t.id f) →
      play op.emitOp entries = checked (op.apply entries) := by
    intro t f hemit hid hadds hf happly
    rw [hemit, play_singleton, happly, apply_modify hid hadds hf, checked_of_le]
    rw [List.length_modify]
    exact hle
  cases op with
  | create id name content attrs =>
      obtain rfl : id = entries.length := hop id rfl
      rw [apply_of_adds (.inl rfl)]
      exact play_newEntryTags (.create _ name content attrs) hle
  | createCtz id name head size attrs =>
      obtain rfl : id = entries.length := hop id rfl
      rw [apply_of_adds (.inl rfl)]
      exact play_newEntryTags (.createCtz _ name head size attrs) hle
  | createDir id name dirPair attrs =>
      obtain rfl : id = entries.length := hop id rfl
      rw [apply_of_adds (.inl rfl)]
      exact play_newEntryTags (.createDir _ name dirPair attrs) hle
  | noop =>
      rw [apply_of_adds (.inr rfl)]
      exact play_newEntryTags .noop hle
  | update | updateCtz | updateDirStruct => exact hchange rfl rfl rfl (fun _ => rfl) rfl
  | setAttr | removeAttr => exact hchange rfl rfl rfl (fun _ => rfl) rfl
  | renameInPlace id nameType newName =>
      have hid : id < entries.length := hop id rfl
      have htype : nameType.isName = true := hname
      refine hchange rfl rfl rfl (fun _ => rfl) ?_
      rw [applyTag_name htype, if_neg (by simp only; omega), pad_of_lt hid]
      rfl
  | remove id =>
      have hid : ¬ entries.length ≤ id := Nat.not_le_of_lt (hop id rfl)
      rw [apply_remove, checked_of_le ((List.length_eraseIdx_le ..).trans hle)]
      simp only [emitOp, play_singleton, applyTag, if_neg hid]

end WriteOp

end LittlefsPure
