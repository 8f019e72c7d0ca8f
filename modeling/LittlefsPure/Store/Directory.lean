import LittlefsPure.Logic.Sessions
import LittlefsPure.Store.Commit

/-!
# The directory a chain stands for

A flat directory is a map from names to small files.  This is the object that the calls work
on; the entries of the chain, behind the superblock's, are one way to write it down.

## Why small files

A file whose content lies in its entry is written by the commit that names it.  So a call is one
commit, and the object can be a plain map from names to bytes and attributes.  A file with a chain
has content that is written before it is named, and what is left of it by a failure is a matter of
the allocator; `Chain` and `Inflight` are about these.
-/

namespace LittlefsPure

open Logic

/-! ## The object -/

/-- A small file: its content and its attributes. -/
structure SmallFile where
  content : List Byte
  attrs : ℕ → Option (List Byte)

/-- A flat directory. -/
abbrev FlatDir := List Byte → Option SmallFile

/-- What a call may do to a flat directory. -/
inductive FlatCall where
  | put (name content : List Byte)
  | append (name more : List Byte)
  | truncate (name : List Byte) (size : ℕ)
  | remove (name : List Byte)
  | rename (old new : List Byte)
  | setAttr (name : List Byte) (a : ℕ) (value : List Byte)
  | removeAttr (name : List Byte) (a : ℕ)
  /-- The handle is dropped and the device mounted again. -/
  | remount
  deriving DecidableEq, Repr

namespace FlatDir

/-- The content under a name; a missing file counts as empty. -/
def content (D : FlatDir) (name : List Byte) : List Byte := ((D name).map SmallFile.content).getD []

/-- A file under a name: it keeps the attributes of the one before it. -/
def put (D : FlatDir) (name content : List Byte) : FlatDir :=
  Function.update D name (some ⟨content, fun a => (D name).bind fun f => f.attrs a⟩)

/-- Change the attributes of a file. -/
def withAttr (D : FlatDir) (name : List Byte) (a : ℕ) (value : Option (List Byte)) : FlatDir :=
  Function.update D name <| (D name).map fun f =>
    ⟨f.content, fun x => if x = a then value else f.attrs x⟩

/-- A file gets another name. -/
def rename (D : FlatDir) (old new : List Byte) : FlatDir :=
  if old = new then D else Function.update (Function.update D old none) new (D old)

end FlatDir

/-- The calls on a flat directory. -/
def flatObject : Durable FlatCall FlatDir where
  Enabled
    | .put .., _ | .append .., _ | .truncate .., _ | .remount, _ => True
    | .remove name, D | .setAttr name .., D | .removeAttr name _, D => D name ≠ none
    | .rename old new, D => old = new ∨ D old ≠ none ∧ D new = none
  apply
    | .put name content, D => D.put name content
    | .append name more, D => if more = [] then D else D.put name (D.content name ++ more)
    | .truncate name size, D =>
        D.put name ((D.content name).take size ++
          List.replicate (size - (D.content name).length) 0)
    | .remove name, D => Function.update D name none
    | .rename old new, D => D.rename old new
    | .setAttr name a value, D => D.withAttr name a (some value)
    | .removeAttr name a, D => D.withAttr name a none
    | .remount, D => D

/-! ## Entries as a map -/

/-- The name of an entry as bytes. -/
def Entry.fileName (e : Entry) : Option (List Byte) := e.name.map fun n => n.2.content

/-- The file an entry stands for. -/
def Entry.file (e : Entry) : SmallFile :=
  ⟨(e.struct.map fun st => st.2.inlineBytes).getD [], fun a => (e.attrs a).map Body.inlineBytes⟩

/-- An entry of a small file. -/
structure Entry.IsFile (e : Entry) : Prop where
  name : ∃ name, e.name = some (.regularFile, .bytes name)
  struct : ∃ body, e.struct = some (.inlineStruct, body)

/-- The directory that some entries stand for. -/
def Entries.dir (files : Entries) : FlatDir := fun name =>
  (files.find? fun e => e.fileName == some name).map Entry.file

section Dir

variable {P Q files : Entries} {e e' : Entry} {name name' : List Byte}

theorem Entries.dir_eq_none : Entries.dir files name = none ↔
    ∀ e ∈ files, e.fileName ≠ some name := by
  rw [Entries.dir, Option.map_eq_none_iff, List.find?_eq_none]
  simp

/-- One entry more, with a name of its own. -/
theorem Entries.dir_insert (hname : e.fileName = some name)
    (hnew : ∀ x ∈ P, x.fileName ≠ some name) :
    Entries.dir (P ++ e :: Q) = Function.update (Entries.dir (P ++ Q)) name (some e.file) := by
  funext x
  by_cases hx : x = name
  · subst hx
    have hnone : (P.find? fun e => e.fileName == some x) = none := by
      rw [List.find?_eq_none]
      simpa using hnew
    rw [Function.update_self, Entries.dir, List.find?_append, hnone, Option.none_or,
      List.find?_cons_of_pos (by simp [hname])]
    rfl
  · have hskip : (e.fileName == some x) = false := by
      rw [hname, beq_eq_false_iff_ne, ne_eq, Option.some.injEq]
      exact Ne.symm hx
    rw [Function.update_of_ne hx, Entries.dir, Entries.dir, List.find?_append, List.find?_append,
      List.find?_cons, hskip]

/-- The entries of a directory have names of their own. -/
abbrev Entries.Distinct (files : Entries) : Prop := (files.map Entry.fileName).Nodup

theorem Entries.Distinct.others (h : Entries.Distinct (P ++ e :: Q))
    (hname : e.fileName = some name) :
    Entries.Distinct (P ++ Q) ∧ ∀ x ∈ P ++ Q, x.fileName ≠ some name := by
  rw [Entries.Distinct, List.map_append, List.map_cons] at h
  have hcons := (List.perm_middle.nodup_iff).1 h
  rw [List.nodup_cons, ← List.map_append] at hcons
  refine ⟨hcons.2, fun x hx heq => hcons.1 ?_⟩
  rw [hname, ← heq]
  exact List.mem_map_of_mem hx

theorem Entries.Distinct.insert (h : Entries.Distinct (P ++ Q)) (hname : e.fileName = some name)
    (hnew : ∀ x ∈ P ++ Q, x.fileName ≠ some name) : Entries.Distinct (P ++ e :: Q) := by
  rw [Entries.Distinct, List.map_append, List.map_cons]
  refine (List.perm_middle.nodup_iff).2 (List.nodup_cons.2 ⟨fun hmem => ?_, ?_⟩)
  · rw [← List.map_append] at hmem
    obtain ⟨x, hx, heq⟩ := List.mem_map.1 hmem
    exact hnew x hx (heq.trans hname)
  · rwa [← List.map_append]

/-- The directory without an entry. -/
theorem Entries.dir_erase (h : Entries.Distinct (P ++ e :: Q)) (hname : e.fileName = some name) :
    Entries.dir (P ++ Q) = Function.update (Entries.dir (P ++ e :: Q)) name none := by
  obtain ⟨-, hothers⟩ := h.others hname
  rw [Entries.dir_insert hname fun x hx => hothers x (List.mem_append_left _ hx),
    Function.update_idem, Function.update_eq_self_iff.2 (Entries.dir_eq_none.2 hothers).symm]

theorem Entries.dir_at (h : Entries.Distinct (P ++ e :: Q)) (hname : e.fileName = some name) :
    Entries.dir (P ++ e :: Q) name = some e.file := by
  obtain ⟨-, hothers⟩ := h.others hname
  rw [Entries.dir_insert hname fun x hx => hothers x (List.mem_append_left _ hx),
    Function.update_self]

/-- One entry gives way to another of the same name. -/
theorem Entries.dir_replace (h : Entries.Distinct (P ++ e :: Q)) (hname : e.fileName = some name)
    (hname' : e'.fileName = some name) :
    Entries.Distinct (P ++ e' :: Q) ∧
      Entries.dir (P ++ e' :: Q) =
        Function.update (Entries.dir (P ++ e :: Q)) name (some e'.file) := by
  obtain ⟨hdistinct, hothers⟩ := h.others hname
  have hP : ∀ x ∈ P, x.fileName ≠ some name := fun x hx => hothers x (List.mem_append_left _ hx)
  refine ⟨hdistinct.insert hname' hothers, ?_⟩
  rw [Entries.dir_insert hname' hP, Entries.dir_insert hname hP, Function.update_idem]

/-- An entry gets another name. -/
theorem Entries.dir_rename (h : Entries.Distinct (P ++ e :: Q)) (hname : e.fileName = some name)
    (hname' : e'.fileName = some name') (hfile : e'.file = e.file) (hne : name ≠ name')
    (hnew : Entries.dir (P ++ e :: Q) name' = none) :
    Entries.Distinct (P ++ e' :: Q) ∧
      Entries.dir (P ++ e' :: Q) = FlatDir.rename (Entries.dir (P ++ e :: Q)) name name' := by
  obtain ⟨hdistinct, -⟩ := h.others hname
  have hothers : ∀ x ∈ P ++ Q, x.fileName ≠ some name' := fun x hx =>
    Entries.dir_eq_none.1 hnew x (by
      rcases List.mem_append.1 hx with hx | hx
      · exact List.mem_append_left _ hx
      · exact List.mem_append_right _ (List.mem_cons_of_mem _ hx))
  refine ⟨hdistinct.insert hname' hothers, ?_⟩
  rw [Entries.dir_insert hname' fun x hx => hothers x (List.mem_append_left _ hx),
    Entries.dir_erase h hname, FlatDir.rename, if_neg hne, Entries.dir_at h hname, hfile]

end Dir

/-! ## Chains -/

/-- A chain that stands for a directory. -/
structure Depicts (g : Geometry) (chain : List Node) (files : Entries) : Prop where
  heads : ∀ n ∈ chain.head?, n.Heads g
  entries : chain.flatMap Node.entries = superEntry g :: files
  small : ∀ e ∈ files, e.IsFile
  distinct : files.Distinct

/-- Where a file stands in a chain. -/
structure Place (g : Geometry) (pre : List Node) (n : Node) (post : List Node) (files : Entries)
    (name : List Byte) (r : Resolved) (P : Entries) (e : Entry) (Q : Entries) : Prop where
  files : files = P ++ e :: Q
  isFile : e.IsFile
  named : e.fileName = some name
  kind : r.entry.kind = .regularFile
  struct : e.struct = some (r.structType, r.structBody)
  entry : n.entries[r.entry.id]? = some e
  other : n.entries.head? = some (superEntry g) → r.entry.id ≠ 0
  modified : ∀ f, pre.flatMap Node.entries ++ n.entries.modify r.entry.id f ++
    post.flatMap Node.entries = superEntry g :: (P ++ f e :: Q)
  erased : pre.flatMap Node.entries ++ n.entries.eraseIdx r.entry.id ++
    post.flatMap Node.entries = superEntry g :: (P ++ Q)

section Chains

variable {g : Geometry} {chain pre post mid : List Node} {n : Node} {files files' : Entries}
  {name : List Byte} {r : Resolved} {op : WriteOp} {e : Entry} {P Q : Entries}

theorem Entry.IsFile.hit (h : e.IsFile) (hname : e.fileName = some name) (i : ℕ) :
    ∃ r, e.slot.hit (nameBody name) i = some r := by
  obtain ⟨⟨name', hn⟩, body, hst⟩ := h
  have hcontent : name' = name := by
    rw [Entry.fileName, hn] at hname
    exact Option.some.inj hname
  refine ⟨⟨⟨i, .bytes name', .regularFile⟩, .inlineStruct, body⟩, Slot.hit_eq_some.2
    ⟨rfl, ⟨.regularFile, hn, rfl⟩, hcontent, hst⟩⟩

/-- The superblock is hidden from a search. -/
theorem superEntry_hit (g : Geometry) (name : Body) (i : ℕ) :
    (superEntry g).slot.hit name i = none :=
  rfl

theorem Node.find_eq_some {name : Body} (h : n.find name = some r) :
    ∃ e, n.entries[r.entry.id]? = some e ∧ e.slot.hit name r.entry.id = some r := by
  obtain ⟨⟨e, i⟩, hmem, hhit⟩ := List.exists_of_findSome?_eq_some h
  obtain ⟨hid, -⟩ := Slot.hit_eq_some.1 hhit
  have hi : r.entry.id = i := hid
  rw [List.mem_zipIdx_iff_getElem?] at hmem
  rw [hi]
  exact ⟨e, hmem, hhit⟩

theorem Node.find_eq_none {name : Body} (h : n.find name = none) :
    ∀ e ∈ n.entries, ∃ i, e.slot.hit name i = none := by
  intro e he
  obtain ⟨i, hi, rfl⟩ := List.mem_iff_getElem.1 he
  exact ⟨i, List.findSome?_eq_none_iff.1 h (n.entries[i], i)
    (List.mem_zipIdx_iff_getElem?.2 (List.getElem?_eq_getElem hi))⟩

namespace Depicts

/-- A name that no node has is the name of no file. -/
theorem absent (h : Depicts g chain files) (hnone : ∀ n ∈ chain, n.find (nameBody name) = none) :
    files.dir name = none := by
  rw [Entries.dir_eq_none]
  intro e he hname
  have hmem : e ∈ chain.flatMap Node.entries := by
    rw [h.entries]
    exact List.mem_cons_of_mem _ he
  obtain ⟨n, hn, hen⟩ := List.mem_flatMap.1 hmem
  obtain ⟨i, hi⟩ := Node.find_eq_none (hnone n hn) e hen
  obtain ⟨r, hr⟩ := (h.small e he).hit hname i
  rw [hi] at hr
  cases hr

/-- The entry that a search finds. -/
theorem found (h : Depicts g (pre ++ n :: post) files)
    (hfind : n.find (nameBody name) = some r) : ∃ P e Q, Place g pre n post files name r P e Q := by
  obtain ⟨e, hentry, hhit⟩ := Node.find_eq_some hfind
  obtain ⟨hlt, hget⟩ := List.getElem?_eq_some_iff.1 hentry
  have hsplit : n.entries = n.entries.take r.entry.id ++ e :: n.entries.drop (r.entry.id + 1) := by
    rw [← hget, ← List.drop_eq_getElem_cons hlt, List.take_append_drop]
  have hmod : ∀ f, n.entries.modify r.entry.id f =
      n.entries.take r.entry.id ++ f e :: n.entries.drop (r.entry.id + 1) := by
    intro f
    rw [List.modify_eq_take_cons_drop hlt, hget]
  have hchain := h.entries
  rw [List.flatMap_append, List.flatMap_cons, hsplit] at hchain
  -- the superblock comes first, and it is no file
  have hsuper : e ≠ superEntry g := by
    rintro rfl
    rw [superEntry_hit] at hhit
    cases hhit
  cases hfront : pre.flatMap Node.entries ++ n.entries.take r.entry.id with
  | nil =>
      rw [List.append_assoc, ← List.append_assoc (pre.flatMap _), hfront] at hchain
      exact absurd (List.cons.inj hchain).1 hsuper
  | cons x P =>
      have hcons : ∀ us : Entries, pre.flatMap Node.entries ++ (n.entries.take r.entry.id ++ us) ++
          post.flatMap Node.entries = x :: (P ++ (us ++ post.flatMap Node.entries)) := by
        intro us
        rw [← List.append_assoc (pre.flatMap _), hfront]
        simp only [List.cons_append, List.append_assoc]
      rw [← List.append_assoc, hcons] at hchain
      obtain ⟨rfl, hfiles⟩ := List.cons.inj hchain
      have hmem : e ∈ files := by
        rw [← hfiles]
        exact List.mem_append_right _ (List.mem_cons_self ..)
      have hisFile := h.small e hmem
      obtain ⟨-, ⟨type, hname, hkind⟩, hcontent, hstruct⟩ := Slot.hit_eq_some.1 hhit
      refine ⟨P, e, n.entries.drop (r.entry.id + 1) ++ post.flatMap Node.entries, hfiles.symm,
        hisFile, ?_, ?_, hstruct, hentry, ?_, fun f => ?_, ?_⟩
      · rw [Entry.fileName, show e.name = some (type, r.entry.name) from hname]
        exact congrArg some hcontent
      · obtain ⟨name', hn⟩ := hisFile.name
        have htype : type = .regularFile :=
          (Prod.mk.inj (Option.some.inj (hn.symm.trans hname))).1.symm
        rw [htype] at hkind
        exact (Option.some.inj hkind).symm
      · intro hhead hid
        rw [hid] at hentry
        rw [List.head?_eq_getElem?] at hhead
        exact hsuper (Option.some.inj (hentry.symm.trans hhead))
      · rw [hmod, hcons]
        rfl
      · rw [List.eraseIdx_eq_take_drop_succ, hcons]

/-- The chain behind a commit. -/
theorem replace (h : Depicts g (pre ++ n :: post) files) (hmid : n.Becomes g op mid)
    (hentries : pre.flatMap Node.entries ++ op.apply n.entries ++ post.flatMap Node.entries =
      superEntry g :: files') (hfiles : ∀ e ∈ files', e.IsFile) (hdistinct : files'.Distinct) :
    Depicts g (pre ++ mid ++ post) files' where
  heads := by
    obtain ⟨first, rest, rfl, -, hheads⟩ := hmid.head
    have hhead := h.heads
    cases pre with
    | nil =>
        intro m hm
        cases hm
        exact hheads (hhead n rfl)
    | cons m pre =>
        intro m' hm'
        cases hm'
        exact hhead m rfl
  entries := by
    rw [List.flatMap_append, List.flatMap_append, hmid.entries]
    exact hentries
  small := hfiles
  distinct := hdistinct

/-- A dirty window behind a log is nothing that the chain stands for. -/
theorem dirtied (h : Depicts g (pre ++ n :: post) files) :
    Depicts g (pre ++ n.dirtied :: post) files where
  heads := by
    have hhead := h.heads
    cases pre with
    | nil =>
        intro m hm
        cases hm
        exact ⟨(hhead n rfl).first, (hhead n rfl).labelled⟩
    | cons m pre =>
        intro m' hm'
        cases hm'
        exact hhead m rfl
  entries := by
    rw [← h.entries, List.flatMap_append, List.flatMap_append]
    rfl
  small := h.small
  distinct := h.distinct

end Depicts

namespace Place

variable (h : Place g pre n post files name r P e Q)
include h

theorem lt : r.entry.id < n.entries.length := (List.getElem?_eq_some_iff.1 h.entry).1

theorem target (hop : op.target = some r.entry.id) :
    n.entries.head? = some (superEntry g) → op.target ≠ some 0 := by
  intro hhead htarget
  rw [hop, Option.some.injEq] at htarget
  exact h.other hhead htarget

theorem dir_at (hdistinct : files.Distinct) : files.dir name = some e.file := by
  rw [h.files] at hdistinct ⊢
  exact Entries.dir_at hdistinct h.named

/-- A file is changed. -/
theorem change (hold : Depicts g (pre ++ n :: post) files) {f : Entry → Entry}
    (hop : op.target = some r.entry.id) (hadds : op.opAddsEntry = false)
    (hchange : ∀ e, op.change e = some (f e)) (hmid : n.Becomes g op mid) (hfile : (f e).IsFile)
    (hdistinct : Entries.Distinct (P ++ f e :: Q)) :
    Depicts g (pre ++ mid ++ post) (P ++ f e :: Q) := by
  refine hold.replace hmid ?_ ?_ hdistinct
  · rw [WriteOp.apply_modify hop hadds hchange]
    exact h.modified f
  · intro x hx
    have hfiles := hold.small
    rw [h.files] at hfiles
    rcases List.mem_append.1 hx with hx | hx
    · exact hfiles x (List.mem_append_left _ hx)
    rcases List.mem_cons.1 hx with rfl | hx
    · exact hfile
    · exact hfiles x (List.mem_append_right _ (List.mem_cons_of_mem _ hx))

/-- A file is removed. -/
theorem remove (hold : Depicts g (pre ++ n :: post) files)
    (hmid : n.Becomes g (.remove r.entry.id) mid) : Depicts g (pre ++ mid ++ post) (P ++ Q) := by
  have hdistinct := hold.distinct
  rw [h.files] at hdistinct
  refine hold.replace hmid ?_ (fun x hx => ?_) (hdistinct.others h.named).1
  · rw [WriteOp.apply_remove]
    exact h.erased
  · have hfiles := hold.small
    rw [h.files] at hfiles
    rcases List.mem_append.1 hx with hx | hx
    · exact hfiles x (List.mem_append_left _ hx)
    · exact hfiles x (List.mem_append_right _ (List.mem_cons_of_mem _ hx))

end Place

end Chains

end LittlefsPure
