import LittlefsPure.Fs.Listing
import LittlefsPure.Store.Directory

/-!
# What reading shows

Every read of the public surface on a directory at rest is a function of the directory: the
content and the size of a file, its attributes, and the listing.  Where the blocks of the
chain stand, and how its entries are spread over the nodes, does not show.

## Why reads are answered by the map

The listing goes along the chain and lists what each node has, in the order of the ids; the lookups
stop at the first hit.  Both are functions of the entries, and the entries of all nodes together
are the directory, up to their order.  So a read cannot tell two devices apart on which the same
directory is at rest.
-/

namespace LittlefsPure

open FsM Logic

/-- A device that stands for a directory. -/
def Stores (g : Geometry) (root : BlockPair) (D : FlatDir) (d : Device) : Prop :=
  ∃ chain files, AtRest g d root chain ∧ Depicts g chain files ∧ files.dir = D

/-- The answer about a file, if there is one with the name. -/
def FlatDir.answer (D : FlatDir) (name : List Byte) {α : Type} (f : SmallFile → α) :
    Except Error α :=
  match D name with
  | some file => .ok (f file)
  | none => .error .notFound

section Reads

variable {g : Geometry} {d : Device} {root : BlockPair} {chain : List Node} {files : Entries}
  {D : FlatDir} {name : List Byte} {path : Path}

/-- The entry that a search along the chain comes to. -/
theorem Depicts.lookup (h : Depicts g chain files) (name : List Byte) :
    (chain.findSome? fun m => (m.find (nameBody name)).map fun r => (m, r)) = none ∧
        files.dir name = none ∨
      ∃ pre n post r P e Q, (chain.findSome? fun m =>
          (m.find (nameBody name)).map fun r => (m, r)) = some (n, r) ∧
        chain = pre ++ n :: post ∧ Place g pre n post files name r P e Q := by
  cases hfind : chain.findSome? fun m => (m.find (nameBody name)).map fun r => (m, r) with
  | none =>
      refine .inl ⟨rfl, h.absent fun n hn => ?_⟩
      exact Option.map_eq_none_iff.1 (List.findSome?_eq_none_iff.1 hfind n hn)
  | some x =>
      obtain ⟨pre, n, post, rfl, hn, -⟩ := List.findSome?_eq_some_iff.1 hfind
      obtain ⟨r, hr, rfl⟩ := Option.map_eq_some_iff.1 hn
      obtain ⟨P, e, Q, hplace⟩ := h.found hr
      exact .inr ⟨pre, n, post, r, P, e, Q, rfl, rfl, hplace⟩

/-! ## Content -/

/-- The layout of a file that a search has found. -/
theorem Place.layout {pre post : List Node} {n : Node} {r : Resolved} {P Q : Entries} {e : Entry}
    (h : Place g pre n post files name r P e Q) :
    fileLayout r.entry.kind r.structType r.structBody = .ok (.inline e.file.content) := by
  obtain ⟨body, hbody⟩ := h.isFile.struct
  have hstruct := h.struct
  rw [hbody, Option.some.injEq, Prod.mk.injEq] at hstruct
  obtain ⟨htype, hcontent⟩ := hstruct
  rw [h.kind, ← htype, ← hcontent, Entry.file, hbody]
  rfl

/-- A path of one component is looked up in the root. -/
theorem resolve_single (hpath : path.components = [name]) : resolve g d root path =
    resolveLeafFrom g d (nameBody name) (chainFuel g) root (.new root) := by
  rw [resolve, hpath]
  rfl

/-- A path of one component resolves to the file of that name. -/
theorem Stores.layoutAt (h : Stores g root D d) (hpath : path.components = [name]) :
    LittlefsPure.layoutAt g d root path = D.answer name fun f => .inline f.content := by
  obtain ⟨chain, files, hrest, hold, rfl⟩ := h
  rw [LittlefsPure.layoutAt, resolve_single hpath, hrest.leaf, FlatDir.answer]
  rcases hold.lookup name with ⟨hfind, hnone⟩ | ⟨pre, n, post, r, P, e, Q, hfind, -, hplace⟩
  · rw [hfind, hnone]
    rfl
  · rw [hfind, hplace.dir_at hold.distinct]
    exact hplace.layout

/-- `exists` tells whether there is a file of that name. -/
theorem Stores.existsAt (h : Stores g root D d) (hpath : path.components = [name]) :
    LittlefsPure.existsAt g d root path = .ok (D name).isSome := by
  obtain ⟨chain, files, hrest, hold, rfl⟩ := h
  rw [LittlefsPure.existsAt, resolve_single hpath, hrest.leaf]
  rcases hold.lookup name with ⟨hfind, hnone⟩ | ⟨pre, n, post, r, P, e, Q, hfind, -, hplace⟩
  · rw [hfind, hnone]
    rfl
  · rw [hfind, hplace.dir_at hold.distinct]
    rfl

/-- `read_at_path` returns the asked part of the content. -/
theorem Stores.readAtPath (h : Stores g root D d) (hpath : path.components = [name])
    (off len : ℕ) : LittlefsPure.readAtPath g d root path off len =
      D.answer name fun f => (f.content.drop off).take len := by
  rw [LittlefsPure.readAtPath, h.layoutAt hpath, FlatDir.answer, FlatDir.answer]
  cases D name <;> rfl

/-- `size_of` returns the length of the content. -/
theorem Stores.sizeOf (h : Stores g root D d) (hpath : path.components = [name]) :
    LittlefsPure.sizeOf g d root path = D.answer name fun f => f.content.length := by
  rw [LittlefsPure.sizeOf, h.layoutAt hpath, FlatDir.answer, FlatDir.answer]
  cases D name <;> rfl

/-- The size a missing file counts with is zero. -/
theorem Stores.currentSize (h : Stores g root D d) (hpath : path.components = [name]) :
    LittlefsPure.currentSize g d root path = .ok (D.content name).length := by
  rw [LittlefsPure.currentSize, h.sizeOf hpath, FlatDir.answer, FlatDir.content]
  cases D name <;> rfl

/-- What `truncate_path` keeps of a file. -/
theorem Stores.kept (h : Stores g root D d) (hpath : path.components = [name]) {size : ℕ}
    {kept : List Byte} (hkept : (if 0 < min size (D.content name).length then
      LittlefsPure.readAtPath g d root path 0 (min size (D.content name).length)
      else .ok []) = .ok kept) : kept = (D.content name).take size := by
  rw [h.readAtPath hpath, FlatDir.answer, FlatDir.content] at hkept
  rw [FlatDir.content]
  cases hname : D name with
  | none =>
      rw [hname, Option.map_none, Option.getD_none, List.length_nil, Nat.min_zero,
        if_neg (Nat.lt_irrefl 0)] at hkept
      rw [← Except.ok.inj hkept, Option.map_none, Option.getD_none, List.take_nil]
  | some f =>
      rw [hname] at hkept
      simp only [Option.map_some, Option.getD_some, List.drop_zero] at hkept ⊢
      split_ifs at hkept with hpos
      · rw [← Except.ok.inj hkept, List.take_eq_take_iff]
        omega
      · rw [← Except.ok.inj hkept, eq_comm, List.take_eq_nil_iff, ← List.length_eq_zero_iff]
        omega

/-- What `append_to_path` finds of a name. -/
theorem Stores.appendLayout (h : Stores g root D d) (name : List Byte) :
    ∃ owner, ownerOf g d root name = .ok owner ∧
      (LittlefsPure.appendLayout g d owner name = .ok none ∧ D.content name = [] ∨
        ∃ id, LittlefsPure.appendLayout g d owner name =
          .ok (some (.inline (D.content name), id))) := by
  obtain ⟨chain, files, hrest, hold, rfl⟩ := h
  obtain ⟨found, hseek, hcase⟩ := hrest.seek (nameBody name)
  have hnoFile : ∀ n ∈ chain, n.find (nameBody name) = none →
      LittlefsPure.appendLayout g d n.pair name = .ok none := by
    intro n hn hfind
    rw [LittlefsPure.appendLayout, hrest.fetch hn]
    simp only [bind, Except.bind, (hrest.stands n hn).lookup, hfind]
    rfl
  have hfile : ∀ n ∈ chain, ∀ r l, n.find (nameBody name) = some r →
      fileLayout r.entry.kind r.structType r.structBody = .ok l →
      LittlefsPure.appendLayout g d n.pair name = .ok (some (l, r.entry.id)) := by
    intro n hn r l hfind hlayout
    rw [LittlefsPure.appendLayout, hrest.fetch hn]
    simp only [bind, Except.bind, (hrest.stands n hn).lookup, hfind, hlayout]
    rfl
  refine ⟨_, by rw [ownerOf, hseek]; rfl, ?_⟩
  cases hcase with
  | absent pre n hchain hnone =>
      subst hchain
      refine .inl ⟨?_, by rw [FlatDir.content, hold.absent hnone]; rfl⟩
      exact hnoFile n (AtRest.mem_mid pre n []) (hnone n (AtRest.mem_mid pre n []))
  | found pre n post r hchain hpre hfind =>
      subst hchain
      obtain ⟨P, e, Q, hplace⟩ := hold.found hfind
      refine .inr ⟨r.entry.id, hfile n (AtRest.mem_mid pre n post) r _ hfind ?_⟩
      rw [FlatDir.content, hplace.dir_at hold.distinct]
      exact hplace.layout

/-! ## Attributes -/

theorem entryAt_run {s : Fs} (hpath : path.components = [name]) :
    entryAt g path s = match seekEntryInChain g s.device s.root (nameBody name) with
      | .ok (.found pair id _) => ⟨.ok (pair, id), s, []⟩
      | .ok (.absent ..) => ⟨.error .notFound, s, []⟩
      | .error e => ⟨.error e, s, []⟩ := by
  have hparent : parentOf g path s = ⟨.ok (s.root, name), s, []⟩ := by
    rw [parentOf, get_bind_calm]
    refine query_run ?_
    rw [resolveParent, hpath]
    rfl
  rw [entryAt, Program.bind_silent hparent]
  show ((query fun d => seekEntryInChain g d s.root (nameBody name)) >>= _) s = _
  cases hseek : seekEntryInChain g s.device s.root (nameBody name) with
  | error e => exact Program.bind_of_error (congrArg (fun r => r) hseek)
  | ok found =>
      rw [Program.bind_silent (query_run
        (f := fun d => seekEntryInChain g d s.root (nameBody name)) hseek)]
      cases found <;> rfl

/-- `get_attr` returns the value of the attribute, and changes nothing. -/
theorem Stores.getAttr {s : Fs} (h : Stores g s.root D s.device) (hpath : path.components = [name])
    (a : ℕ) : LittlefsPure.getAttr g path a s =
      ⟨D.answer name fun f => (f.attrs a).getD [], s, []⟩ := by
  obtain ⟨chain, files, hrest, hold, rfl⟩ := h
  obtain ⟨found, hseek, hcase⟩ := hrest.seek (nameBody name)
  rw [LittlefsPure.getAttr, FlatDir.answer]
  have hentry := entryAt_run (g := g) (s := s) hpath
  rw [hseek] at hentry
  cases hcase with
  | absent pre n hchain hnone =>
      rw [hold.absent hnone, Program.bind_of_error (e := .notFound) (by rw [hentry]), hentry]
  | found pre n post r hchain hpre hfind =>
      subst hchain
      obtain ⟨P, e, Q, hplace⟩ := hold.found hfind
      have hn := AtRest.mem_mid pre n post
      have hstand := hrest.stands n hn
      have hattr := (hstand.carries.lists hstand.room).attrs _ _ hplace.entry a
      rw [hplace.dir_at hold.distinct, Program.bind_silent (a := (n.pair, r.entry.id)) hentry]
      show (fetchPair g n.pair >>= _) s = _
      rw [fetchPair, Program.bind_silent (query_run (hrest.fetch hn))]
      simp only [hattr, Entry.file]
      cases e.attrs a <;> rfl

/-! ## Listing -/

theorem Node.listing_names (n : Node) : n.listing.map (fun e => (e.name.content, e.kind)) =
    n.entries.filterMap fun e => e.slot.listed.map fun x => (x.1.content, x.2) := by
  conv_rhs => rw [← List.zipIdx_map_fst 0 n.entries, List.filterMap_map]
  rw [Node.listing, List.map_filterMap]
  refine congrArg (List.filterMap · _) (funext fun x => ?_)
  rw [Option.map_map]
  rfl

/-- What a listing shows of a chain are the names of its files. -/
theorem Depicts.listing (h : Depicts g chain files) :
    (chain.flatMap Node.listing).map (fun e => (e.name.content, e.kind)) =
      files.map fun e => (e.fileName.getD [], EntryKind.regularFile) := by
  have hfile : ∀ e ∈ files, (e.slot.listed.map fun x => (x.1.content, x.2)) =
      some (e.fileName.getD [], EntryKind.regularFile) := by
    intro e he
    obtain ⟨name, hname⟩ := (h.small e he).name
    simp only [Slot.listed, Entry.slot, Entry.fileName, hname]
    rfl
  rw [List.map_flatMap]
  simp only [Node.listing_names]
  rw [← List.filterMap_flatMap, h.entries, List.filterMap_cons_none rfl,
    List.filterMap_congr hfile]
  exact congrFun List.filterMap_eq_map' files

/-- A listing shows each file of the directory once, under its name. -/
theorem Stores.list (h : Stores g root D d) : ∃ es, listPairChain g d root = .ok es ∧
    (es.map fun e => e.name.content).Nodup ∧ (∀ e ∈ es, e.kind = .regularFile) ∧
    ∀ name, (∃ e ∈ es, e.name.content = name) ↔ D name ≠ none := by
  obtain ⟨chain, files, hrest, hold, rfl⟩ := h
  refine ⟨_, hrest.list, ?_⟩
  have hlisting := hold.listing
  generalize chain.flatMap Node.listing = es at hlisting ⊢
  have hnames : (es.map fun e => e.name.content).map some = files.map Entry.fileName := by
    have hfst := congrArg (List.map fun x => some x.1) hlisting
    rw [List.map_map, List.map_map] at hfst
    rw [List.map_map]
    refine hfst.trans (List.map_congr_left fun e he => ?_)
    obtain ⟨name, hname⟩ := (hold.small e he).name
    simp only [Function.comp, Entry.fileName, hname]
    rfl
  refine ⟨List.Nodup.of_map some (hnames ▸ hold.distinct), fun e he => ?_, fun name => ?_⟩
  · have hmem := List.mem_map_of_mem (f := fun e : DirEntry => (e.name.content, e.kind)) he
    rw [hlisting] at hmem
    obtain ⟨x, -, hx⟩ := List.mem_map.1 hmem
    exact (congrArg Prod.snd hx).symm
  · rw [Ne, Entries.dir_eq_none]
    push Not
    have hmem : (∃ e ∈ es, e.name.content = name) ↔
        some name ∈ (es.map fun e => e.name.content).map some := by
      simp
    rw [hmem, hnames, List.mem_map]

end Reads

end LittlefsPure
