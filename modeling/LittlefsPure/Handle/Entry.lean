import LittlefsPure.Handle.Chain
import LittlefsPure.Handle.Publish

/-!
# The entry of an open file

A handle has its file's pair and id from `open` and uses them for as long as it lives.  `Attached`
says that they are right: the path leads to the entry, and leads to it there.  What the entry
records is then read from the device by a lookup of the path, as any other reader would do it.

Two kinds of changes leave a handle attached.  The calls that write content touch none of the blocks
on the way to the entry, and the lookup is the same lookup.  The commit of the handle touches the
pair of its entry, stays in it, and changes the STRUCT of the entry; the lookup goes the same way
and finds the new STRUCT.

## Why the pairs on the way are apart

A pair on the way that shared a block with the pair of the entry would change with it.  Nothing
tells what it would then show, so the blocks of the two are to be distinct.  In a tree they are.
-/

namespace LittlefsPure

open FsM Logic

/-- The head and size that a layout gives to a handle. -/
def Layout.coordinates : Layout → ℕ × ℕ
  | .inline content => (noBlock, content.length)
  | .ctz head size => (head, size)

variable {g : Geometry} {s₀ s : Fs} {path : Path} {leaf : List Byte} {parent : BlockPair} {id : ℕ}

/-- The blocks on the way to the file. -/
def Fs.OnTheWay (g : Geometry) (s : Fs) (path : Path) (b : ℕ) : Prop :=
  s.device.OnTheWay g path.components s.root b

/-- The path leads to the entry of the file, in a pair that can be written and that shares no block
with the others on the way. -/
structure Attached (g : Geometry) (s : Fs) (path : Path) (leaf : List Byte) (parent : BlockPair)
    (id : ℕ) : Prop where
  leads : LeadsTo g s.device s.root path leaf parent id
  shows : ∃ entries tail, s.device.Shows g parent entries tail
  apart : ∀ p, s.device.Passes g path.components s.root p → p ≠ parent →
    (p.a ≠ parent.a ∧ p.a ≠ parent.b) ∧ p.b ≠ parent.a ∧ p.b ≠ parent.b

/-- A lookup of the path goes the same way. -/
structure SameWay (g : Geometry) (path : Path) (s₀ s : Fs) : Prop where
  root : s.root = s₀.root
  leads : ∀ p, s₀.device.Passes g path.components s₀.root p →
    Device.LeadsAs g path.components s₀.device s.device p

namespace SameWay

theorem passes (h : SameWay g path s₀ s) {p : BlockPair} :
    s.device.Passes g path.components s.root p ↔
      s₀.device.Passes g path.components s₀.root p := by
  rw [h.root]
  exact Device.passes_congr h.leads

theorem onTheWay (h : SameWay g path s₀ s) (b : ℕ) :
    s.OnTheWay g path b ↔ s₀.OnTheWay g path b := by
  rw [Fs.OnTheWay, h.root]
  exact Device.onTheWay_congr h.leads b

theorem attached (h : SameWay g path s₀ s) (ha : Attached g s₀ path leaf parent id)
    (hshows : ∃ entries tail, s.device.Shows g parent entries tail) :
    Attached g s path leaf parent id where
  leads := by
    rw [h.root]
    exact ha.leads.congr h.leads
  shows := hshows
  apart p hp hne := ha.apart p (h.passes.1 hp) hne

end SameWay

namespace Attached

theorem passes (h : Attached g s path leaf parent id) :
    s.device.Passes g path.components s.root parent := h.leads.passes.2

/-! ## Content is written -/

/-- Nothing on the way is touched. -/
theorem sameWay (hs : Undisturbed (s₀.OnTheWay g path) s₀ s) : SameWay g path s₀ s where
  root := hs.root
  leads p hp := Device.leadsAs_of_fetch (hs.fetch ⟨p, hp, .inl rfl⟩ ⟨p, hp, .inr rfl⟩)

theorem undisturbed (h : Attached g s₀ path leaf parent id)
    (hs : Undisturbed (s₀.OnTheWay g path) s₀ s) :
    Attached g s path leaf parent id ∧
      layoutAt g s.device s.root path = layoutAt g s₀.device s₀.root path := by
  have hway := sameWay hs
  have hfetch : s.device.fetch g parent = s₀.device.fetch g parent :=
    hs.fetch ⟨parent, h.passes, .inl rfl⟩ ⟨parent, h.passes, .inr rfl⟩
  have hattached : Attached g s path leaf parent id := by
    refine hway.attached h ?_
    obtain ⟨entries, tail, hne, hpair⟩ := h.shows
    exact ⟨entries, tail, hne, by rw [hfetch]; exact hpair⟩
  refine ⟨hattached, ?_⟩
  obtain ⟨pair, r, hpair, hr, -, -, hlayout⟩ := h.leads.layoutAt
  obtain ⟨pair', r', hpair', hr', -, -, hlayout'⟩ := hattached.leads.layoutAt
  rw [hfetch, hpair] at hpair'
  cases hpair'
  rw [hr] at hr'
  cases hr'
  rw [hlayout, hlayout']

/-! ## The entry is written -/

/-- The entry of the file, among those that its pair shows. -/
theorem entry (h : Attached g s path leaf parent id) {entries : Entries} {tail : Option TailLink}
    (hshows : s.device.Shows g parent entries tail) : ∃ e type body st,
      entries[id]? = some e ∧ e.name = some (type, body) ∧ type.entryKind = some .regularFile ∧
        e.struct = some st ∧
          layoutAt g s.device s.root path = fileLayout .regularFile st.1 st.2 := by
  obtain ⟨pair, r, hpair, hr, rfl, hkind, hlayout⟩ := h.leads.layoutAt
  obtain ⟨-, pair', hpair', htells⟩ := hshows
  rw [hpair] at hpair'
  cases hpair'
  obtain ⟨e, type, he, hname, htype, hstruct⟩ := htells.found hr
  exact ⟨e, type, _, _, he, hname, hkind ▸ htype, hstruct, hlayout⟩

/-- The pair of the entry shows another STRUCT for it. -/
theorem republished (h : Attached g s₀ path leaf parent id) {entries : Entries}
    {tail : Option TailLink} (hshows : s₀.device.Shows g parent entries tail)
    {st : TagType × Body}
    (hs : Republished g s₀ parent tail (entries.modify id (Entry.withStruct st)) s) :
    SameWay g path s₀ s ∧ Attached g s path leaf parent id ∧
      layoutAt g s.device s.root path = fileLayout .regularFile st.1 st.2 := by
  obtain ⟨e, type, body, st₀, he, hname, htype, hstruct, -⟩ := h.entry hshows
  obtain ⟨-, pair, hpair, htells⟩ := hshows
  obtain ⟨-, pair', hpair', htells'⟩ := hs.shows
  have hway : SameWay g path s₀ s := by
    refine ⟨hs.root, fun p hp => ?_⟩
    by_cases heq : p = parent
    · subst heq
      refine ⟨fun found hfound => ?_, fun e' he' => ?_⟩
      · rw [hpair] at hfound
        cases hfound
        exact ⟨pair', hpair', htells.leadsAs htells' he hname htype hstruct _⟩
      · rw [hpair] at he'
        cases he'
    · obtain ⟨⟨haa, hab⟩, hba, hbb⟩ := h.apart p hp heq
      have hsame : SameOn [p.a, p.b] s₀.device s.device := by
        refine ⟨fun x hx => ?_, hs.length⟩
        rcases List.mem_pair.1 hx with rfl | rfl
        · exact hs.other _ haa hab
        · exact hs.other _ hba hbb
      exact Device.leadsAs_of_fetch (hsame.fetch (List.mem_cons_self ..)
        (List.mem_cons_of_mem _ (List.mem_singleton_self _)) g)
  have hattached := hway.attached h ⟨_, _, hs.shows⟩
  refine ⟨hway, hattached, ?_⟩
  obtain ⟨e', -, -, st', he', -, -, hstruct', hlayout⟩ := hattached.entry hs.shows
  rw [List.getElem?_modify_eq, he] at he'
  cases he'
  cases hstruct'
  exact hlayout

/-- The pair of the entry shows what it did. -/
theorem kept (h : Attached g s₀ path leaf parent id) {entries : Entries} {tail : Option TailLink}
    (hshows : s₀.device.Shows g parent entries tail)
    (hs : Republished g s₀ parent tail entries s) :
    SameWay g path s₀ s ∧ Attached g s path leaf parent id ∧
      layoutAt g s.device s.root path = layoutAt g s₀.device s₀.root path := by
  obtain ⟨e, type, body, st, he, -, -, hstruct, hlayout⟩ := h.entry hshows
  have hsame : entries.modify id (Entry.withStruct st) = entries := by
    refine List.ext_getElem? fun k => ?_
    rw [List.getElem?_modify]
    by_cases hk : id = k
    · subst hk
      have he' : e.withStruct st = e := by
        rw [Entry.withStruct, ← hstruct]
      simp [he, he']
    · simp [hk]
  rw [hlayout]
  exact h.republished hshows (by rw [hsame]; exact hs)

end Attached

/-! ## Opening a file that is there -/

variable {depth : ℕ}

section Opened

variable {d : Device} {root owner : BlockPair} {l : Layout}

/-- A file that `resolve` finds has its entry at the owner of the name. -/
theorem exists_appendLayout (hdir : resolveParent g d root path = .ok (parent, leaf))
    (howner : ownerOf g d parent leaf = .ok owner) (hl : layoutAt g d root path = .ok l) :
    ∃ id, LeadsTo g d root path leaf owner id ∧
      appendLayout g d owner leaf = .ok (some (l, id)) := by
  obtain ⟨seek, hseek, howner⟩ := map_eq_ok.1 howner
  obtain ⟨r, hresolve, hlayout⟩ := bind_eq_ok.1 hl
  obtain ⟨at', hat, hleaf⟩ := bind_eq_ok.1 hresolve
  rw [resolveParent] at hdir
  rw [hdir] at hat
  cases hat
  change resolveLeafFrom g d (nameBody leaf) (chainFuel g) parent (.new parent) = .ok r at hleaf
  have hkind : r.entry.kind = .regularFile := by
    by_contra hkind
    unfold fileLayout at hlayout
    rw [if_pos hkind] at hlayout
    cases hlayout
  cases seek with
  | found q id kind =>
      obtain ⟨pair, r', hpair, hr', rfl, rfl, hsame⟩ := resolveLeafFrom_of_seek hseek
      cases howner
      rw [hsame] at hleaf
      cases hleaf
      refine ⟨r'.entry.id, ⟨parent, hdir, ?_⟩, ?_⟩
      · rw [← hkind]
        exact hseek
      · rw [appendLayout, hpair]
        simp only [bind, Except.bind, hr']
        rw [hlayout]
        rfl
  | absent last count =>
      rw [missed_of_seek hseek] at hleaf
      cases hleaf

/-- A file that is there when it is opened: the handle is attached to the entry, and unless it
truncates it has the head and size that the entry records. -/
theorem openFile_finds {options : OpenOptions} {s : Fs} {file : File} {l : Layout}
    (hopen : (openFile g depth path options s).result = .ok file)
    (hl : layoutAt g s.device s.root path = .ok l) :
    (openFile g depth path options s).state = s ∧
      (∃ leaf, LeadsTo g s.device s.root path leaf file.parent file.id) ∧
      file.dirty = options.truncate ∧
      (options.truncate = false → l.coordinates = (file.headBlock, file.size)) ∧
      (options.truncate = true → file.headBlock = noBlock ∧ file.size = 0) := by
  have htriple : Triple (fun _ => True) (fun _ => True) (fun s' => s' = s)
      (openFile g depth path options) (fun file s' => s' = s ∧
        (∃ leaf, LeadsTo g s.device s.root path leaf file.parent file.id) ∧
        file.dirty = options.truncate ∧
        (options.truncate = false → l.coordinates = (file.headBlock, file.size)) ∧
        (options.truncate = true → file.headBlock = noBlock ∧ file.size = 0))
      fun _ _ => True := by
    refine Triple.ite (fun _ => Triple.fail fun _ _ => True.intro) fun _ =>
      Triple.ite (fun _ => Triple.fail fun _ _ => True.intro) fun _ => ?_
    refine Triple.bind (R := fun p s' => s' = s ∧
      resolveParent g s.device s.root path = .ok p) (Triple.get_bind fun s₁ hs₁ => ?_) fun p =>
        Triple.pre fun hdir => ?_
    · subst hs₁
      exact Triple.query (fun s' p hs hp => ⟨hs, hs ▸ hp⟩) fun _ _ _ _ => True.intro
    obtain ⟨parent, leaf⟩ := p
    refine Triple.bind (R := fun owner s' => s' = s ∧
      ownerOf g s.device parent leaf = .ok owner)
      (Triple.query (fun s' p hs hp => ⟨hs, hs ▸ hp⟩) fun _ _ _ _ => True.intro) fun owner =>
        Triple.pre fun howner => ?_
    obtain ⟨id, hleads, happend⟩ := exists_appendLayout hdir howner hl
    refine Triple.bind (R := fun e s' => s' = s ∧ e.1 = owner ∧ e.2.1 = id ∧
      (options.truncate = false → l.coordinates = e.2.2)) ?_ fun e => Triple.pre ?_
    · refine Triple.bind (R := fun hit s' => s' = s ∧ hit = some (l, id))
        (Triple.query (fun s' hit hs hhit => ?_) fun _ _ _ _ => True.intro) fun hit =>
          Triple.pre ?_
      · subst hs
        exact ⟨rfl, Except.ok.inj (hhit.symm.trans happend)⟩
      rintro rfl
      cases l with
      | inline content =>
          refine Triple.ite (fun htruncate => Triple.pure fun s' hs =>
            ⟨hs, rfl, rfl, fun hno => ?_⟩) fun _ => Triple.fail fun _ _ => True.intro
          rw [htruncate] at hno
          cases hno
      | ctz head size => exact Triple.pure fun s' hs => ⟨hs, rfl, rfl, fun _ => rfl⟩
    · obtain ⟨owner', id', head, size⟩ := e
      rintro ⟨rfl, rfl, hcoordinates⟩
      refine Triple.pure fun s' hs => ⟨hs, ?_⟩
      cases htruncate : options.truncate with
      | false => exact ⟨⟨leaf, hleads⟩, rfl, fun _ => hcoordinates htruncate,
          fun h => by cases h⟩
      | true => exact ⟨⟨leaf, hleads⟩, rfl, fun h => (by cases h), fun _ => ⟨rfl, rfl⟩⟩
  exact htriple.returns rfl (fun _ _ => True.intro) hopen

end Opened

end LittlefsPure
