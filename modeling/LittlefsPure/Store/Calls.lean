import LittlefsPure.Store.Reads

/-!
# The calls on a flat directory

Each call on a file of the root, at a path of one component or by its name: when it returns,
the directory has become what the call makes of it; when it fails, the directory is what it
was; and whatever a power cut leaves in between still stands for the directory as it was.

## Why each call has three ends

A call on a file is a search, perhaps a commit, and an answer.  What it does to the directory is
done by the commit, so the three ends of the call are those of the commit: it has returned, it has
failed, or it was cut off.  `Does` says all three at once, and the calls are put together from it
with the searches in front, which change nothing.
-/

namespace LittlefsPure

open FsM Logic

/-- A state that stands for a directory. -/
def Shows (g : Geometry) (root : BlockPair) (D : FlatDir) (s : Fs) : Prop :=
  ∃ chain files, Rested g root chain s ∧ Depicts g chain files ∧ files.dir = D

/-- A program carries out a call on the directory. -/
def Does (g : Geometry) (root : BlockPair) (D : FlatDir) {α : Type} (m : FsM α) (c : FlatCall) :
    Prop :=
  Triple Event.WithinLimits (Event.Survives g (Stores g root D)) (Shows g root D) m
    (fun _ s => flatObject.Enabled c D ∧ Shows g root (flatObject.apply c D) s)
    (fun _ s => Shows g root D s)

/-- A search has found a file. -/
def Finds (g : Geometry) (root : BlockPair) (D : FlatDir) (name : List Byte) (pair : BlockPair)
    (id : ℕ) (s : Fs) : Prop :=
  ∃ pre n post files r P e Q, Rested g root (pre ++ n :: post) s ∧
    Depicts g (pre ++ n :: post) files ∧ files.dir = D ∧ Place g pre n post files name r P e Q ∧
    n.pair = pair ∧ r.entry.id = id

/-- A search has come to the end of the chain. -/
def Misses (g : Geometry) (root : BlockPair) (D : FlatDir) (name : List Byte) (pair : BlockPair)
    (count : ℕ) (s : Fs) : Prop :=
  ∃ pre n files, Rested g root (pre ++ [n]) s ∧ Depicts g (pre ++ [n]) files ∧ files.dir = D ∧
    D name = none ∧ n.pair = pair ∧ n.entries.length = count

section Calls

variable {g : Geometry} {root : BlockPair} {D : FlatDir} {s s' : Fs} {name : List Byte}
  {pair : BlockPair} {id count : ℕ} {K O : Event → Prop}

theorem Rested.shows {chain : List Node} {files : Entries} (h : Rested g root chain s)
    (hold : Depicts g chain files) : Shows g root files.dir s := ⟨chain, files, h, hold, rfl⟩

theorem Shows.stores (h : Shows g root D s) : Stores g root D s.device := by
  obtain ⟨chain, files, hs, hold, hdir⟩ := h
  exact ⟨chain, files, hs.rest, hold, hdir⟩

theorem Shows.from_root (h : Shows g root D s) : s.root = root := by
  obtain ⟨chain, files, hs, -⟩ := h
  exact hs.from_root

theorem Finds.shows (h : Finds g root D name pair id s) : Shows g root D s := by
  obtain ⟨pre, n, post, files, r, P, e, Q, hs, hold, hdir, -⟩ := h
  exact ⟨_, files, hs, hold, hdir⟩

theorem Misses.shows (h : Misses g root D name pair count s) : Shows g root D s := by
  obtain ⟨pre, n, files, hs, hold, hdir, -⟩ := h
  exact ⟨_, files, hs, hold, hdir⟩

theorem Shows.account (h : Shows g root D s)
    (hframe : s' = { s with unpublished := s'.unpublished }) : Shows g root D s' := by
  obtain ⟨chain, files, hs, hold, hdir⟩ := h
  exact ⟨chain, files, hs.account hframe, hold, hdir⟩

/-- A state without the allocator's bitmap. -/
theorem Shows.invalidated (h : Shows g root D s) : Shows g root D { s with usedCache := none } := by
  obtain ⟨chain, files, hs, hold, hdir⟩ := h
  exact ⟨chain, files, ⟨hs.calm, hs.from_root, hs.rest, nofun⟩, hold, hdir⟩

theorem triple_invalidate {E : Error → Fs → Prop} :
    Triple K O (Shows g root D) invalidateAllocCache (fun _ => Shows g root D) E :=
  Triple.modify fun _ hs => hs.invalidated

/-! ## Searching -/

/-- A search of the root finds the file, or none has the name. -/
theorem triple_seek {P : Fs → Prop} {E : Error → Fs → Prop} (hP : ∀ s, P s → Shows g root D s)
    (hE : ∀ e s, P s → E e s) (name : List Byte) :
    Triple K O P (query fun d => seekEntryInChain g d root (nameBody name))
      (fun found s => P s ∧ match found with
        | .found pair id kind => kind = .regularFile ∧ Finds g root D name pair id s
        | .absent pair count => Misses g root D name pair count s) E := by
  refine Triple.query (fun s found hs h => ⟨hs, ?_⟩) fun e s hs _ => hE _ _ hs
  obtain ⟨chain, files, hguarded, hold, hdir⟩ := hP s hs
  obtain ⟨found', hseek, hcase⟩ := hguarded.rest.seek (nameBody name)
  cases Except.ok.inj (h.symm.trans hseek)
  cases hcase with
  | found pre n post r hchain hpre hfind =>
      subst hchain
      obtain ⟨P, e, Q, hplace⟩ := hold.found hfind
      exact ⟨hplace.kind, pre, n, post, files, r, P, e, Q, hguarded, hold, hdir, hplace, rfl, rfl⟩
  | absent pre n hchain hnone =>
      have habsent := hold.absent hnone
      subst hchain
      exact ⟨pre, n, files, hguarded, hold, hdir, hdir ▸ habsent, rfl, rfl⟩

/-- The parent of a path of one component is the root. -/
theorem triple_parentOf {P : Fs → Prop} {E : Error → Fs → Prop} (hP : ∀ s, P s → s.root = root)
    {path : Path} (hpath : path.components = [name]) :
    Triple K O P (parentOf g path) (fun out s => P s ∧ out = (root, name)) E := by
  have hparent : ∀ d, resolveParent g d root path = .ok (root, name) := by
    intro d
    rw [resolveParent, hpath]
    rfl
  refine Triple.get_bind fun s₀ hs₀ => Triple.query (fun s out hs h => ?_) fun s e hs h => ?_
  · subst hs
    change resolveParent g s.device s.root path = _ at h
    rw [hP s hs₀, hparent] at h
    exact ⟨hs₀, (Except.ok.inj h).symm⟩
  · subst hs
    change resolveParent g s.device s.root path = _ at h
    rw [hP s hs₀, hparent] at h
    cases h

/-! ## Changing -/

variable (depth : ℕ) (hcycles : g.blockCycles ≤ 0)
include hcycles

/-- A commit on a node of a chain that stands for a directory. -/
theorem triple_applyOp {pre post : List Node} {n : Node} {op : WriteOp} {files : Entries}
    (hold : Depicts g (pre ++ n :: post) files) (hop : n.Takes g op)
    (hpos : 0 < op.total n.entries.length) :
    Triple Event.WithinLimits (Event.Survives g (Stores g root files.dir))
      (Rested g root (pre ++ n :: post)) (applyOpToPair g depth n.pair op)
      (fun _ s => Committed g root pre n post op s)
      (fun _ s => Shows g root files.dir s) := by
  cases depth with
  | zero => exact Triple.fail fun s hs => hs.shows hold
  | succ depth =>
      refine ((triple_commitWith_calm hcycles _ hop hpos).oblige fun _ =>
        Event.Survives.mono fun d hd => ?_).conseq (fun _ => id) (fun _ _ => id)
          fun _ s hs => hs.shows hold
      rcases hd with hd | hd
      · exact ⟨_, files, hd, hold, rfl⟩
      · exact ⟨_, files, hd, hold.dirtied, rfl⟩

/-- An operation that changes a file where it stands. -/
theorem triple_change {op : WriteOp} {f : Entry → Entry} {c : FlatCall}
    (htarget : op.target = some id) (hadds : op.opAddsEntry = false)
    (hchange : ∀ e, op.change e = some (f e)) (hnames : op.WritesName)
    (hformed : id < maxLiveEntries → op.WellFormed) (hinline : op.InlineOnly)
    (hc : ∀ P e Q, e.IsFile → e.fileName = some name → Entries.Distinct (P ++ e :: Q) →
      Entries.dir (P ++ e :: Q) = D → flatObject.Enabled c D ∧ (f e).IsFile ∧
        Entries.Distinct (P ++ f e :: Q) ∧ Entries.dir (P ++ f e :: Q) = flatObject.apply c D) :
    Triple Event.WithinLimits (Event.Survives g (Stores g root D)) (Finds g root D name pair id)
      (applyOpToPair g depth pair op)
      (fun _ s => flatObject.Enabled c D ∧ Shows g root (flatObject.apply c D) s)
      (fun _ s => Shows g root D s) := by
  refine Triple.each fun s hs => ?_
  obtain ⟨pre, n, post, files, r, P, e, Q, hguarded, hold, rfl, hplace, rfl, rfl⟩ := hs
  have hroom := (hguarded.rest.stands n (AtRest.mem_mid pre n post)).room
  have hlt := hplace.lt
  have hop : n.Takes g op := by
    refine ⟨fun i hi => ?_, hnames, hformed (hlt.trans_le hroom), hinline, hplace.target htarget⟩
    rw [htarget] at hi
    cases hi
    rwa [hadds]
  have hdistinct := hold.distinct
  have hfiles := hplace.files
  rw [hfiles] at hdistinct
  obtain ⟨henabled, hfile, hdistinct', hdir⟩ := hc P e Q hplace.isFile hplace.named hdistinct
    (by rw [hfiles])
  refine (triple_applyOp depth hcycles hold hop (by rw [WriteOp.total]; omega)).conseq
    (fun s' hs' => hs' ▸ hguarded) (fun _ s' hs' => ⟨henabled, ?_⟩) fun _ _ => id
  obtain ⟨mid, hmid, hguarded'⟩ := hs'
  exact ⟨_, _, hguarded', hplace.change hold htarget hadds hchange hmid hfile hdistinct', hdir⟩

/-- A file is given another content. -/
theorem triple_update (content : List Byte) :
    Triple Event.WithinLimits (Event.Survives g (Stores g root D)) (Finds g root D name pair id)
      (applyOpToPair g depth pair (.update id (.bytes content)))
      (fun _ s => flatObject.Enabled (.put name content) D ∧
        Shows g root (flatObject.apply (.put name content) D) s)
      (fun _ s => Shows g root D s) := by
  refine triple_change depth hcycles rfl rfl (f := fun e =>
    { e with struct := some (.inlineStruct, .bytes content) }) (fun _ => rfl) trivial
    (fun _ => trivial) trivial fun P e Q hfile hname hdistinct hdir => ?_
  have hname' : Entry.fileName { e with struct := some (.inlineStruct, .bytes content) } =
      some name := hname
  obtain ⟨hdistinct', hdir'⟩ := Entries.dir_replace hdistinct hname hname'
  refine ⟨trivial, ⟨hfile.name, _, rfl⟩, hdistinct', hdir'.trans ?_⟩
  have hat := Entries.dir_at hdistinct hname
  rw [hdir] at hat ⊢
  show _ = FlatDir.put D name content
  rw [FlatDir.put, hat]
  rfl

/-- A file is created behind the others. -/
theorem triple_create (content : List Byte) :
    Triple Event.WithinLimits (Event.Survives g (Stores g root D)) (Misses g root D name pair count)
      (applyOpToPair g depth pair (.create count (nameBody name) (.bytes content) []))
      (fun _ s => flatObject.Enabled (.put name content) D ∧
        Shows g root (flatObject.apply (.put name content) D) s)
      (fun _ s => Shows g root D s) := by
  refine Triple.each fun s hs => ?_
  obtain ⟨pre, n, files, hguarded, hold, rfl, hnone, rfl, rfl⟩ := hs
  have hop : n.Takes g (.create n.entries.length (nameBody name) (.bytes content) []) := by
    refine ⟨fun i hi => ?_, trivial, trivial, trivial, fun hhead htarget => ?_⟩
    · cases hi
      rfl
    · have hnil : n.entries = [] := List.length_eq_zero_iff.1 (Option.some.inj htarget)
      rw [hnil] at hhead
      cases hhead
  refine (triple_applyOp depth hcycles hold hop (Nat.succ_pos _)).conseq (fun s' hs' =>
    hs' ▸ hguarded) (fun _ s' hs' => ⟨trivial, ?_⟩) fun _ _ => id
  obtain ⟨mid, hmid, hguarded'⟩ := hs'
  -- the new entry stands behind all others
  generalize he : (⟨some (.regularFile, .bytes name), some (.inlineStruct, .bytes content),
    fun _ => none⟩ : Entry) = e at *
  have hname : e.fileName = some name := by
    rw [← he]
    rfl
  have hothers := Entries.dir_eq_none.1 hnone
  have hentries : pre.flatMap Node.entries ++
      (WriteOp.create n.entries.length (nameBody name) (.bytes content) []).apply n.entries ++
      ([] : List Node).flatMap Node.entries = superEntry g :: (files ++ e :: []) := by
    have hchain := hold.entries
    rw [List.flatMap_append, List.flatMap_cons, List.flatMap_nil, List.append_nil] at hchain
    rw [WriteOp.apply_of_adds (.inl rfl), ← List.append_assoc, hchain, ← he]
    simp [WriteOp.newEntry, Entry.withAttrs, nameBody]
  have hold' := hold.replace hmid hentries (fun x hx => ?_) (Entries.Distinct.insert
    (by rw [List.append_nil]; exact hold.distinct) hname (by rwa [List.append_nil]))
  · refine ⟨_, _, hguarded', hold', ?_⟩
    rw [Entries.dir_insert hname hothers, List.append_nil]
    show _ = FlatDir.put _ name content
    rw [FlatDir.put, hnone, ← he]
    rfl
  · rcases List.mem_append.1 hx with hx | hx
    · exact hold.small x hx
    · rw [List.mem_singleton.1 hx, ← he]
      exact ⟨⟨name, rfl⟩, _, rfl⟩

/-- A file is removed. -/
theorem triple_removeOp :
    Triple Event.WithinLimits (Event.Survives g (Stores g root D)) (Finds g root D name pair id)
      (applyOpToPair g depth pair (.remove id))
      (fun _ s => flatObject.Enabled (.remove name) D ∧
        Shows g root (flatObject.apply (.remove name) D) s)
      (fun _ s => Shows g root D s) := by
  refine Triple.each fun s hs => ?_
  obtain ⟨pre, n, post, files, r, P, e, Q, hguarded, hold, rfl, hplace, rfl, rfl⟩ := hs
  have hlt := hplace.lt
  have hop : n.Takes g (.remove r.entry.id) := by
    refine ⟨fun i hi => ?_, trivial, trivial, trivial, hplace.target rfl⟩
    cases hi
    exact hlt
  have hat := hplace.dir_at hold.distinct
  refine (triple_applyOp depth hcycles hold hop (Nat.lt_of_le_of_lt (Nat.zero_le _) hlt)).conseq
    (fun s' hs' => hs' ▸ hguarded) (fun _ s' hs' => ⟨fun hnone => ?_, ?_⟩) fun _ _ => id
  · rw [hnone] at hat
    cases hat
  · obtain ⟨mid, hmid, hguarded'⟩ := hs'
    refine ⟨_, _, hguarded', hplace.remove hold hmid, ?_⟩
    have hdistinct := hold.distinct
    rw [hplace.files] at hdistinct ⊢
    exact Entries.dir_erase hdistinct hplace.named

/-- A file gets another name, which no file has. -/
theorem triple_renameOp {new : List Byte} (hne : name ≠ new) (hnew : D new = none) :
    Triple Event.WithinLimits (Event.Survives g (Stores g root D)) (Finds g root D name pair id)
      (applyOpToPair g depth pair (.renameInPlace id .regularFile (nameBody new)))
      (fun _ s => flatObject.Enabled (.rename name new) D ∧
        Shows g root (flatObject.apply (.rename name new) D) s)
      (fun _ s => Shows g root D s) := by
  refine triple_change depth hcycles rfl rfl (f := fun e =>
    { e with name := some (.regularFile, nameBody new) }) (fun _ => rfl) rfl
    (fun hlt => ⟨hlt, rfl⟩) trivial fun P e Q hfile hname hdistinct hdir => ?_
  have hat := Entries.dir_at hdistinct hname
  have hname' : Entry.fileName { e with name := some (.regularFile, nameBody new) } = some new :=
      rfl
  obtain ⟨hdistinct', hdir'⟩ := Entries.dir_rename hdistinct hname hname' rfl hne
    (by rw [hdir]; exact hnew)
  rw [hdir] at hat hdir'
  exact ⟨.inr ⟨by rw [hat]; exact nofun, hnew⟩, ⟨⟨new, rfl⟩, hfile.struct⟩, hdistinct', hdir'⟩

/-- An attribute of a file is set or taken away. -/
theorem triple_attr {op : WriteOp} {c : FlatCall} (a : ℕ) {body : Body}
    (htarget : op.target = some id) (hadds : op.opAddsEntry = false)
    (hchange : ∀ e, op.change e = some (e.setAttr a body)) (hnames : op.WritesName)
    (hformed : op.WellFormed) (hinline : op.InlineOnly)
    (henabled : D name ≠ none → flatObject.Enabled c D)
    (happly : flatObject.apply c D = D.withAttr name a (body.value.map Body.inlineBytes)) :
    Triple Event.WithinLimits (Event.Survives g (Stores g root D)) (Finds g root D name pair id)
      (applyOpToPair g depth pair op)
      (fun _ s => flatObject.Enabled c D ∧ Shows g root (flatObject.apply c D) s)
      (fun _ s => Shows g root D s) := by
  refine triple_change depth hcycles htarget hadds hchange hnames (fun _ => hformed) hinline
    fun P e Q hfile hname hdistinct hdir => ?_
  have hname' : (e.setAttr a body).fileName = some name := hname
  have hat := Entries.dir_at hdistinct hname
  obtain ⟨hdistinct', hdir'⟩ := Entries.dir_replace hdistinct hname hname'
  rw [hdir] at hat hdir'
  refine ⟨henabled (by rw [hat]; exact nofun), ⟨hfile.name, hfile.struct⟩, hdistinct', ?_⟩
  rw [hdir', happly, FlatDir.withAttr, hat]
  refine congrArg (fun f => Function.update D name (some f)) ?_
  simp only [Entry.file, Entry.setAttr, SmallFile.mk.injEq, true_and]
  funext x
  split_ifs <;> rfl

/-! ## The calls -/

/-- `write_inline_to_root`, and the small files of `write_to_root`. -/
theorem does_writeInline (name content : List Byte) :
    Does g root D (writeInlineToPair g depth root name content) (.put name content) := by
  refine Triple.ite (fun _ => Triple.fail fun _ hs => hs) fun _ => ?_
  refine Triple.bind (triple_seek (fun _ hs => hs) (fun _ _ hs => hs) name) fun found => ?_
  cases found with
  | found owner id kind =>
      refine Triple.strengthen (P := fun s => Finds g root D name owner id s ∧ kind = .regularFile)
        (Triple.pre ?_) fun s hs => ⟨hs.2.2, hs.2.1⟩
      rintro rfl
      exact triple_update depth hcycles content
  | absent lastPair count =>
      refine Triple.bind (R := fun id s => Misses g root D name lastPair count s ∧ id = count)
        (Triple.lift (fun s id hs h => ⟨hs.2, ?_⟩) fun _ _ hs _ => hs.1) fun id => Triple.pre ?_
      · unfold newEntryId at h
        split_ifs at h
        exact (Except.ok.inj h).symm
      · rintro rfl
        exact triple_create depth hcycles content

theorem does_writeToRoot (name : List Byte) {content : List Byte}
    (hsmall : content.length ≤ inlineMax) :
    Does g root D (writeToRoot g depth name content) (.put name content) := by
  refine Triple.get_bind fun s hs => ?_
  rw [hs.from_root, writeToPair, if_pos hsmall]
  exact (does_writeInline depth hcycles name content).strengthen fun s' hs' => hs' ▸ hs

theorem does_writeInlineToRoot (name content : List Byte) :
    Does g root D (do
      let s ← get
      writeInlineToPair g depth s.root name content) (.put name content) := by
  refine Triple.get_bind fun s hs => ?_
  rw [hs.from_root]
  exact (does_writeInline depth hcycles name content).strengthen fun s' hs' => hs' ▸ hs

theorem does_writeToPath {path : Path} (hpath : path.components = [name]) {content : List Byte}
    (hsmall : content.length ≤ inlineMax) :
    Does g root D (writeToPath g depth path content) (.put name content) := by
  refine Triple.bind (triple_parentOf (fun _ hs => hs.from_root) hpath) fun out => Triple.pre ?_
  rintro rfl
  show Triple _ _ _ (writeToPair g depth root name content) _ _
  rw [writeToPair, if_pos hsmall]
  exact does_writeInline depth hcycles name content

/-- `truncate_path`, to the size of a small file. -/
theorem does_truncatePath {path : Path} (hpath : path.components = [name]) {size : ℕ}
    (hsmall : size ≤ inlineMax) (scratch : ℕ) :
    Does g root D (truncatePath g depth path size scratch) (.truncate name size) := by
  refine Triple.seq triple_invalidate (Triple.ite (fun _ => Triple.fail fun _ hs => hs) fun _ => ?_)
  refine Triple.get_bind fun s₀ hs₀ => ?_
  have hstores : Stores g s₀.root D s₀.device := hs₀.from_root ▸ hs₀.stores
  refine Triple.bind (R := fun current s => s = s₀ ∧ current = (D.content name).length)
    (Triple.query (fun s current hs h => ⟨hs, ?_⟩) fun _ _ hs _ => hs ▸ hs₀) fun current =>
      Triple.pre ?_
  · subst hs
    exact Except.ok.inj (h.symm.trans (hstores.currentSize hpath))
  rintro rfl
  refine Triple.bind (R := fun kept s => s = s₀ ∧ kept = (D.content name).take size)
    (Triple.query (fun s kept hs h => ⟨hs, ?_⟩) fun _ _ hs _ => hs ▸ hs₀) fun kept =>
      Triple.pre ?_
  · subst hs
    exact hstores.kept hpath h
  rintro rfl
  have hcontent : ((D.content name).take size ++ List.replicate
      (min size (D.content name).length - ((D.content name).take size).length) 0) ++
      List.replicate (size - (D.content name).length) 0 =
      (D.content name).take size ++ List.replicate (size - (D.content name).length) (0 : Byte) := by
    rw [List.length_take, Nat.sub_self, List.replicate_zero, List.append_nil]
  rw [hcontent]
  refine (does_writeToPath depth hcycles hpath ?_).strengthen fun s hs => hs ▸ hs₀
  rw [List.length_append, List.length_take, List.length_replicate]
  omega

/-- `append_to_path`, when the file stays small. -/
theorem does_appendToPath {path : Path} (hpath : path.components = [name]) {more : List Byte}
    (hsmall : (D.content name).length + more.length ≤ inlineMax) (scratch : ℕ) :
    Does g root D (appendToPath g depth path more scratch) (.append name more) := by
  have hput : ∀ {m : FsM Unit}, more ≠ [] → Does g root D m (.put name (D.content name ++ more)) →
      Does g root D m (.append name more) := by
    intro m hne h
    refine h.weaken fun _ s hs => ⟨trivial, ?_⟩
    show Shows g root (if more = [] then D else D.put name (D.content name ++ more)) s
    rw [if_neg hne]
    exact hs.2
  refine Triple.ite (fun hnil => Triple.pure fun s hs => ⟨trivial, ?_⟩) fun hne => hput hne ?_
  · show Shows g root (if more = [] then D else D.put name (D.content name ++ more)) s
    rwa [if_pos hnil]
  have hfits : (D.content name ++ more).length ≤ inlineMax := by
    rwa [List.length_append]
  refine Triple.bind (triple_parentOf (fun _ hs => hs.from_root) hpath) fun out => Triple.pre ?_
  rintro rfl
  refine Triple.each fun s₀ hs₀ => ?_
  obtain ⟨owner, howner, happend⟩ := hs₀.stores.appendLayout name
  refine Triple.bind (R := fun o s => s = s₀ ∧ o = owner)
    (Triple.query (fun s o hs h => ⟨hs, ?_⟩) fun _ _ hs _ => hs ▸ hs₀) fun o => Triple.pre ?_
  · subst hs
    exact Except.ok.inj (h.symm.trans howner)
  rintro rfl
  refine Triple.bind (R := fun found s => s = s₀ ∧ LittlefsPure.appendLayout g s₀.device o name =
    .ok found) (Triple.query (fun s found hs h => ⟨hs, hs ▸ h⟩) fun _ _ hs _ => hs ▸ hs₀)
      fun found => Triple.pre fun hfound => ?_
  rcases happend with ⟨hlayout, hcontent⟩ | ⟨id, hlayout⟩
  · cases Except.ok.inj (hfound.symm.trans hlayout)
    rw [hcontent, List.nil_append] at hfits ⊢
    exact (does_writeToPath depth hcycles hpath hfits).strengthen fun s hs => hs ▸ hs₀
  · cases Except.ok.inj (hfound.symm.trans hlayout)
    refine Triple.ite (fun _ => Triple.fail fun _ hs => hs ▸ hs₀) fun _ => Triple.ite
      (fun _ => Triple.fail fun _ hs => hs ▸ hs₀) fun _ => ?_
    exact (does_writeToPath depth hcycles hpath hfits).strengthen fun s hs => hs ▸ hs₀

theorem does_removeFromPair (name : List Byte) :
    Does g root D (removeFromPair g depth root name) (.remove name) := by
  refine Triple.seq triple_invalidate (Triple.ite (fun _ => Triple.fail fun _ hs => hs) fun _ => ?_)
  refine Triple.bind (triple_seek (fun _ hs => hs) (fun _ _ hs => hs) name) fun found => ?_
  cases found with
  | found target id kind =>
      exact (triple_removeOp depth hcycles).strengthen fun s hs => hs.2.2
  | absent => exact Triple.fail fun _ hs => hs.1

theorem does_removeFromRoot (name : List Byte) :
    Does g root D (removeFromRoot g depth name) (.remove name) := by
  refine Triple.get_bind fun s hs => ?_
  rw [hs.from_root]
  exact (does_removeFromPair depth hcycles name).strengthen fun s' hs' => hs' ▸ hs

theorem does_removeAtPath {path : Path} (hpath : path.components = [name]) :
    Does g root D (removeAtPath g depth path) (.remove name) := by
  refine Triple.bind (triple_parentOf (fun _ hs => hs.from_root) hpath) fun out => Triple.pre ?_
  rintro rfl
  refine Triple.bind (triple_seek (fun _ hs => hs) (fun _ _ hs => hs) name) fun found => ?_
  cases found with
  | found target id kind =>
      refine Triple.strengthen (P := fun s => Shows g root D s ∧ kind = .regularFile)
        (Triple.pre ?_) fun s hs => ⟨hs.1, hs.2.1⟩
      rintro rfl
      exact does_removeFromPair depth hcycles name
  | absent => exact Triple.fail fun _ hs => hs.1

omit hcycles in
theorem triple_entryAt {path : Path} (hpath : path.components = [name]) :
    Triple K O (Shows g root D) (entryAt g path)
      (fun out s => Finds g root D name out.1 out.2 s) (fun _ s => Shows g root D s) := by
  refine Triple.bind (triple_parentOf (fun _ hs => hs.from_root) hpath) fun out => Triple.pre ?_
  rintro rfl
  refine Triple.bind (triple_seek (fun _ hs => hs) (fun _ _ hs => hs) name) fun found => ?_
  cases found with
  | found pair id kind => exact Triple.pure fun s hs => hs.2.2
  | absent => exact Triple.fail fun _ hs => hs.1

theorem does_setAttr {path : Path} (hpath : path.components = [name]) (a : ℕ)
    (value : List Byte) : Does g root D (setAttr g depth path a value) (.setAttr name a value) := by
  refine Triple.ite (fun _ => Triple.fail fun _ hs => hs) fun _ => ?_
  refine Triple.bind (triple_entryAt hpath) fun out => ?_
  exact triple_attr depth hcycles a rfl rfl (fun _ => rfl) trivial trivial trivial (fun h => h) rfl

theorem does_removeAttr {path : Path} (hpath : path.components = [name]) (a : ℕ) :
    Does g root D (removeAttr g depth path a) (.removeAttr name a) := by
  refine Triple.bind (triple_entryAt hpath) fun out => ?_
  exact triple_attr depth hcycles a rfl rfl (fun _ => rfl) trivial trivial trivial (fun h => h) rfl

theorem does_renameInDir {oldPath newPath : Path} {old new : List Byte}
    (hold : oldPath.components = [old]) (hnew : newPath.components = [new]) :
    Does g root D (renameInDir g depth oldPath newPath) (.rename old new) := by
  refine Triple.seq triple_invalidate ?_
  refine Triple.bind (triple_parentOf (fun _ hs => hs.from_root) hold) fun out => Triple.pre ?_
  rintro rfl
  refine Triple.bind (triple_parentOf (fun _ hs => hs.from_root) hnew) fun out => Triple.pre ?_
  rintro rfl
  refine Triple.ite (fun h => absurd rfl h) fun _ => Triple.ite (fun heq => ?_) fun hne => ?_
  · refine Triple.pure fun s hs => ⟨.inl heq, ?_⟩
    show Shows g root (FlatDir.rename D old new) s
    rwa [FlatDir.rename, if_pos heq]
  refine Triple.bind (triple_seek (fun _ hs => hs) (fun _ _ hs => hs) old) fun found => ?_
  cases found with
  | absent => exact Triple.fail fun _ hs => hs.1
  | found oldPair oldId kind =>
      refine Triple.strengthen (P := fun s => Finds g root D old oldPair oldId s ∧
        kind = .regularFile) (Triple.pre ?_) fun s hs => ⟨hs.2.2, hs.2.1⟩
      rintro rfl
      refine Triple.bind (triple_seek (fun _ hs => hs.shows) (fun _ _ hs => hs.shows) new)
        fun found => ?_
      cases found with
      | found => exact Triple.fail fun _ hs => hs.1.shows
      | absent lastPair count =>
          refine Triple.strengthen (P := fun s => Finds g root D old oldPair oldId s ∧ D new = none)
            (Triple.pre fun hnone => triple_renameOp depth hcycles hne hnone) fun s hs => ⟨hs.1, ?_⟩
          obtain ⟨-, pre, n, files, -, -, -, hnone, -⟩ := hs
          exact hnone

/-- A rename inside the root is `rename_in_dir`. -/
theorem does_rename {oldPath newPath : Path} {old new : List Byte}
    (hold : oldPath.components = [old]) (hnew : newPath.components = [new]) :
    Does g root D (rename g depth oldPath newPath) (.rename old new) := by
  refine Triple.seq triple_invalidate ?_
  refine Triple.bind (triple_parentOf (fun _ hs => hs.from_root) hold) fun out => Triple.pre ?_
  rintro rfl
  refine Triple.bind (triple_parentOf (fun _ hs => hs.from_root) hnew) fun out => Triple.pre ?_
  rintro rfl
  exact Triple.ite (fun _ => does_renameInDir depth hcycles hold hnew) fun h => absurd rfl h

end Calls

/-! ## The flat part of the public surface -/

/-- A path of one component, as its name. -/
def Path.single (path : Path) : Option (List Byte) :=
  match path.components with
  | [name] => some name
  | _ => none

theorem Path.single_eq_some {path : Path} {name : List Byte} (h : path.single = some name) :
    path.components = [name] := by
  unfold Path.single at h
  split at h
  · next hname =>
    cases h
    exact hname
  · cases h

/-- The calls that work on small files of the root, and what they are to the directory.  An
append works on a small file when the file stays small. -/
def Call.flat (g : Geometry) (s : Fs) : Call → Option FlatCall
  | .writeToRoot name content => if content.length ≤ inlineMax then some (.put name content)
    else none
  | .writeInlineToRoot name content => some (.put name content)
  | .writeToPath path content =>
      if content.length ≤ inlineMax then path.single.map fun name => .put name content else none
  | .truncatePath path newSize _ =>
      if newSize ≤ inlineMax then path.single.map fun name => .truncate name newSize else none
  | .appendToPath path additional _ =>
      match currentSize g s.device s.root path with
      | .ok size =>
          if size + additional.length ≤ inlineMax then
            path.single.map fun name => .append name additional
          else none
      | .error _ => none
  | .removeFromRoot name => some (.remove name)
  | .removeAtPath path => path.single.map .remove
  | .setAttr path a value => path.single.map fun name => .setAttr name a value
  | .removeAttr path a => path.single.map fun name => .removeAttr name a
  | .renameInDir oldPath newPath | .rename oldPath newPath =>
      oldPath.single.bind fun old => newPath.single.map fun new => .rename old new
  | _ => none

/-- Each flat call does to the directory what it stands for. -/
theorem Call.does {g : Geometry} (hcycles : g.blockCycles ≤ 0) (depth : ℕ) {root : BlockPair}
    {D : FlatDir} {c : Call} {f : FlatCall} {s₀ : Fs} (hs₀ : Shows g root D s₀)
    (h : c.flat g s₀ = some f) : Does g root D (c.start g depth) f := by
  refine Triple.seq (R := Shows g root D) (Triple.modify fun s hs => hs.account rfl) ?_
  cases c with
  | writeToRoot name content =>
      simp only [Call.flat] at h
      split_ifs at h with hsmall
      cases h
      exact does_writeToRoot depth hcycles name hsmall
  | writeInlineToRoot name content =>
      cases h
      exact does_writeInlineToRoot depth hcycles name content
  | writeToPath path content =>
      simp only [Call.flat] at h
      split_ifs at h with hsmall
      obtain ⟨name, hname, rfl⟩ := Option.map_eq_some_iff.1 h
      exact does_writeToPath depth hcycles (Path.single_eq_some hname) hsmall
  | truncatePath path newSize scratch =>
      simp only [Call.flat] at h
      split_ifs at h with hsmall
      obtain ⟨name, hname, rfl⟩ := Option.map_eq_some_iff.1 h
      exact does_truncatePath depth hcycles (Path.single_eq_some hname) hsmall scratch
  | appendToPath path additional scratch =>
      have hstores : Stores g s₀.root D s₀.device := hs₀.from_root ▸ hs₀.stores
      simp only [Call.flat] at h
      split at h
      · next size hsize =>
        split_ifs at h with hsmall
        obtain ⟨name, hname, rfl⟩ := Option.map_eq_some_iff.1 h
        have hpath := Path.single_eq_some hname
        cases Except.ok.inj (hsize.symm.trans (hstores.currentSize hpath))
        exact does_appendToPath depth hcycles hpath hsmall scratch
      · cases h
  | removeFromRoot name =>
      cases h
      exact does_removeFromRoot depth hcycles name
  | removeAtPath path =>
      obtain ⟨name, hname, rfl⟩ := Option.map_eq_some_iff.1 h
      exact does_removeAtPath depth hcycles (Path.single_eq_some hname)
  | setAttr path a value =>
      obtain ⟨name, hname, rfl⟩ := Option.map_eq_some_iff.1 h
      exact does_setAttr depth hcycles (Path.single_eq_some hname) a value
  | removeAttr path a =>
      obtain ⟨name, hname, rfl⟩ := Option.map_eq_some_iff.1 h
      exact does_removeAttr depth hcycles (Path.single_eq_some hname) a
  | renameInDir oldPath newPath =>
      obtain ⟨old, hold, h⟩ := Option.bind_eq_some_iff.1 h
      obtain ⟨new, hnew, rfl⟩ := Option.map_eq_some_iff.1 h
      exact does_renameInDir depth hcycles (Path.single_eq_some hold) (Path.single_eq_some hnew)
  | rename oldPath newPath =>
      obtain ⟨old, hold, h⟩ := Option.bind_eq_some_iff.1 h
      obtain ⟨new, hnew, rfl⟩ := Option.map_eq_some_iff.1 h
      exact does_rename depth hcycles (Path.single_eq_some hold) (Path.single_eq_some hnew)
  | _ => cases h

end LittlefsPure
