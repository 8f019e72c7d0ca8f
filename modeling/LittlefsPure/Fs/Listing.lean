import LittlefsPure.Fs.Operations
import LittlefsPure.Replay.Walkers

/-!
# Listing against lookup

The read surface of `fs.rs` walks a directory's chain in four ways: `list_pair_chain`,
`seek_entry_in_chain`, the last step of `resolve` and `find_dir_pair`.  `ChainFrom` is the chain
they all walk.  When a directory can be listed, every lookup in it has an answer: the first
listed entry with the name that has a STRUCT, or none.

## Why a STRUCT is asked for

An entry without a STRUCT is listed and cannot be opened: `lookup_checked` passes over it, and so
do the lookups along the chain.  Such entries are on no healthy device, but the listing and the
lookups have to agree on every device, so the statement counts the entries that have one.
-/

namespace LittlefsPure

open Logic

variable (g : Geometry)

/-! ## The read surface -/

/-- `list_dir`, as the entries it hands to the callback; the root is `list_root`. -/
def listDir (d : Device) (root : BlockPair) (path : Path) : Except Error (List DirEntry) :=
  if path.isRoot then listPairChain g d root
  else do
    let r ← resolve g d root path
    if r.entry.kind ≠ .directory then .error .notFound
    else if r.structType ≠ .dirStruct ∨ r.structBody.length ≠ 8 then .error .corrupt
    else listPairChain g d r.structBody.pair

/-- `exists`. -/
def existsAt (d : Device) (root : BlockPair) (path : Path) : Except Error Bool :=
  match resolve g d root path with
  | .ok _ => .ok true
  | .error .notFound => .ok false
  | .error .invalidPath => if path.isRoot then .ok true else .error .invalidPath
  | .error e => .error e

/-! ## Chains -/

/-- A pair of a chain, with its log and the slots of the log. -/
structure ChainNode where
  pair : BlockPair
  view : MetadataPair
  slots : Roster Slot

/-- The entries that a listing shows of a pair. -/
def ChainNode.entries (n : ChainNode) : List DirEntry :=
  match liveEntries n.view.reader with
  | .ok (_, es) => es
  | .error _ => []

/-- The entry that a lookup finds in a pair. -/
def ChainNode.hit (n : ChainNode) (name : Body) : Option Resolved :=
  match lookupChecked n.view.reader name with
  | .ok r => r
  | .error _ => none

/-- The first entry with a name in a chain, with its pair. -/
def firstHit (nodes : List ChainNode) (name : Body) : Option (ChainNode × Resolved) :=
  nodes.findSome? fun n => (n.hit name).map fun r => (n, r)

/-- What holds of every pair of a chain. -/
structure ChainNode.Read (g : Geometry) (d : Device) (n : ChainNode) : Prop where
  fetched : d.fetch g n.pair = .ok n.view
  played : gatherLiveSlots n.view.reader = .ok n.slots
  listed : liveEntries n.view.reader = .ok (n.slots.count, n.entries)
  looked : ∀ name, lookupChecked n.view.reader name = .ok (n.hit name)

/-- The chain from a pair on, as a walk with some fuel and a cycle test goes along it. -/
inductive ChainFrom (g : Geometry) (d : Device) :
    ℕ → BlockPair → BrentTailWalk → List ChainNode → Prop
  | last {fuel : ℕ} {walk : BrentTailWalk} {n : ChainNode} (hn : n.Read g d)
      (hnext : n.view.reader.hardNext = none) : ChainFrom g d (fuel + 1) n.pair walk [n]
  | more {fuel : ℕ} {walk walk' : BrentTailWalk} {n : ChainNode} {q : BlockPair}
      {nodes : List ChainNode} (hn : n.Read g d) (hnext : n.view.reader.hardNext = some q)
      (hwalk : walk.advance q = .ok walk') (h : ChainFrom g d fuel q walk' nodes) :
      ChainFrom g d (fuel + 1) n.pair walk (n :: nodes)

section Chains

variable {g} {d : Device} {fuel : ℕ} {p : BlockPair} {walk : BrentTailWalk}
  {nodes : List ChainNode} {name : Body} {n : ChainNode} {r : Resolved} {c : List Byte}

/-- Every log of the device fits the offsets of a slot. -/
def Device.Fits (g : Geometry) (d : Device) : Prop :=
  ∀ b, ((d.get b).reader g).committedEnd ≤ 0xFFFF

theorem Device.Fits.fetch {v : MetadataPair} (hfit : d.Fits g) (h : d.fetch g p = .ok v) :
    v.reader.committedEnd ≤ 0xFFFF := by
  unfold Device.fetch at h
  split_ifs at h
  obtain ⟨⟨a, b⟩, hreaders, h⟩ := bind_eq_ok.1 h
  obtain ⟨x, hx, hreaders⟩ := bind_eq_ok.1 hreaders
  obtain ⟨y, hy, hreaders⟩ := bind_eq_ok.1 hreaders
  cases hreaders
  obtain ⟨-, rfl⟩ := Device.read_eq_ok.1 hx
  obtain ⟨-, rfl⟩ := Device.read_eq_ok.1 hy
  rcases MetadataPair.parse_eq_ok h with rfl | rfl
  · exact hfit p.a
  · exact hfit p.b

/-- A pair whose entries can be listed is one of a chain. -/
theorem ChainNode.read {v : MetadataPair} {es : ℕ × List DirEntry} (hfit : d.Fits g)
    (hpair : d.fetch g p = .ok v) (hes : liveEntries v.reader = .ok es) :
    ∃ n : ChainNode, n.pair = p ∧ n.view = v ∧ n.Read g d ∧ n.entries = es.2 := by
  have hl := hfit.fetch hpair
  obtain ⟨herror, hok⟩ := liveEntries_slots hl
  cases hslots : gatherLiveSlots v.reader with
  | error e => cases (herror e hslots).symm.trans hes
  | ok slots =>
      obtain ⟨found, hfound, -⟩ := hok slots hslots
      cases hfound.symm.trans hes
      have hentries : (⟨p, v, slots⟩ : ChainNode).entries = found := by
        rw [entries, hfound]
      refine ⟨⟨p, v, slots⟩, rfl, rfl, ⟨hpair, hslots, hentries.symm ▸ hfound, fun name => ?_⟩,
        hentries⟩
      obtain ⟨found', hfound', -⟩ := (lookupChecked_slots hl name).2 slots hslots
      rw [hit, hfound']

theorem ChainNode.Read.fits (hn : n.Read g d) (hfit : d.Fits g) :
    n.view.reader.committedEnd ≤ 0xFFFF := hfit.fetch hn.fetched

/-- What a lookup finds in a pair is listed. -/
theorem ChainNode.Read.hit_listed (hn : n.Read g d) (hfit : d.Fits g) (h : n.hit name = some r) :
    r.entry ∈ n.entries ∧ r.entry.name.content = name.content := by
  obtain ⟨found, hfound, -, hlists⟩ := (liveEntries_slots (hn.fits hfit)).2 n.slots hn.played
  obtain ⟨hit, hhit, -, hresolves⟩ := (lookupChecked_slots (hn.fits hfit) name).2 n.slots hn.played
  cases hfound.symm.trans hn.listed
  cases hhit.symm.trans (hn.looked name)
  obtain ⟨⟨hlisted, hcontent, -⟩, -⟩ := hresolves r h
  exact ⟨(hlists r.entry).2 hlisted, hcontent⟩

/-- An entry that a listing shows although it has no STRUCT. -/
def Hollow (g : Geometry) (d : Device) (e : DirEntry) : Prop :=
  ∃ n : ChainNode, n.Read g d ∧ e ∈ n.entries ∧
    ∃ s, n.slots.slots[e.id]? = some s ∧ s.struct = none

/-- What a lookup does not find in a pair is not listed there, or has no STRUCT. -/
theorem ChainNode.Read.missed (hn : n.Read g d) (hfit : d.Fits g) (h : n.hit name = none)
    {e : DirEntry} (he : e ∈ n.entries) (hname : e.name.content = name.content) :
    Hollow g d e := by
  obtain ⟨found, hfound, -, hlists⟩ := (liveEntries_slots (hn.fits hfit)).2 n.slots hn.played
  obtain ⟨hit, hhit, hnone, -⟩ := (lookupChecked_slots (hn.fits hfit) name).2 n.slots hn.played
  cases hfound.symm.trans hn.listed
  cases hhit.symm.trans (hn.looked name)
  have hlisted := (hlists e).1 he
  obtain ⟨-, s, -, hs, -⟩ := id hlisted
  refine ⟨n, hn, he, s, hs, ?_⟩
  cases hstruct : s.struct with
  | none => rfl
  | some b => exact absurd ⟨hlisted, hname, s, hs, hstruct⟩ (hnone h ⟨e, b.1, b.2⟩)

/-! ## The four walks -/

theorem listPairChainFrom_chain (hfit : d.Fits g) {es : List DirEntry}
    (h : listPairChainFrom g d fuel p walk = .ok es) :
    ∃ nodes, ChainFrom g d fuel p walk nodes ∧ es = nodes.flatMap ChainNode.entries := by
  induction fuel generalizing p walk es with
  | zero => cases h
  | succ fuel ih =>
      obtain ⟨v, hpair, h⟩ := bind_eq_ok.1 h
      obtain ⟨⟨count, found⟩, hfound, h⟩ := bind_eq_ok.1 h
      obtain ⟨n, rfl, rfl, hn, hentries⟩ := ChainNode.read hfit hpair hfound
      cases hnext : n.view.reader.hardNext with
      | none =>
          rw [hnext] at h
          cases h
          exact ⟨[n], .last hn hnext, by simp [hentries]⟩
      | some q =>
          rw [hnext] at h
          obtain ⟨walk', hwalk, h⟩ := bind_eq_ok.1 h
          obtain ⟨more, hmore, h⟩ := bind_eq_ok.1 h
          cases h
          obtain ⟨nodes, hnodes, rfl⟩ := ih hmore
          exact ⟨n :: nodes, .more hn hnext hwalk hnodes, by simp [hentries]⟩

theorem ChainFrom.read (h : ChainFrom g d fuel p walk nodes) : ∀ n ∈ nodes, n.Read g d := by
  induction h with
  | last hn => simpa using hn
  | more hn _ _ _ ih => exact List.forall_mem_cons.2 ⟨hn, ih⟩

@[simp] theorem firstHit_nil (name : Body) : firstHit [] name = none := rfl

theorem firstHit_cons (n : ChainNode) (nodes : List ChainNode) (name : Body) :
    firstHit (n :: nodes) name =
      ((n.hit name).map fun r => (n, r)).or (firstHit nodes name) := by
  rw [firstHit, List.findSome?_cons]
  cases n.hit name <;> rfl

theorem firstHit_mem (h : firstHit nodes name = some (n, r)) : n ∈ nodes ∧ n.hit name = some r := by
  obtain ⟨m, hm, hhit⟩ := List.exists_of_findSome?_eq_some h
  obtain ⟨r', hr', heq⟩ := Option.map_eq_some_iff.1 hhit
  cases heq
  exact ⟨hm, hr'⟩

theorem firstHit_eq_none (h : firstHit nodes name = none) : ∀ n ∈ nodes, n.hit name = none := by
  intro n hn
  have hnone := List.findSome?_eq_none_iff.1 h n hn
  exact Option.map_eq_none_iff.1 hnone

/-- `seek_entry_in_chain` stops at the first hit, or at the end. -/
theorem ChainFrom.seek (h : ChainFrom g d fuel p walk nodes) (name : Body) :
    (∀ n r, firstHit nodes name = some (n, r) →
      seekEntryFrom g d name fuel p walk = .ok (.found n.pair r.entry.id r.entry.kind)) ∧
    (firstHit nodes name = none → ∃ last count,
      seekEntryFrom g d name fuel p walk = .ok (.absent last count)) := by
  induction h with
  | last hn hnext =>
      rename_i n
      rw [seekEntryFrom, hn.fetched]
      simp only [bind, Except.bind, hn.looked, hn.played, firstHit_cons, hnext]
      cases hhit : n.hit name with
      | none => exact ⟨by simp, fun _ => ⟨_, _, rfl⟩⟩
      | some r =>
          refine ⟨fun m r' heq => ?_, by simp⟩
          cases heq
          rfl
  | more hn hnext hwalk hrest ih =>
      rename_i n q nodes
      rw [seekEntryFrom, hn.fetched]
      simp only [bind, Except.bind, hn.looked, hn.played, firstHit_cons, hnext]
      cases hhit : n.hit name with
      | none =>
          simp only [hwalk]
          exact ih
      | some r =>
          refine ⟨fun m r' heq => ?_, by simp⟩
          cases heq
          rfl

/-- The last step of `resolve` stops at the first hit, or finds nothing. -/
theorem ChainFrom.leaf (h : ChainFrom g d fuel p walk nodes) (name : Body) :
    (∀ n r, firstHit nodes name = some (n, r) → resolveLeafFrom g d name fuel p walk =
      .ok ⟨⟨n.view.activeBlock, n.view.alternateBlock⟩, r.entry, r.structType, r.structBody⟩) ∧
    (firstHit nodes name = none → resolveLeafFrom g d name fuel p walk = .error .notFound) := by
  induction h with
  | last hn hnext =>
      rename_i n
      rw [resolveLeafFrom, hn.fetched]
      simp only [bind, Except.bind, hn.looked, firstHit_cons]
      cases hhit : n.hit name with
      | none =>
          refine ⟨by simp, fun _ => ?_⟩
          unfold MetadataLog.hardNext at hnext
          cases hhard : n.view.reader.isHardTail with
          | false => rfl
          | true =>
              rw [hhard, if_pos rfl] at hnext
              simp [hnext]
      | some r =>
          refine ⟨fun m r' heq => ?_, by simp⟩
          cases heq
          rfl
  | more hn hnext hwalk hrest ih =>
      rename_i n q nodes
      unfold MetadataLog.hardNext at hnext
      rw [resolveLeafFrom, hn.fetched]
      simp only [bind, Except.bind, hn.looked, firstHit_cons]
      cases hhit : n.hit name with
      | none =>
          split_ifs at hnext with hhard
          simp only [hhard, if_true, hnext, hwalk]
          exact ih
      | some r =>
          refine ⟨fun m r' heq => ?_, by simp⟩
          cases heq
          rfl

/-- The descent takes the pair of a directory that `resolve` finds. -/
theorem findDirPairFrom_of_leaf {out : ResolvedPath}
    (h : resolveLeafFrom g d name fuel p walk = .ok out) (hkind : out.entry.kind = .directory)
    (htype : out.structType = .dirStruct) (hlen : out.structBody.length = 8) :
    findDirPairFrom g d name fuel p walk = .ok out.structBody.pair := by
  induction fuel generalizing p walk with
  | zero => cases h
  | succ fuel ih =>
      obtain ⟨v, hpair, h⟩ := bind_eq_ok.1 h
      obtain ⟨hit, hhit, h⟩ := bind_eq_ok.1 h
      rw [findDirPairFrom, hpair]
      simp only [bind, Except.bind, hhit]
      cases hit with
      | some r =>
          cases h
          change r.entry.kind = _ at hkind
          change r.structType = _ at htype
          change r.structBody.length = _ at hlen
          simp only [ne_eq, hkind, not_true_eq_false, if_false, htype, hlen, or_self]
          rfl
      | none =>
          simp only at h ⊢
          unfold MetadataLog.hardNext
          split_ifs at h ⊢ with hhard
          · cases htail : v.reader.tail with
            | none =>
                rw [htail] at h
                cases h
            | some q =>
                rw [htail] at h
                obtain ⟨walk', hwalk, h⟩ := bind_eq_ok.1 h
                simp only [hwalk]
                exact ih h

/-! ## Paths -/

variable {root : BlockPair}

/-- One more component. -/
theorem descend_snoc {cs : List (List Byte)} {dir : BlockPair} {leaf : List Byte} {q : BlockPair}
    (h : descend g d p cs = .ok (dir, leaf)) (hq : findDirPair g d dir (.bytes leaf) = .ok q) :
    descend g d p (cs ++ [c]) = .ok (q, c) := by
  induction cs generalizing p with
  | nil => cases h
  | cons name rest ih =>
      cases rest with
      | nil =>
          cases h
          rw [List.cons_append, List.nil_append, descend, hq]
          · rfl
          · simp
      | cons name' rest =>
          obtain ⟨next, hnext, h⟩ := bind_eq_ok.1 h
          rw [List.cons_append, List.cons_append, descend, hnext]
          · exact ih h
          · simp

/-- A path into a directory that can be listed descends to the pair the listing starts at. -/
theorem descend_listed {dir child : Path} (hchild : child.components = dir.components ++ [c])
    {es : List DirEntry} (h : listDir g d root dir = .ok es) :
    ∃ q, resolveParent g d root child = .ok (q, c) ∧ listPairChain g d q = .ok es := by
  unfold listDir at h
  split_ifs at h with hroot
  · have hnil : dir.components = [] := List.isEmpty_iff.1 hroot
    refine ⟨root, ?_, h⟩
    rw [resolveParent, hchild, hnil]
    rfl
  · obtain ⟨r, hr, h⟩ := bind_eq_ok.1 h
    obtain ⟨⟨parent, leaf⟩, hdescend, hleaf⟩ := bind_eq_ok.1 hr
    split_ifs at h with hkind hstruct
    push Not at hkind hstruct
    refine ⟨r.structBody.pair, ?_, h⟩
    rw [resolveParent, hchild]
    exact descend_snoc hdescend (findDirPairFrom_of_leaf hleaf hkind hstruct.1 hstruct.2)

end Chains

/-- When a directory can be listed, every lookup of a path in it has an answer, and the listing
says which: `resolve`, `exists` and the search that every operation starts with find the first
listed entry with the name that has a STRUCT, or they all find nothing, and then whatever is
listed under the name has none. -/
theorem listing_answers_lookups {g : Geometry} {d : Device} {root : BlockPair} {dir child : Path}
    {name : List Byte} (hfit : d.Fits g) (hchild : child.components = dir.components ++ [name])
    {es : List DirEntry} (h : listDir g d root dir = .ok es) :
    (∃ r q owner, resolve g d root child = .ok r ∧ r.entry ∈ es ∧ r.entry.name.content = name ∧
        existsAt g d root child = .ok true ∧ resolveParent g d root child = .ok (q, name) ∧
        seekEntryInChain g d q (nameBody name) = .ok (.found owner r.entry.id r.entry.kind)) ∨
      (∃ q last count, resolve g d root child = .error .notFound ∧
        existsAt g d root child = .ok false ∧ resolveParent g d root child = .ok (q, name) ∧
        seekEntryInChain g d q (nameBody name) = .ok (.absent last count)) ∧
        ∀ e ∈ es, e.name.content = name → Hollow g d e := by
  obtain ⟨q, hparent, hlist⟩ := descend_listed hchild h
  obtain ⟨nodes, hnodes, rfl⟩ := listPairChainFrom_chain hfit hlist
  obtain ⟨hseekHit, hseekNone⟩ := hnodes.seek (nameBody name)
  obtain ⟨hleafHit, hleafNone⟩ := hnodes.leaf (nameBody name)
  have hresolve : resolve g d root child =
      resolveLeafFrom g d (nameBody name) (chainFuel g) q (.new q) := by
    unfold resolve
    rw [show descend g d root child.components = .ok (q, name) from hparent]
    rfl
  cases hhit : firstHit nodes (nameBody name) with
  | some found =>
      obtain ⟨n, r⟩ := found
      obtain ⟨hn, hr⟩ := firstHit_mem hhit
      obtain ⟨hlisted, hname⟩ := (hnodes.read n hn).hit_listed hfit hr
      have hfound := hresolve.trans (hleafHit n r hhit)
      refine .inl ⟨_, q, n.pair, hfound, List.mem_flatMap.2 ⟨n, hn, hlisted⟩, hname, ?_, hparent,
        hseekHit n r hhit⟩
      rw [existsAt, hfound]
  | none =>
      have hmissing := hresolve.trans (hleafNone hhit)
      obtain ⟨last, count, hseek⟩ := hseekNone hhit
      refine .inr ⟨⟨q, last, count, hmissing, ?_, hparent, hseek⟩, fun e he hname => ?_⟩
      · rw [existsAt, hmissing]
      · obtain ⟨n, hn, he⟩ := List.mem_flatMap.1 he
        exact (hnodes.read n hn).missed hfit (firstHit_eq_none hhit n hn) he hname

/-- A root directory with one file. -/
def parkedDevice : Device := ⟨[.log parkedLog, .erased]⟩

theorem listing_answers_lookups_parked :
    ∃ r q owner, resolve ⟨16, 16, 256, 2, -1⟩ parkedDevice rootBlockPair ⟨[[0x61]], by decide⟩ =
        .ok r ∧ r.entry.name.content = [0x61] ∧
      seekEntryInChain ⟨16, 16, 256, 2, -1⟩ parkedDevice q (nameBody [0x61]) =
        .ok (.found owner r.entry.id r.entry.kind) := by
  have hfit : parkedDevice.Fits ⟨16, 16, 256, 2, -1⟩ := by
    intro b
    rcases b with _ | _ | b
    · decide +kernel
    · decide +kernel
    · show (Block.erased.reader ⟨16, 16, 256, 2, -1⟩).committedEnd ≤ 0xFFFF
      decide +kernel
  have hlist : listDir ⟨16, 16, 256, 2, -1⟩ parkedDevice rootBlockPair ⟨[], by decide⟩ =
      .ok [⟨1, .bytes [0x61], .regularFile⟩] := by decide +kernel
  have hchild : (⟨[[0x61]], by decide⟩ : Path).components =
      (⟨[], by decide⟩ : Path).components ++ [[0x61]] := rfl
  rcases listing_answers_lookups hfit hchild hlist with
    ⟨r, q, owner, hr, -, hname, -, -, hseek⟩ | ⟨⟨q, last, count, hmissing, -⟩, -⟩
  · exact ⟨r, q, owner, hr, hname, hseek⟩
  · have hfound : (resolve ⟨16, 16, 256, 2, -1⟩ parkedDevice rootBlockPair
        ⟨[[0x61]], by decide⟩).toBool = true := by decide +kernel
    rw [hmissing] at hfound
    cases hfound

end LittlefsPure
