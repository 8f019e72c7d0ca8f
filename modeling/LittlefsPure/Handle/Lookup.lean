import LittlefsPure.Fs.Operations
import LittlefsPure.Split.Directory
import Mathlib.Data.List.Basic
import Mathlib.Logic.Relation

/-!
# What a lookup reads

A lookup of a path reads the pairs that it comes to from the root, through hard tails and through
the directories that it finds there.  `Passes` says which pairs those can be.  Of the log of a pair
it uses where the chain goes on, and for a name the entry and, if that is a directory, the pair of
the directory.  So a log can be replaced by another one that says the same of these, and the lookup
goes the same way: `LeadsAs` relates two logs, `Device.LeadsAs` two devices at one pair.

## Why the entry itself may change

The last pair of a lookup is the one that is written to.  A commit to a file changes the STRUCT of
an entry there and nothing that a lookup is guided by, as the STRUCT of a file names no pair.  What
comes out at the end of the lookup is then read from the new log: `LeadsTo.layoutAt` says that the
layout at a path is what the pair of its entry holds for the name.
-/

namespace LittlefsPure

open Logic

/-! ## Logs -/

/-- What a lookup goes on with: the entry, and the STRUCT of a directory. -/
def Resolved.guide (r : Resolved) : DirEntry × Option (TagType × Body) :=
  (r.entry, if r.entry.kind = .directory then some (r.structType, r.structBody) else none)

/-- Two logs lead a lookup of one of the names the same way. -/
structure MetadataLog.LeadsAs (names : List (List Byte)) (l l' : MetadataLog) : Prop where
  next : l'.hardNext = l.hardNext
  count : (gatherLiveSlots l').map Roster.count = (gatherLiveSlots l).map Roster.count
  guide : ∀ name ∈ names, (lookupChecked l' (nameBody name)).map (Option.map Resolved.guide) =
    (lookupChecked l (nameBody name)).map (Option.map Resolved.guide)

namespace MetadataLog.LeadsAs

variable {names : List (List Byte)} {l l' : MetadataLog} {name : List Byte}

theorem refl : l.LeadsAs names l := ⟨rfl, rfl, fun _ _ => rfl⟩

theorem symm (h : l.LeadsAs names l') : l'.LeadsAs names l :=
  ⟨h.next.symm, h.count.symm, fun name hname => (h.guide name hname).symm⟩

/-- A lookup that finds nothing finds nothing in the other log. -/
theorem misses (h : l.LeadsAs names l') (hname : name ∈ names)
    (hl : lookupChecked l (nameBody name) = .ok none) :
    lookupChecked l' (nameBody name) = .ok none := by
  have hguide := h.guide name hname
  rw [hl] at hguide
  obtain ⟨hit, hhit, hnone⟩ := map_eq_ok.1 hguide
  rw [hhit, Option.map_eq_none_iff.1 hnone]

/-- A lookup that finds an entry finds it in the other log, and a directory with its pair. -/
theorem finds (h : l.LeadsAs names l') (hname : name ∈ names) {r : Resolved}
    (hl : lookupChecked l (nameBody name) = .ok (some r)) :
    ∃ r', lookupChecked l' (nameBody name) = .ok (some r') ∧ r'.entry = r.entry ∧
      (r.entry.kind = .directory → r' = r) := by
  have hguide := h.guide name hname
  rw [hl] at hguide
  obtain ⟨hit, hhit, hsome⟩ := map_eq_ok.1 hguide
  obtain ⟨r', rfl, hr'⟩ := Option.map_eq_some_iff.1 hsome
  have hentry : r'.entry = r.entry := congrArg Prod.fst hr'
  refine ⟨r', hhit, hentry, fun hkind => ?_⟩
  have hstruct := congrArg Prod.snd hr'
  simp only [Resolved.guide, hentry, if_pos hkind, Option.some.injEq, Prod.mk.injEq] at hstruct
  obtain ⟨entry', type', body'⟩ := r'
  obtain ⟨entry, type, body⟩ := r
  simp only at hentry hstruct
  rw [hentry, hstruct.1, hstruct.2]

/-- The slots of the other log are gathered too, and are as many. -/
theorem gathers (h : l.LeadsAs names l') {slots : Roster Slot}
    (hl : gatherLiveSlots l = .ok slots) :
    ∃ slots', gatherLiveSlots l' = .ok slots' ∧ slots'.count = slots.count := by
  have hcount := h.count
  rw [hl] at hcount
  exact map_eq_ok.1 hcount

end MetadataLog.LeadsAs

/-! ## Pairs -/

variable (g : Geometry)

/-- A pair of two devices: not to be fetched on either, or with logs that lead a lookup the same
way. -/
structure Device.LeadsAs (names : List (List Byte)) (d d' : Device) (p : BlockPair) : Prop where
  fetched : ∀ pair, d.fetch g p = .ok pair →
    ∃ pair', d'.fetch g p = .ok pair' ∧ pair.reader.LeadsAs names pair'.reader
  failed : ∀ e, d.fetch g p = .error e → d'.fetch g p = .error e

/-- The pairs that a lookup of the names can come to from a pair. -/
def Device.successors (d : Device) (names : List (List Byte)) (p : BlockPair) : List BlockPair :=
  match d.fetch g p with
  | .error _ => []
  | .ok pair =>
      pair.reader.hardNext.toList ++ names.filterMap fun name =>
        match lookupChecked pair.reader (nameBody name) with
        | .ok (some r) => if r.entry.kind = .directory then some r.structBody.pair else none
        | _ => none

/-- The pairs that a lookup of the names can come to. -/
def Device.Passes (d : Device) (names : List (List Byte)) : BlockPair → BlockPair → Prop :=
  Relation.ReflTransGen fun p q => q ∈ d.successors g names p

/-- The blocks of those pairs. -/
def Device.OnTheWay (d : Device) (names : List (List Byte)) (root : BlockPair) (b : ℕ) : Prop :=
  ∃ p, d.Passes g names root p ∧ (b = p.a ∨ b = p.b)

variable {g} {names : List (List Byte)} {d d' : Device} {root p q : BlockPair} {name : List Byte}
  {pair : MetadataPair}

theorem Device.leadsAs_of_fetch (h : d'.fetch g p = d.fetch g p) : Device.LeadsAs g names d d' p :=
  ⟨fun pair hpair => ⟨pair, h.trans hpair, .refl⟩, fun _ he => h.trans he⟩

theorem Device.mem_successors_next (hpair : d.fetch g p = .ok pair)
    (hnext : pair.reader.hardNext = some q) : q ∈ d.successors g names p := by
  rw [successors, hpair]
  simp only [hnext]
  exact List.mem_append_left _ (List.mem_singleton_self q)

theorem Device.mem_successors_dir (hpair : d.fetch g p = .ok pair) (hname : name ∈ names)
    {r : Resolved} (hr : lookupChecked pair.reader (nameBody name) = .ok (some r))
    (hkind : r.entry.kind = .directory) : r.structBody.pair ∈ d.successors g names p := by
  rw [successors, hpair]
  refine List.mem_append_right _ (List.mem_filterMap.2 ⟨name, hname, ?_⟩)
  simp only [hr, if_pos hkind]

theorem Device.LeadsAs.successors (h : Device.LeadsAs g names d d' p) :
    d'.successors g names p = d.successors g names p := by
  rw [Device.successors, Device.successors]
  cases hpair : d.fetch g p with
  | error e => rw [h.failed e hpair]
  | ok pair =>
      obtain ⟨pair', hpair', hleads⟩ := h.fetched pair hpair
      simp only [hpair', hleads.next]
      refine congrArg (_ ++ ·) (List.filterMap_congr fun name hname => ?_)
      cases hlookup : lookupChecked pair.reader (nameBody name) with
      | error e =>
          have hguide := hleads.guide name hname
          rw [hlookup] at hguide
          cases hlookup' : lookupChecked pair'.reader (nameBody name) with
          | error e' => rfl
          | ok hit =>
              rw [hlookup'] at hguide
              cases hguide
      | ok hit =>
          cases hit with
          | none => rw [hleads.misses hname hlookup]
          | some r =>
              obtain ⟨r', hr', hentry, hsame⟩ := hleads.finds hname hlookup
              simp only [hr', hentry]
              split_ifs with hkind
              · rw [hsame hkind]
              · rfl

/-- A lookup passes the same pairs on a device that leads it the same way at each of them. -/
theorem Device.passes_congr (h : ∀ p, d.Passes g names root p → Device.LeadsAs g names d d' p) :
    d'.Passes g names root p ↔ d.Passes g names root p := by
  constructor
  · intro hp
    induction hp with
    | refl => exact .refl
    | @tail q r _ hr ih => exact ih.tail ((h q ih).successors ▸ hr)
  · intro hp
    induction hp with
    | refl => exact .refl
    | @tail q r hq hr ih => exact ih.tail ((h q hq).successors.symm ▸ hr)

theorem Device.onTheWay_congr (h : ∀ p, d.Passes g names root p → Device.LeadsAs g names d d' p)
    (b : ℕ) : d'.OnTheWay g names root b ↔ d.OnTheWay g names root b :=
  exists_congr fun _ => and_congr_left' (passes_congr h)

/-- A root that leads nowhere. -/
theorem Device.passes_of_leaf (h : d.successors g names root = [])
    (hp : d.Passes g names root p) : p = root := by
  induction hp with
  | refl => rfl
  | tail _ hstep ih =>
      subst ih
      rw [h] at hstep
      cases hstep

/-! ## Walks -/

section Walks

variable (hleads : ∀ p, d.Passes g names root p → Device.LeadsAs g names d d' p)

include hleads

/-- The search for a directory in a chain. -/
theorem findDirPairFrom_leads (hname : name ∈ names) {fuel : ℕ} {walk : BrentTailWalk}
    (hp : d.Passes g names root p)
    (h : findDirPairFrom g d (nameBody name) fuel p walk = .ok q) :
    findDirPairFrom g d' (nameBody name) fuel p walk = .ok q ∧ d.Passes g names root q := by
  induction fuel generalizing p walk with
  | zero => cases h
  | succ fuel ih =>
      rw [findDirPairFrom] at h ⊢
      obtain ⟨pair, hpair, h⟩ := bind_eq_ok.1 h
      obtain ⟨pair', hpair', hlead⟩ := (hleads p hp).fetched pair hpair
      obtain ⟨hit, hhit, h⟩ := bind_eq_ok.1 h
      cases hit with
      | some r =>
          obtain ⟨r', hr', hentry, hsame⟩ := hlead.finds hname hhit
          simp only at h
          split_ifs at h with hkind hstruct
          obtain rfl : r' = r := hsame (not_not.1 hkind)
          cases h
          rw [hpair']
          simp only [bind, Except.bind, hr', if_neg hkind, if_neg hstruct]
          exact ⟨rfl, hp.tail (Device.mem_successors_dir hpair hname hhit (not_not.1 hkind))⟩
      | none =>
          have hmiss := hlead.misses hname hhit
          cases hnext : pair.reader.hardNext with
          | none =>
              rw [hnext] at h
              cases h
          | some next =>
              rw [hnext] at h
              obtain ⟨walk', hwalk, h⟩ := bind_eq_ok.1 h
              rw [hpair']
              simp only [bind, Except.bind, hmiss, hlead.next, hnext, hwalk]
              exact ih (hp.tail (Device.mem_successors_next hpair hnext)) h

/-- The descent through the directories of a path. -/
theorem descend_leads {comps : List (List Byte)} (hcomps : ∀ name ∈ comps, name ∈ names)
    (hp : d.Passes g names root p) {leaf : List Byte} (h : descend g d p comps = .ok (q, leaf)) :
    descend g d' p comps = .ok (q, leaf) ∧ d.Passes g names root q ∧ leaf ∈ comps := by
  induction comps generalizing p with
  | nil => cases h
  | cons name rest ih =>
      cases rest with
      | nil =>
          cases h
          exact ⟨rfl, hp, List.mem_singleton_self leaf⟩
      | cons next rest =>
          obtain ⟨p', hp', h⟩ := bind_eq_ok.1 h
          obtain ⟨hfind, hpass⟩ := findDirPairFrom_leads hleads
            (hcomps name (List.mem_cons_self ..)) hp hp'
          obtain ⟨hrest, hq, hleaf⟩ :=
            ih (fun name hname => hcomps name (List.mem_cons_of_mem _ hname)) hpass h
          refine ⟨?_, hq, List.mem_cons_of_mem _ hleaf⟩
          show (findDirPairFrom g d' (nameBody name) (chainFuel g) p (.new p)).bind _ = _
          rw [hfind]
          exact hrest

/-- The search for an entry in a chain. -/
theorem seekEntryFrom_leads (hname : name ∈ names) {fuel : ℕ} {walk : BrentTailWalk} {id : ℕ}
    {kind : EntryKind} (hp : d.Passes g names root p)
    (h : seekEntryFrom g d (nameBody name) fuel p walk = .ok (.found q id kind)) :
    seekEntryFrom g d' (nameBody name) fuel p walk = .ok (.found q id kind) ∧
      d.Passes g names root q := by
  induction fuel generalizing p walk with
  | zero => cases h
  | succ fuel ih =>
      rw [seekEntryFrom] at h ⊢
      obtain ⟨pair, hpair, h⟩ := bind_eq_ok.1 h
      obtain ⟨pair', hpair', hlead⟩ := (hleads p hp).fetched pair hpair
      obtain ⟨hit, hhit, h⟩ := bind_eq_ok.1 h
      obtain ⟨slots, hslots, h⟩ := bind_eq_ok.1 h
      obtain ⟨slots', hslots', -⟩ := hlead.gathers hslots
      cases hit with
      | some r =>
          obtain ⟨r', hr', hentry, -⟩ := hlead.finds hname hhit
          cases h
          rw [hpair']
          simp only [bind, Except.bind, hr', hslots', hentry]
          exact ⟨rfl, hp⟩
      | none =>
          have hmiss := hlead.misses hname hhit
          cases hnext : pair.reader.hardNext with
          | none =>
              rw [hnext] at h
              cases h
          | some next =>
              rw [hnext] at h
              obtain ⟨walk', hwalk, h⟩ := bind_eq_ok.1 h
              rw [hpair']
              simp only [bind, Except.bind, hmiss, hslots', hlead.next, hnext, hwalk]
              exact ih (hp.tail (Device.mem_successors_next hpair hnext)) h

end Walks

theorem MetadataLog.hardNext_eq_some {l : MetadataLog} {next : BlockPair} :
    l.hardNext = some next ↔ l.isHardTail = true ∧ l.tail = some next := by
  rw [MetadataLog.hardNext]
  split_ifs with hhard
  · exact ⟨fun h => ⟨hhard, h⟩, fun h => h.2⟩
  · exact ⟨fun h => (by cases h), fun h => absurd h.1 hhard⟩

/-- `resolve` ends where the search for the entry ends, with what the log there holds. -/
theorem resolveLeafFrom_of_seek {body : Body} {fuel : ℕ} {walk : BrentTailWalk} {id : ℕ}
    {kind : EntryKind} (h : seekEntryFrom g d body fuel p walk = .ok (.found q id kind)) :
    ∃ pair r, d.fetch g q = .ok pair ∧ lookupChecked pair.reader body = .ok (some r) ∧
      r.entry.id = id ∧ r.entry.kind = kind ∧
      resolveLeafFrom g d body fuel p walk =
        .ok ⟨⟨pair.activeBlock, pair.alternateBlock⟩, r.entry, r.structType, r.structBody⟩ := by
  induction fuel generalizing p walk with
  | zero => cases h
  | succ fuel ih =>
      rw [seekEntryFrom] at h
      rw [resolveLeafFrom]
      obtain ⟨pair, hpair, h⟩ := bind_eq_ok.1 h
      obtain ⟨hit, hhit, h⟩ := bind_eq_ok.1 h
      obtain ⟨slots, hslots, h⟩ := bind_eq_ok.1 h
      cases hit with
      | some r =>
          cases h
          refine ⟨pair, r, hpair, hhit, rfl, rfl, ?_⟩
          rw [hpair]
          simp only [bind, Except.bind, hhit]
          rfl
      | none =>
          cases hnext : pair.reader.hardNext with
          | none =>
              rw [hnext] at h
              cases h
          | some next =>
              rw [hnext] at h
              obtain ⟨walk', hwalk, h⟩ := bind_eq_ok.1 h
              obtain ⟨hhard, htail⟩ := MetadataLog.hardNext_eq_some.1 hnext
              rw [hpair]
              simp only [bind, Except.bind, hhit, if_pos hhard, htail, hwalk]
              exact ih h

/-- Where the search finds nothing, `resolve` finds nothing. -/
theorem missed_of_seek {body : Body} {fuel : ℕ} {walk : BrentTailWalk} {count : ℕ}
    (h : seekEntryFrom g d body fuel p walk = .ok (.absent q count)) :
    resolveLeafFrom g d body fuel p walk = .error .notFound := by
  induction fuel generalizing p walk with
  | zero => cases h
  | succ fuel ih =>
      rw [seekEntryFrom] at h
      rw [resolveLeafFrom]
      obtain ⟨pair, hpair, h⟩ := bind_eq_ok.1 h
      obtain ⟨hit, hhit, h⟩ := bind_eq_ok.1 h
      obtain ⟨slots, hslots, h⟩ := bind_eq_ok.1 h
      cases hit with
      | some r => cases h
      | none =>
          rw [hpair]
          simp only [bind, Except.bind, hhit]
          cases hnext : pair.reader.hardNext with
          | none =>
              rw [MetadataLog.hardNext] at hnext
              split_ifs at hnext ⊢ with hhard
              · rw [hnext]
              · rfl
          | some next =>
              rw [hnext] at h
              obtain ⟨walk', hwalk, h⟩ := bind_eq_ok.1 h
              obtain ⟨hhard, htail⟩ := MetadataLog.hardNext_eq_some.1 hnext
              simp only [if_pos hhard, htail, hwalk]
              exact ih h

/-! ## Paths -/

/-- The path leads to the entry of a file: the name, the pair and the id that it is found by. -/
def LeadsTo (g : Geometry) (d : Device) (root : BlockPair) (path : Path) (leaf : List Byte)
    (pair : BlockPair) (id : ℕ) : Prop :=
  ∃ dir, resolveParent g d root path = .ok (dir, leaf) ∧
    seekEntryInChain g d dir (nameBody leaf) = .ok (.found pair id .regularFile)

namespace LeadsTo

variable {path : Path} {leaf : List Byte} {parent : BlockPair} {id : ℕ}

theorem congr (h : LeadsTo g d root path leaf parent id)
    (hleads : ∀ p, d.Passes g path.components root p →
      Device.LeadsAs g path.components d d' p) :
    LeadsTo g d' root path leaf parent id := by
  obtain ⟨dir, hdir, hseek⟩ := h
  obtain ⟨hdir', hpass, hleaf⟩ := descend_leads hleads (fun _ hname => hname) .refl hdir
  exact ⟨dir, hdir', (seekEntryFrom_leads hleads hleaf hpass hseek).1⟩

/-- The pair of the entry is on the way. -/
theorem passes (h : LeadsTo g d root path leaf parent id) :
    leaf ∈ path.components ∧ d.Passes g path.components root parent := by
  obtain ⟨dir, hdir, hseek⟩ := h
  have hself : ∀ p, d.Passes g path.components root p →
      Device.LeadsAs g path.components d d p := fun p _ => Device.leadsAs_of_fetch rfl
  obtain ⟨-, hpass, hleaf⟩ := descend_leads hself (fun _ hname => hname) .refl hdir
  exact ⟨hleaf, (seekEntryFrom_leads hself hleaf hpass hseek).2⟩

/-- The layout at the path is what the pair of the entry holds for the name. -/
theorem layoutAt (h : LeadsTo g d root path leaf parent id) : ∃ pair r,
    d.fetch g parent = .ok pair ∧ lookupChecked pair.reader (nameBody leaf) = .ok (some r) ∧
      r.entry.id = id ∧ r.entry.kind = .regularFile ∧
      layoutAt g d root path = fileLayout .regularFile r.structType r.structBody := by
  obtain ⟨dir, hdir, hseek⟩ := h
  obtain ⟨pair, r, hpair, hr, hid, hkind, hresolve⟩ := resolveLeafFrom_of_seek hseek
  refine ⟨pair, r, hpair, hr, hid, hkind, ?_⟩
  rw [resolveParent] at hdir
  rw [LittlefsPure.layoutAt, resolve, hdir]
  show (resolveLeafFrom g d (nameBody leaf) (chainFuel g) dir (.new dir)).bind _ = _
  rw [hresolve, ← hkind]
  rfl

end LeadsTo

end LittlefsPure
