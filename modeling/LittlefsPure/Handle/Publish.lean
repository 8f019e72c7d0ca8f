import LittlefsPure.Handle.Lookup
import LittlefsPure.Store.Replace

/-!
# A commit that stays in its pair

`sync` commits to the pair and the id that its handle has had since `open`.  A commit may be
appended to the active block, it may be rebuilt on the other one, and then the pair is where it was
and shows the entries with the operation carried out.  Or it is split or moved, and then the entry
may be somewhere else, which a handle is not told.

`InPlace` is the condition for the first.  It speaks of the state in front of the commit: the log
and the slots that the commit finds, the number of the next revision, the outcomes of its next
device calls.  Under it a commit changes the two blocks of its pair and no others, and the pair
shows the entries as they were or as the operation leaves them, the latter if the commit returns.

## Why a failing device call is not excluded at the root

Elsewhere a program that fails makes the pair move, to a fresh block in place of the worn one.  The
root pair cannot move, so there the commit fails with `Io`.  What the block holds by then is the old
log, a torn one, or the new one, and the pair shows the old entries or the new ones.  So the root
needs no condition on the outcomes.

## Why the STRUCT of a file is free

A commit of a handle gives its entry another STRUCT.  A lookup on its way to the entry goes by the
names, the kinds and the STRUCTs of directories, and these stay: the log behind the commit leads it
as the log in front did.
-/

namespace LittlefsPure

open FsM Logic

/-! ## What a log tells -/

/-- What a log tells its readers: its entries, which can be gathered, and its tail. -/
structure MetadataLog.Tells (l : MetadataLog) (entries : Entries) (tail : Option TailLink) :
    Prop where
  carries : ∃ move relocate, l.Carries entries move relocate tail
  room : entries.length ≤ maxLiveEntries
  gathered : ∃ slots, gatherLiveSlots l = .ok slots

namespace MetadataLog.Tells

variable {l l' : MetadataLog} {entries entries' : Entries} {tail : Option TailLink} {name : Body}

/-- A log of the engine that can be gathered. -/
theorem of_written {g : Geometry} {moves : List MoveBody} {relocates : List RelocateBody}
    (h : Written g l moves relocates) {slots : Roster Slot}
    (hslots : gatherLiveSlots l = .ok slots) :
    ∃ entries tail, l.Tells entries tail := by
  obtain ⟨entries, tail, hcarries⟩ := h.carries
  exact ⟨entries, tail, ⟨_, _, hcarries⟩, (hcarries.shows hslots).2.length_le, slots, hslots⟩

theorem tailLink (h : l.Tells entries tail) : l.tailLink = tail := by
  obtain ⟨_, _, hcarries⟩ := h.carries
  exact hcarries.tail

theorem count (h : l.Tells entries tail) {slots : Roster Slot}
    (hslots : gatherLiveSlots l = .ok slots) : slots.count = entries.length := by
  obtain ⟨_, _, hcarries⟩ := h.carries
  exact (hcarries.shows hslots).2.count

theorem lookup (h : l.Tells entries tail) (name : Body) :
    lookupChecked l name = .ok (entries.zipIdx.findSome? fun x => x.1.slot.hit name x.2) := by
  obtain ⟨_, _, hcarries⟩ := h.carries
  exact hcarries.lookup h.room name

/-- What a lookup finds is an entry, with its name, its kind and its STRUCT. -/
theorem found (h : l.Tells entries tail) {r : Resolved}
    (hr : lookupChecked l name = .ok (some r)) :
    ∃ e type, entries[r.entry.id]? = some e ∧ e.name = some (type, r.entry.name) ∧
      type.entryKind = some r.entry.kind ∧ e.struct = some (r.structType, r.structBody) := by
  rw [h.lookup name] at hr
  obtain ⟨⟨e, i⟩, hmem, hhit⟩ := List.exists_of_findSome?_eq_some (Except.ok.inj hr)
  obtain ⟨rfl, ⟨type, hname, hkind⟩, -, hstruct⟩ := Slot.hit_eq_some.1 hhit
  exact ⟨e, type, List.mem_zipIdx_iff_getElem?.1 hmem, hname, hkind, hstruct⟩

end MetadataLog.Tells

/-! ## Another STRUCT for a file -/

/-- An entry with another STRUCT. -/
def Entry.withStruct (st : TagType × Body) (e : Entry) : Entry := { e with struct := some st }

/-- A slot of a file with another STRUCT is hit by the same names. -/
theorem Slot.hit_withStruct {e : Entry} {type : TagType} {body : Body}
    (hname : e.name = some (type, body)) (hkind : type.entryKind = some .regularFile)
    {st : TagType × Body} (hstruct : e.struct = some st) (st' : TagType × Body) (name : Body)
    (i : ℕ) : ((e.withStruct st').slot.hit name i).map Resolved.guide =
      (e.slot.hit name i).map Resolved.guide := by
  simp only [Slot.hit, Entry.slot, Entry.withStruct, hname, hkind, hstruct, Option.bind_some]
  split_ifs
  · rfl
  · rfl

/-- A change at one place, under the indices. -/
theorem zipIdx_modify (entries : Entries) (id : ℕ) (f : Entry → Entry) :
    (entries.modify id f).zipIdx =
      entries.zipIdx.map fun x => if id = x.2 then (f x.1, x.2) else x := by
  apply List.ext_getElem?
  intro k
  rw [List.getElem?_map, List.getElem?_zipIdx, List.getElem?_zipIdx, List.getElem?_modify]
  cases entries[k]? with
  | none => rfl
  | some e =>
      by_cases hk : id = k
      · simp [hk]
      · simp [hk]

theorem findSome?_congr {α β : Type} {f f' : α → Option β} {xs : List α}
    (h : ∀ x ∈ xs, f x = f' x) : xs.findSome? f = xs.findSome? f' := by
  induction xs with
  | nil => rfl
  | cons x xs ih =>
      rw [List.findSome?_cons, List.findSome?_cons, h x (List.mem_cons_self ..),
        ih fun y hy => h y (List.mem_cons_of_mem _ hy)]

/-- A log in which a file has another STRUCT leads a lookup as the log before did. -/
theorem MetadataLog.Tells.leadsAs {l l' : MetadataLog} {entries : Entries} {tail : Option TailLink}
    {id : ℕ} {st : TagType × Body} (h : l.Tells entries tail)
    (h' : l'.Tells (entries.modify id (Entry.withStruct st)) tail) {e : Entry} {type : TagType}
    {body : Body} {st₀ : TagType × Body} (he : entries[id]? = some e)
    (hname : e.name = some (type, body)) (hkind : type.entryKind = some .regularFile)
    (hstruct : e.struct = some st₀) (names : List (List Byte)) : l.LeadsAs names l' where
  next := by
    simp only [MetadataLog.hardNext, MetadataLog.isHardTail, MetadataLog.tail, h.tailLink,
      h'.tailLink]
  count := by
    obtain ⟨slots, hslots⟩ := h.gathered
    obtain ⟨slots', hslots'⟩ := h'.gathered
    rw [hslots, hslots']
    show Except.ok slots'.count = Except.ok slots.count
    rw [h.count hslots, h'.count hslots', List.length_modify]
  guide := by
    intro name _
    rw [h.lookup, h'.lookup]
    refine congrArg Except.ok ?_
    rw [List.map_findSome?, List.map_findSome?, zipIdx_modify, List.findSome?_map]
    refine findSome?_congr ?_
    rintro ⟨e', i⟩ hmem
    have he' : entries[i]? = some e' := List.mem_zipIdx_iff_getElem?.1 hmem
    by_cases hi : id = i
    · subst hi
      obtain rfl : e' = e := Option.some.inj (he'.symm.trans he)
      simp only [Function.comp, if_pos]
      exact Slot.hit_withStruct hname hkind hstruct st _ id
    · simp only [Function.comp, if_neg hi]

/-! ## What a commit writes -/

section Written

variable {g : Geometry} {l l' : MetadataLog} {entries : Entries} {tail : Option TailLink}
  {r : CommitRequest} {slots : Roster Slot}

/-- A request that announces nothing beside its operation. -/
structure CommitRequest.Plain (r : CommitRequest) : Prop where
  move : r.extraMove = none
  relocate : r.extraRelocate = none
  tail : r.newTail = none
  kept : r.op.opAddsEntry = false
  names : r.op.WritesName
  formed : r.op.WellFormed

theorem CommitRequest.Plain.sized (h : r.Plain) : r.Sized where
  move d hd := by
    rw [h.move] at hd
    cases hd
  relocate d hd := by
    rw [h.relocate] at hd
    cases hd

theorem CommitRequest.Plain.room (h : r.Plain) (hle : entries.length ≤ maxLiveEntries) :
    (r.op.apply entries).length ≤ maxLiveEntries := by
  have hlen := r.op.length_apply_le entries
  rw [if_neg (by rw [h.kept]; exact Bool.false_ne_true)] at hlen
  exact Nat.le_trans hlen hle

/-- The log behind an append. -/
theorem MetadataLog.Tells.appended (h : l.Tells entries tail) (hr : r.Plain)
    (hop : r.op.Addresses entries.length) (hslots : gatherLiveSlots l = .ok slots)
    (hlim : (Event.append l slots r.op).WithinLimits) (hl : buildAppend g l r = .ok l') :
    l'.Tells (r.op.apply entries) tail := by
  obtain ⟨_, _, hcarries⟩ := h.carries
  have hcarries' := buildAppend_carries hcarries h.room hop hr.names hr.sized hl
  rw [hr.tail, Option.none_or, ← h.tailLink, liveLink_tailLink, h.tailLink] at hcarries'
  exact ⟨⟨_, _, hcarries'⟩, hr.room h.room, hcarries'.gathered
    (buildAppend_withinLimits hslots hr.formed hlim hl) (hr.room h.room)⟩

/-- The rebuilt log. -/
theorem MetadataLog.Tells.rebuilt {v : PairView} (h : v.log.Tells entries tail) (hr : r.Plain)
    (hslots : gatherLiveSlots v.log = .ok v.slots)
    (hlim : RebuildFits v.log r.op v.slots 0 v.slots.count)
    (hl : Rebuild.build g { rebuildOf v v.log r with
      relocateState := foldState zeroRelocate (rebuildOf v v.log r).relocateState none } 0
        (rebuildOf v v.log r).total = .ok l') :
    l'.Tells (r.op.apply entries) tail := by
  obtain ⟨_, _, hcarries⟩ := h.carries
  have htotal : (rebuildOf v v.log r).total = v.slots.count := by
    show v.slots.count + (if r.op.opAddsEntry = true then 1 else 0) = _
    rw [if_neg (by rw [hr.kept]; exact Bool.false_ne_true), Nat.add_zero]
  rw [htotal] at hl
  have hsized : (rebuildOf v v.log r).Sized := rebuildOf_sized hr.sized
  have hcarries' := Rebuild.build_entries (r := { rebuildOf v v.log r with
      relocateState := foldState zeroRelocate (rebuildOf v v.log r).relocateState none })
    hslots hr.names ⟨hsized.move, foldState_length hsized.relocate nofun⟩ hl
  have hpart : r.op.part (v.slots.entries v.log) 0 v.slots.count = r.op.apply entries := by
    rw [hcarries.entries_eq hslots, h.count hslots, ← r.op.part_total, WriteOp.total, hr.kept]
    rfl
  have htail : liveLink (r.newTail.or v.log.tailLink) = tail := by
    rw [hr.tail, Option.none_or, liveLink_tailLink, h.tailLink]
  change l'.Carries (r.op.part (v.slots.entries v.log) 0 v.slots.count) _ _
    (liveLink (r.newTail.or v.log.tailLink)) at hcarries'
  rw [hpart, htail] at hcarries'
  have hwithin : l'.WithinLimits := build_withinLimits (r := { rebuildOf v v.log r with
      relocateState := foldState zeroRelocate (rebuildOf v v.log r).relocateState none })
    (gatherLiveSlots_typed hslots) hr.formed hlim hl
  exact ⟨⟨_, _, hcarries'⟩, hr.room h.room, hcarries'.gathered hwithin (hr.room h.room)⟩

end Written

/-! ## The pair -/

section Pair

variable {g : Geometry} {s₀ s s' : Fs} {v : PairView} {entries : Entries} {tail : Option TailLink}
  {r : CommitRequest} {l : MetadataLog}

/-- A pair of a device shows entries and a tail. -/
structure Device.Shows (g : Geometry) (d : Device) (p : BlockPair) (entries : Entries)
    (tail : Option TailLink) : Prop where
  apart : p.a ≠ p.b
  fetched : ∃ pair, d.fetch g p = .ok pair ∧ pair.reader.Tells entries tail

/-- The blocks of a pair may have changed, and it shows the entries. -/
structure Republished (g : Geometry) (s₀ : Fs) (p : BlockPair) (tail : Option TailLink)
    (entries : Entries) (s : Fs) : Prop where
  root : s.root = s₀.root
  cached : ∀ m, s.usedCache = some m → s₀.usedCache = some m
  length : s.device.blocks.length = s₀.device.blocks.length
  other : ∀ b, b ≠ p.a → b ≠ p.b → s.device.get b = s₀.device.get b
  shows : s.device.Shows g p entries tail

/-- A pair as a commit finds it. -/
structure PairView.Stands (g : Geometry) (v : PairView) (d : Device) (entries : Entries)
    (tail : Option TailLink) : Prop where
  found : v.Found g [v.activeAddr] d
  tells : v.log.Tells entries tail

theorem BlockPair.Halves.ne {p : BlockPair} {x y : ℕ} (h : p.Halves x y) (hne : x ≠ y) :
    p.a ≠ p.b := by
  rcases h with ⟨rfl, rfl⟩ | ⟨rfl, rfl⟩
  · exact hne
  · exact hne.symm

theorem Device.fetch_halves {d : Device} {p : BlockPair} {pair : MetadataPair}
    (h : d.fetch g p = .ok pair) : p.Halves pair.activeBlock pair.alternateBlock := by
  unfold Device.fetch at h
  split_ifs at h
  obtain ⟨⟨a, b⟩, -, h⟩ := bind_eq_ok.1 h
  rcases MetadataPair.parse_eq_ok h with rfl | rfl
  · exact .inl ⟨rfl, rfl⟩
  · exact .inr ⟨rfl, rfl⟩

/-- The view that a commit has of a pair. -/
theorem Device.Shows.view {p : BlockPair} (h : s.device.Shows g p entries tail) :
    ∃ v, (viewPair g p s).result = .ok v ∧ v.pairAddr = p ∧
      ((s.device.get v.alternateAddr).ErasesQuietly g → v.Stands g s.device entries tail) := by
  obtain ⟨hne, pair, hpair, htells⟩ := h
  obtain ⟨slots, hslots⟩ := htells.gathered
  have hapart : pair.activeBlock ≠ pair.alternateBlock := by
    rcases Device.fetch_halves hpair with ⟨ha, hb⟩ | ⟨ha, hb⟩
    · rwa [← ha, ← hb]
    · rw [← ha, ← hb]
      exact hne.symm
  have hresult : (viewPair g p s).result =
      .ok ⟨p, pair.activeBlock, pair.alternateBlock, pair.reader, slots⟩ := by
    rw [viewPair, fetchPair, Program.bind_silent (query_run hpair), hslots]
    rfl
  refine ⟨_, hresult, rfl, fun hquiet => ⟨⟨Device.fetch_halves hpair, hapart, hpair, hslots, hquiet,
    List.mem_singleton_self _, ?_⟩, htells⟩⟩
  rw [List.mem_singleton]
  exact hapart.symm

/-- One of the halves shows a log and the other one yields to it. -/
theorem PairView.Stands.republished (h : v.Stands g s₀.device entries tail)
    {x y addr : ℕ} (hhalves : v.pairAddr.Halves x y) (hne : x ≠ y)
    (haddr : addr = v.activeAddr ∨ addr = v.alternateAddr) (hw : WritesOnly addr s₀ s)
    (hread : (s.device.get x).reader g = l) (hcommits : l.hasCommits = true)
    (hyields : (s.device.get y).Yields g v.pairAddr x l) {entries' : Entries}
    (hl : l.Tells entries' tail) : Republished g s₀ v.pairAddr tail entries' s where
  root := hw.root
  cached m hm := by
    rw [hw.frame] at hm
    exact hm
  length := hw.length
  other b hba hbb := by
    refine hw.other b ?_
    rintro rfl
    rcases haddr with rfl | rfl
    · rcases h.found.halves with ⟨ha, -⟩ | ⟨-, hb⟩
      · exact hba ha.symm
      · exact hbb hb.symm
    · rcases h.found.halves with ⟨-, hb⟩ | ⟨ha, -⟩
      · exact hbb hb.symm
      · exact hba ha.symm
  shows := by
    obtain ⟨hbounds, hlta, hltb⟩ := Device.fetch_bounds h.found.fetch
    have hlt : x < s.device.blocks.length ∧ y < s.device.blocks.length := by
      rw [hw.length]
      rcases hhalves with ⟨rfl, rfl⟩ | ⟨rfl, rfl⟩
      · exact ⟨hlta, hltb⟩
      · exact ⟨hltb, hlta⟩
    refine ⟨hhalves.ne hne, ⟨x, y, l⟩, ?_, hl⟩
    rw [Device.fetch_eq_active hhalves hne hbounds hlt.1 hlt.2]
    exact ⟨hread, hcommits, hyields⟩

/-- Nothing is written yet. -/
theorem PairView.Stands.unwritten (h : v.Stands g s₀.device entries tail) :
    Republished g s₀ v.pairAddr tail entries s₀ := by
  obtain ⟨hread, hcommits, hyields⟩ := h.found.reads
  exact h.republished h.found.halves h.found.apart (.inl rfl) .refl hread hcommits hyields h.tells

/-- The active half is written to: it holds what it held, the log with a dirty window, or the log
with an appended commit. -/
theorem PairView.Stands.append (h : v.Stands g s₀.device entries tail) (hr : r.Plain)
    (hop : r.op.Addresses entries.length) (hlim : (Event.append v.log v.slots r.op).WithinLimits)
    (hl : buildAppend g v.log r = .ok l) (hw : WritesOnly v.activeAddr s₀ s) :
    (s.device.get v.activeAddr = .log l →
      Republished g s₀ v.pairAddr tail (r.op.apply entries) s) ∧
    (s.device.get v.activeAddr = s₀.device.get v.activeAddr ∨
      s.device.get v.activeAddr = .log { v.log with erased := false } →
        Republished g s₀ v.pairAddr tail entries s) := by
  obtain ⟨hread, hcommits, hyields⟩ := h.found.reads
  have hother : s.device.get v.alternateAddr = s₀.device.get v.alternateAddr :=
    hw.other _ h.found.apart.symm
  obtain ⟨c, fcrc, -, happended⟩ := buildAppend_eq_ok hl
  constructor
  · intro hget
    have hcommits' : l.hasCommits = true := by
      rw [happended]
      simp only [MetadataLog.hasCommits, Bool.not_eq_true', List.isEmpty_eq_false_iff] at hcommits ⊢
      exact List.append_ne_nil_of_left_ne_nil hcommits _
    refine h.republished h.found.halves h.found.apart (.inl rfl) hw (by rw [hget]; rfl) hcommits' ?_
      (h.tells.appended hr hop h.found.slots hlim hl)
    rw [hother]
    have hrevision : l.revision = v.log.revision := by rw [happended]
    unfold Block.Yields Prevails at hyields ⊢
    rw [hrevision]
    exact hyields
  · rintro (hget | hget)
    · refine h.republished h.found.halves h.found.apart (.inl rfl) hw (by rw [hget]; exact hread)
        hcommits ?_ h.tells
      rw [hother]
      exact hyields
    · refine h.republished h.found.halves h.found.apart (.inl rfl) hw (by rw [hget]; rfl)
        (l := { v.log with erased := false }) hcommits ?_ ?_
      · rw [hother]
        exact hyields
      · obtain ⟨_, _, hcarries⟩ := h.tells.carries
        exact ⟨⟨_, _, hcarries.placed, hcarries.entries, hcarries.move, hcarries.relocate,
          hcarries.tail⟩, h.tells.room, h.tells.gathered⟩

/-- The other half is written to: what a rewrite has left of it yields, until the rebuilt log
stands there. -/
theorem PairView.Stands.rebuild (h : v.Stands g s₀.device entries tail) (hr : r.Plain)
    (hlim : RebuildFits v.log r.op v.slots 0 v.slots.count)
    (hl : Rebuild.build g { rebuildOf v v.log r with
      relocateState := foldState zeroRelocate (rebuildOf v v.log r).relocateState none } 0
        (rebuildOf v v.log r).total = .ok l) (hw : WritesOnly v.alternateAddr s₀ s) :
    (s.device.get v.alternateAddr = .log l →
      Republished g s₀ v.pairAddr tail (r.op.apply entries) s) ∧
    ((s₀.device.get v.alternateAddr).Rewriting l (s.device.get v.alternateAddr) →
      Republished g s₀ v.pairAddr tail entries s ∨
        Republished g s₀ v.pairAddr tail (r.op.apply entries) s) := by
  obtain ⟨hread, hcommits, hyields⟩ := h.found.reads
  have hother : s.device.get v.activeAddr = s₀.device.get v.activeAddr :=
    hw.other _ h.found.apart
  have hnew : s.device.get v.alternateAddr = .log l →
      Republished g s₀ v.pairAddr tail (r.op.apply entries) s := by
    intro hget
    refine h.republished h.found.halves.symm h.found.apart.symm (.inr rfl) hw (by rw [hget]; rfl)
      (Rebuild.build_hasCommits hl) (.inr (prevails_next ?_))
      (h.tells.rebuilt hr h.found.slots hlim hl)
    rw [hother, hread, Rebuild.build_revision hl]
    rfl
  refine ⟨hnew, ?_⟩
  have hold : (s.device.get v.alternateAddr).Yields g v.pairAddr v.activeAddr v.log →
      Republished g s₀ v.pairAddr tail entries s := fun hyields' =>
    h.republished h.found.halves h.found.apart (.inr rfl) hw (by rw [hother]; exact hread) hcommits
      hyields' h.tells
  rintro (herasing | htorn | hget)
  · exact .inl (hold (hyields.erasing h.found.quiet herasing))
  · refine .inl (hold ?_)
    rw [htorn]
    exact Block.torn_yields ..
  · exact .inr (hnew hget)

end Pair

/-! ## The commit -/

/-- What keeps a commit in the two blocks of its pair.  An append has to be within the limits of the
readers, and so has a rebuild, which besides is neither split nor moved. -/
structure PairView.InPlace (g : Geometry) (v : PairView) (s : Fs) (r : CommitRequest) : Prop where
  quiet : (s.device.get v.alternateAddr).ErasesQuietly g
  append : canAppend g v.log r = true →
    (Event.append v.log v.slots r.op).WithinLimits ∧ (v.pairAddr ≠ s.root → s.Spared 1)
  rebuild : canAppend g v.log r = false → RebuildFits v.log r.op v.slots 0 v.slots.count ∧
    (v.pairAddr ≠ s.root → s.Spared 2)
  whole : canAppend g v.log r = false → ∀ split,
    computeSplitIndex g v.log v.slots r.op 0 v.slots.count = .ok split → 0 < split →
      ∀ cuts, (splitBudget g v.pairAddr s).result = .ok cuts → cuts = 0
  stays : canAppend g v.log r = false →
    shouldRelocate v.pairAddr s.root ((v.log.revision + 1) % 2 ^ 32) g.blockCycles = false

section Commit

variable {g : Geometry} {K : Event → Prop} {s₀ : Fs} {v : PairView} {entries : Entries}
  {tail : Option TailLink} {r : CommitRequest}

/-- The pair shows the entries as they were or as the operation leaves them. -/
def Republished.Either (g : Geometry) (s₀ : Fs) (p : BlockPair) (tail : Option TailLink)
    (entries : Entries) (op : WriteOp) (s : Fs) : Prop :=
  Republished g s₀ p tail entries s ∨ Republished g s₀ p tail (op.apply entries) s

theorem CommitRequest.Plain.total (hr : r.Plain) (v : PairView) (source : MetadataLog) :
    (rebuildOf v source r).total = v.slots.count := by
  show v.slots.count + (if r.op.opAddsEntry = true then 1 else 0) = _
  rw [if_neg (by rw [hr.kept]; exact Bool.false_ne_true), Nat.add_zero]

/-- An append either holds, and then the operation is carried out, or the device has failed it. -/
theorem triple_tryAppend_stays (h : v.Stands g s₀.device entries tail) (hr : r.Plain)
    (hop : r.op.Addresses entries.length) (hlim : (Event.append v.log v.slots r.op).WithinLimits) :
    Triple K (fun _ => True) (fun s => s = s₀) (tryAppend g v r)
      (fun source s => Republished.Either g s₀ v.pairAddr tail entries r.op s ∧
        (source = none → Republished g s₀ v.pairAddr tail (r.op.apply entries) s) ∧
        (s₀.Spared 1 → source = none))
      (fun _ s => Republished g s₀ v.pairAddr tail entries s) := by
  have hstart : ∀ s, s = s₀ → Republished g s₀ v.pairAddr tail entries s := fun s hs =>
    hs ▸ h.unwritten
  have hlt : v.activeAddr < s₀.device.blocks.length := h.found.bounds.2.1
  refine Triple.bind (R := fun l s => s = s₀ ∧ buildAppend g v.log r = .ok l)
    (Triple.lift (fun s l hs hl => ⟨hs, hl⟩) fun s _ hs _ => hstart s hs) fun l =>
      Triple.pre fun hl => ?_
  refine Triple.seq (R := fun s => s = s₀) (Triple.note fun s hs _ => ⟨True.intro, hs⟩) ?_
  refine Triple.bind (R := fun report s => Republished.Either g s₀ v.pairAddr tail entries r.op s ∧
    (report = .verified → Republished g s₀ v.pairAddr tail (r.op.apply entries) s) ∧
    (s₀.Spared 1 → report = .verified)) ?_ fun report => ?_
  · refine (Triple.self (triple_programBlock _ _ fun _ _ => True.intro)).conseq (fun _ => id) ?_
      fun _ _ hs => hs.1
    rintro report s' ⟨⟨s, rfl, hw, hcontent, hverified⟩, hresult, -⟩
    obtain ⟨hnew, hold⟩ := h.append hr hop hlim hl hw
    refine ⟨?_, fun hreport => hnew (hverified hreport), fun hspared => ?_⟩
    · rcases hcontent with hget | ⟨n, hget⟩ | hget
      · exact .inl (hold (.inl hget))
      · exact .inl (hold (.inr hget))
      · exact .inr (hnew hget)
    · change (programBlock _ _ _ _).result = _ at hresult
      rw [programBlock_spared hspared hlt] at hresult
      exact (Except.ok.inj hresult).symm
  cases report with
  | verified =>
      refine Triple.seq (R := fun s => Republished g s₀ v.pairAddr tail (r.op.apply entries) s)
        (Triple.modify fun s hs => ?_)
        (Triple.pure fun s hs => ⟨.inr hs, fun _ => hs, fun _ => rfl⟩)
      obtain ⟨hroot, hcached, hlength, hother, hshows⟩ := hs.2.1 rfl
      exact ⟨hroot, hcached, hlength, hother, hshows⟩
  | failed => exact Triple.pure fun s hs =>
      ⟨hs.1, fun h => (by cases h), fun hspared => by cases hs.2.2 hspared⟩
  | mismatch =>
      refine Triple.get_bind fun s hs => Triple.pure ?_
      rintro s' rfl
      exact ⟨hs.1, fun h => (by cases h), fun hspared => by cases hs.2.2 hspared⟩

/-- A rebuild of the whole pair on its other half, without a move. -/
theorem triple_compactSingle_stays (commit : CommitFn) (h : v.Stands g s₀.device entries tail)
    (hr : r.Plain) (hlim : RebuildFits v.log r.op v.slots 0 v.slots.count)
    (hspared : v.pairAddr ≠ s₀.root → s₀.Spared 2)
    (hstays : shouldRelocate v.pairAddr s₀.root ((v.log.revision + 1) % 2 ^ 32) g.blockCycles =
      false) (inflight : Inflight) :
    Triple K (fun _ => True) (fun s => s = s₀)
      (compactSingle g commit v (rebuildOf v v.log r) inflight)
      (fun moved s => moved = none ∧ Republished g s₀ v.pairAddr tail (r.op.apply entries) s)
      (fun _ s => Republished.Either g s₀ v.pairAddr tail entries r.op s) := by
  have hlt : v.alternateAddr < s₀.device.blocks.length := h.found.bounds.2.2
  refine Triple.get_bind fun s₁ hs₁ => ?_
  subst hs₁
  have hstart : ∀ s, s = s₁ → Republished.Either g s₁ v.pairAddr tail entries r.op s := fun s hs =>
    .inl (hs ▸ h.unwritten)
  refine Triple.bind (R := fun fresh s => s = s₁ ∧ fresh = none) ?_ fun fresh => Triple.pre ?_
  · refine Triple.get_bind fun s hs => ?_
    subst hs
    show Triple K _ _ (if shouldRelocate v.pairAddr s.root ((v.log.revision + 1) % 2 ^ 32)
      g.blockCycles = true then _ else _) _ _
    rw [hstays]
    exact Triple.pure fun s hs => ⟨hs, rfl⟩
  rintro rfl
  refine Triple.bind (triple_buildRange _ _ _ (fun _ _ _ _ _ => True.intro) fun _ => hstart)
    fun l => Triple.pre fun hl => ?_
  refine Triple.bind (R := fun ok s => Republished.Either g s₁ v.pairAddr tail entries r.op s ∧
    (ok = true → Republished g s₁ v.pairAddr tail (r.op.apply entries) s) ∧
    (s₁.Spared 2 → ok = true)) ?_ fun ok => ?_
  · refine (Triple.self (triple_eraseAndProgramLog l (fun _ _ => True.intro)
      fun _ _ _ _ _ => True.intro)).conseq (fun _ => id) ?_ fun _ _ hs => hs.1
    rintro ok s' ⟨⟨s, rfl, hw, hrewriting, hstored⟩, hresult, -⟩
    obtain ⟨hnew, heither⟩ := h.rebuild hr hlim hl hw
    refine ⟨heither hrewriting, fun hok => hnew (hstored hok).2, fun hspared => ?_⟩
    rw [eraseAndProgramLog_spared hspared hlt] at hresult
    exact (Except.ok.inj hresult).symm
  refine Triple.ite (fun hok => ?_) fun hno => Triple.ite (fun _ => Triple.fail fun s hs => hs.1)
    fun hne => ?_
  · refine Triple.seq (R := fun s => Republished g s₁ v.pairAddr tail (r.op.apply entries) s)
      (Triple.modify fun s hs => ?_) (Triple.pure fun s hs => ⟨rfl, hs⟩)
    obtain ⟨hroot, hcached, hlength, hother, hshows⟩ := hs.2.1 hok
    exact ⟨hroot, hcached, hlength, hother, hshows⟩
  · -- off the root the calls succeed
    refine Triple.strengthen (P := fun _ => False) ⟨fun _ hs => hs.elim⟩ fun s hs => ?_
    exact hno (hs.2.2 (hspared hne))

/-- What a split may use is only read. -/
theorem triple_splitBudget_reads (p : BlockPair) :
    Triple K (fun _ => True) (fun s => s = s₀) (splitBudget g p)
      (fun cuts s => s = s₀ ∧ (splitBudget g p s₀).result = .ok cuts) (fun _ s => s = s₀) := by
  have hreads : Triple K (fun _ => True) (fun s => s = s₀) (splitBudget g p)
      (fun _ s => s = s₀) (fun _ s => s = s₀) := by
    refine Triple.get_bind fun s hs => ?_
    subst hs
    refine Triple.bind (R := fun _ s' => s' = s) (Triple.query (fun _ _ hs _ => hs)
      fun _ _ hs _ => hs) fun tree => Triple.ite (fun _ => Triple.pure fun _ hs => hs) fun _ =>
        Triple.ite (fun _ => ?_) fun _ => Triple.pure fun _ hs => hs
    exact Triple.bind (R := fun _ s' => s' = s) (Triple.query (fun _ _ hs _ => hs)
      fun _ _ hs _ => hs) fun used => Triple.ite (fun _ => Triple.pure fun _ hs => hs) fun _ =>
        Triple.pure fun _ hs => hs
  exact (Triple.self hreads).conseq (fun _ => id) (fun _ _ hs => ⟨hs.1, hs.2.1⟩) fun _ _ hs => hs.1

/-- A rebuild that is not split. -/
theorem triple_compactAndProgram_stays (commit : CommitFn) (h : v.Stands g s₀.device entries tail)
    (hr : r.Plain) (hplace : v.InPlace g s₀ r) (happend : canAppend g v.log r = false)
    (inflight : Inflight) :
    Triple K (fun _ => True) (fun s => s = s₀)
      (compactAndProgram g commit v (rebuildOf v v.log r) inflight false)
      (fun moved s => moved = none ∧ Republished g s₀ v.pairAddr tail (r.op.apply entries) s)
      (fun _ s => Republished.Either g s₀ v.pairAddr tail entries r.op s) := by
  have hstart : ∀ s, s = s₀ → Republished.Either g s₀ v.pairAddr tail entries r.op s := fun s hs =>
    .inl (hs ▸ h.unwritten)
  obtain ⟨hlim, hspared⟩ := hplace.rebuild happend
  refine Triple.get_bind fun s₁ hs₁ => ?_
  subst hs₁
  rw [if_neg Bool.false_ne_true, hr.total]
  refine Triple.bind (R := fun split s => s = s₁ ∧
    computeSplitIndex g v.log v.slots r.op 0 v.slots.count = .ok split)
    (Triple.lift (fun s split hs hsplit => ⟨hs, hsplit⟩) fun s _ hs _ => hstart s hs) fun split =>
      Triple.pre fun hsplit => ?_
  refine Triple.bind (R := fun cuts s => s = s₁ ∧ cuts = 0) ?_ fun cuts => Triple.pre ?_
  · refine Triple.ite (fun hpos => ?_) fun _ => Triple.pure fun s hs => ⟨hs, rfl⟩
    exact (triple_splitBudget_reads v.pairAddr).conseq (fun _ => id)
      (fun cuts s hs => ⟨hs.1, hplace.whole happend split hsplit hpos cuts hs.2⟩)
      fun _ s hs => hstart s hs
  rintro rfl
  rw [if_neg (Nat.lt_irrefl 0)]
  exact triple_compactSingle_stays commit h hr hlim hspared (hplace.stays happend) inflight

/-- A commit that stays in its pair: behind it the pair shows the entries as the operation leaves
them, and if it fails perhaps as they were. -/
theorem triple_commitWith_stays (commit : CommitFn) (hr : r.Plain)
    (hpair : r.pair = v.pairAddr) (h : v.Stands g s₀.device entries tail)
    (hop : r.op.Addresses entries.length) (hplace : v.InPlace g s₀ r) :
    Triple K (fun _ => True) (fun s => s = s₀) (commitWith g commit r)
      (fun _ s => Republished g s₀ v.pairAddr tail (r.op.apply entries) s)
      (fun _ s => Republished.Either g s₀ v.pairAddr tail entries r.op s) := by
  have hstart : ∀ s, s = s₀ → Republished.Either g s₀ v.pairAddr tail entries r.op s := fun s hs =>
    .inl (hs ▸ h.unwritten)
  refine Triple.get_bind fun s₁ hs₁ => ?_
  subst hs₁
  refine Triple.seq (R := fun s => s = s₁) (Triple.note fun s hs _ => ⟨True.intro, hs⟩) ?_
  refine Triple.bind (R := fun v' s => s = s₁ ∧ v' = v) ?_ fun v' => Triple.pre ?_
  · refine Triple.bind (R := fun pair s => s = s₁ ∧
      pair = ⟨v.activeAddr, v.alternateAddr, v.log⟩) (Triple.query (fun s pair hs hfetch => ?_)
        fun s _ hs _ => hstart s hs) fun pair => Triple.pre ?_
    · rw [hs, hpair] at hfetch
      exact ⟨hs, Except.ok.inj (hfetch.symm.trans h.found.fetch)⟩
    · rintro rfl
      refine Triple.bind (R := fun slots s => s = s₁ ∧ slots = v.slots) (Triple.lift
        (fun s slots hs hslots => ⟨hs, Except.ok.inj (hslots.symm.trans h.found.slots)⟩)
        fun s _ hs _ => hstart s hs) fun slots => Triple.pure ?_
      rintro s ⟨hs, rfl⟩
      exact ⟨hs, by rw [hpair]⟩
  rintro rfl
  refine Triple.ite (fun happend => ?_) fun hrebuild => ?_
  · obtain ⟨hlim, hspared⟩ := hplace.append happend
    refine Triple.bind ((triple_tryAppend_stays h hr hop hlim).conseq (fun _ => id) (fun _ _ => id)
      fun _ s hs => .inl hs) fun source => ?_
    cases source with
    | none => exact Triple.pure fun s hs => hs.2.1 rfl
    | some source =>
        -- the fallback is refused at the root, and elsewhere there is none
        by_cases hroot : v'.pairAddr = s₁.root
        · refine Triple.bind (R := fun _ _ => False) (Triple.get_bind fun s hs => ?_)
            fun _ => ⟨fun _ hs => hs.elim⟩
          rw [if_pos rfl, if_pos (hroot.trans ?_)]
          · exact Triple.fail fun s' hs' => hs' ▸ hs.1
          · rcases hs.1 with hs | hs <;> exact hs.root.symm
        · refine Triple.strengthen (P := fun _ => False) ⟨fun _ hs => hs.elim⟩ fun s hs => ?_
          cases hs.2.2 (hspared hroot)
  · have happend : canAppend g v'.log r = false := by simpa using hrebuild
    refine Triple.bind (triple_compactAndProgram_stays commit h hr hplace happend r.inflight)
      fun moved => ?_
    refine Triple.strengthen
      (P := fun s => Republished g s₁ v'.pairAddr tail (r.op.apply entries) s ∧ moved = none)
      (Triple.pre ?_) fun s hs => ⟨hs.2, hs.1⟩
    rintro rfl
    exact Triple.pure fun s hs => hs

end Commit

end LittlefsPure
