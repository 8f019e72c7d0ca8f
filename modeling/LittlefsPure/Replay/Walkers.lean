import LittlefsPure.Disk.Splice

/-!
# The walkers agree

`live_entries`, `lookup_checked`, `gather_live_slots` and `gather_live_structs` share the
splice step and keep different things in their slots.  A function of the slots that
commutes with the slot functions commutes with the walk (`walkTags_map`), so the walkers
accept the same logs, count alike, and see what `gather_live_slots` records.

## Why the roster of all slots is the finest

`gather_live_slots` keeps a NAME, a STRUCT and their places; each of the others keeps less.  So
there is a function from its slots to theirs, and the agreement of any two walkers follows from two
such functions.  The damage that makes one walker fail makes all of them fail, since the errors
come from the splice step and from the limits on places, and these do not look at what is kept.
-/

namespace LittlefsPure

open Logic

/-! ## Walks that keep a function of the slots -/

theorem Roster.map_new {α β : Type} (proj : α → β) (empty : α) :
    (Roster.new empty).map proj = Roster.new (proj empty) := by
  rw [Roster.map, Roster.new, List.map_replicate, Roster.new]

theorem Roster.live_map {α β : Type} (proj : α → β) (r : Roster α) :
    (r.map proj).live = r.live.map proj := by
  rw [Roster.live, Roster.live, Roster.map, List.map_take]

section Commute

variable {α β : Type} {empty : α} {proj : α → β} {r : Roster α}

theorem Roster.update_commutes {onSlot : α → Except Error α} {onSlot' : β → Except Error β}
    (h : ∀ s, onSlot' (proj s) = (onSlot s).map proj) (id : ℕ) :
    (r.map proj).update id onSlot' = (r.update id onSlot).map (Roster.map proj) := by
  rw [Roster.update, Roster.update, Roster.map, List.getElem?_map]
  cases r.slots[id]? with
  | none => rfl
  | some s =>
      simp only [Option.map_some, h s]
      cases onSlot s with
      | error e => rfl
      | ok s' =>
          show Except.ok _ = Except.ok _
          rw [Roster.map, List.map_set]

variable {onName onStruct : ℕ → TagEntry → α → Except Error α}
  {onName' onStruct' : ℕ → TagEntry → β → Except Error β}

/-- One tag, in two walks of which the second keeps a function of what the first keeps. -/
theorem walkTag_commutes {off : ℕ} {t : TagEntry}
    (hname : ∀ s, onName' (off + 4) t (proj s) = (onName (off + 4) t s).map proj)
    (hstruct : ∀ s, onStruct' (off + 4) t (proj s) = (onStruct (off + 4) t s).map proj) :
    walkTag (proj empty) onName' onStruct' off t (r.map proj) =
      (walkTag empty onName onStruct off t r).map (Roster.map proj) := by
  rw [walkTag, walkTag, spliceStep_commutes]
  cases spliceStep empty r t with
  | error e => rfl
  | ok x =>
      obtain ⟨step, r'⟩ := x
      cases step with
      | consumed => rfl
      | name id => exact Roster.update_commutes hname id
      | other =>
          simp only [bind, Except.bind, Except.map]
          split_ifs
          · exact Roster.update_commutes hstruct t.id
          · rfl

/-- A whole walk, on a log that ends below a limit. -/
theorem walkTags_commutes (proj : α → β) (limit : ℕ)
    (hname : ∀ off t s, off + t.body.length ≤ limit →
      onName' off t (proj s) = (onName off t s).map proj)
    (hstruct : ∀ off t s, off + t.body.length ≤ limit →
      onStruct' off t (proj s) = (onStruct off t s).map proj)
    {ts : List TagEntry} {off : ℕ} (hts : off + tagsSize ts ≤ limit) :
    walkTags (proj empty) onName' onStruct' ts off (r.map proj) =
      (walkTags empty onName onStruct ts off r).map (Roster.map proj) := by
  induction ts generalizing off r with
  | nil => rfl
  | cons t ts ih =>
      rw [tagsSize_cons, TagEntry.dsize] at hts
      rw [walkTags_cons, walkTags_cons, walkTag_commutes (fun s => hname (off + 4) t s (by omega))
        (fun s => hstruct (off + 4) t s (by omega))]
      cases walkTag empty onName onStruct off t r with
      | error e => rfl
      | ok r' => exact ih (by rw [TagEntry.dsize]; omega)

end Commute

/-! ## Slots with their ids -/

section Ids

variable {α β : Type} {f : α × ℕ → Option β} (id : β → ℕ)

theorem pairwise_zipIdx (xs : List α) : xs.zipIdx.Pairwise fun x y => x.2 < y.2 := by
  have hids : (xs.zipIdx.map Prod.snd).Pairwise (· < ·) := by
    rw [List.zipIdx_map_snd]
    exact List.pairwise_lt_range' 1
  exact List.pairwise_map.1 hids

/-- What is made of the slots one by one comes in id order. -/
theorem pairwise_ids (hid : ∀ x b, f x = some b → id b = x.2) (xs : List α) :
    ((xs.zipIdx.filterMap f).map id).Pairwise (· < ·) := by
  refine List.pairwise_map.2 (List.Pairwise.filterMap f ?_ (pairwise_zipIdx xs))
  intro x y hlt b hb b' hb'
  show id b < id b'
  rw [hid x b hb, hid y b' hb']
  exact hlt

/-- The first slot of which something is made has the lowest id. -/
theorem findSome?_lowest {xs : List α} (hid : ∀ x ∈ xs.zipIdx, ∀ b, f x = some b → id b = x.2)
    {b b' : β} (h : xs.zipIdx.findSome? f = some b) {x : α × ℕ} (hx : x ∈ xs.zipIdx)
      (hb' : f x = some b') :
    id b ≤ id b' := by
  obtain ⟨before, y, behind, hsplit, hb, hnone⟩ := List.findSome?_eq_some_iff.1 h
  have hpairs := pairwise_zipIdx xs
  rw [hsplit] at hpairs hx hid
  have hy : y ∈ before ++ y :: behind := List.mem_append_right _ (List.mem_cons_self ..)
  rcases List.mem_append.1 hx with hx | hx
  · rw [hnone x hx] at hb'
    cases hb'
  · rw [hid y hy b hb, hid x (List.mem_append_right _ hx) b' hb']
    rcases List.mem_cons.1 hx with rfl | hx
    · exact Nat.le_refl _
    · exact Nat.le_of_lt (List.rel_of_pairwise_cons (List.pairwise_append.1 hpairs).2.1 hx)

end Ids

/-! ## What a walker sees of a slot -/

/-- What `lookup_checked` makes of a gathered slot. -/
def Slot.lookup (s : Slot) : LookupSlot :=
  ⟨s.name.map Prod.snd, s.name.bind fun n => n.1.entryKind, s.struct⟩

/-- What `live_entries` keeps of an entry: the name and kind, if a user can see it. -/
def Slot.listed (s : Slot) : Option (Body × EntryKind) :=
  s.name.bind fun n => n.1.entryKind.map fun k => (n.2, k)

/-- A live slot has the name and kind of an entry that a user can see. -/
def Roster.Lists (slots : Roster Slot) (e : DirEntry) : Prop :=
  e.id < slots.count ∧
    ∃ s type, slots.slots[e.id]? = some s ∧ s.name = some (type, e.name) ∧ type.entryKind =
      some e.kind

/-- A live slot with a name: an entry that a user can see, with its STRUCT. -/
def Roster.Resolves (slots : Roster Slot) (name : Body) (r : Resolved) : Prop :=
  slots.Lists r.entry ∧ r.entry.name.content = name.content ∧
    ∃ s, slots.slots[r.entry.id]? = some s ∧ s.struct = some (r.structType, r.structBody)

/-- What `lookup_checked` makes of a slot with its id. -/
def Slot.hit (name : Body) (i : ℕ) (s : Slot) : Option Resolved :=
  s.name.bind fun n => n.1.entryKind.bind fun k => s.struct.bind fun b =>
    if n.2.content = name.content then some ⟨⟨i, n.2, k⟩, b.1, b.2⟩ else none

theorem Slot.hit_eq_some {name : Body} {i : ℕ} {s : Slot} {r : Resolved} :
    s.hit name i = some r ↔ r.entry.id = i ∧
      (∃ type, s.name = some (type, r.entry.name) ∧ type.entryKind = some r.entry.kind) ∧
      r.entry.name.content = name.content ∧ s.struct = some (r.structType, r.structBody) := by
  constructor
  · intro h
    obtain ⟨⟨type, n⟩, hname, h⟩ := Option.bind_eq_some_iff.1 h
    obtain ⟨k, hkind, h⟩ := Option.bind_eq_some_iff.1 h
    obtain ⟨⟨st, sb⟩, hstruct, h⟩ := Option.bind_eq_some_iff.1 h
    split_ifs at h with hcontent
    cases h
    exact ⟨rfl, ⟨type, hname, hkind⟩, hcontent, hstruct⟩
  · obtain ⟨⟨id, n, k⟩, st, sb⟩ := r
    rintro ⟨rfl, ⟨type, hname, hkind⟩, hcontent, hstruct⟩
    refine Option.bind_eq_some_iff.2 ⟨_, hname, Option.bind_eq_some_iff.2 ⟨k, hkind, ?_⟩⟩
    exact Option.bind_eq_some_iff.2 ⟨_, hstruct, if_pos hcontent⟩

section Walkers

variable {l : MetadataLog} (hl : l.committedEnd ≤ 0xFFFF)
include hl

/-- The tags of a log end below the limit of a slot offset. -/
theorem tags_below : 4 + tagsSize l.tags ≤ 0xFFFF ∨ l.tags = [] := by
  rw [MetadataLog.committedEnd] at hl
  cases htags : l.tags with
  | nil => exact .inr rfl
  | cons t ts =>
      rw [htags] at hl
      exact .inl hl

/-- A walker that keeps a function of the slots that `gather_live_slots` keeps. -/
theorem walker_eq {β : Type} (proj : Slot → β) (onName onStruct : ℕ → TagEntry → β → Except Error β)
    (hname : ∀ off t s, onName off t (proj s) =
      .ok (proj { s with name := some (t.tagType, t.body) }))
    (hstruct : ∀ off t s,
      onStruct off t (proj s) = .ok (proj { s with struct := some (t.tagType, t.body) })) :
    walkTags (proj Slot.empty) onName onStruct l.tags 4 (Roster.new (proj Slot.empty)) =
      (gatherLiveSlots l).map (Roster.map proj) := by
  have hfits : ∀ n, n ≤ 0xFFFF → fitsU16 n = true := fun n hn => decide_eq_true hn
  rcases tags_below hl with hbelow | hnil
  · rw [← Roster.map_new, gatherLiveSlots, gatherSlotsFrom]
    refine walkTags_commutes proj 0xFFFF (fun off t s hoff => ?_) (fun off t s hoff => ?_) hbelow
    · rw [hname, Slot.setName, hfits _ (by omega), hfits _ (by omega)]
      rfl
    · rw [hstruct, Slot.setStruct, hfits _ (by omega), hfits _ (by omega)]
      rfl
  · rw [gatherLiveSlots, gatherSlotsFrom, hnil, ← Roster.map_new]
    rfl

omit hl in
/-- A live slot, by its id. -/
theorem mem_live_zipIdx {β : Type} {proj : Slot → β} {slots : Roster Slot} {x : β × ℕ} :
    x ∈ (slots.map proj).live.zipIdx ↔
      x.2 < slots.count ∧ ∃ s, slots.slots[x.2]? = some s ∧ proj s = x.1 := by
  rw [List.mem_zipIdx_iff_getElem?, Roster.live_map, List.getElem?_map, Roster.live,
    List.getElem?_take]
  by_cases hlt : x.2 < slots.count
  · rw [if_pos hlt, Option.map_eq_some_iff]
    exact ⟨fun h => ⟨hlt, h⟩, fun h => h.2⟩
  · rw [if_neg hlt]
    exact ⟨fun h => absurd h nofun, fun h => absurd h.1 hlt⟩

/-- The verdict of `live_entries`, and what it calls back for. -/
theorem liveEntries_slots :
    (∀ e, gatherLiveSlots l = .error e → liveEntries l = .error e) ∧
      ∀ slots, gatherLiveSlots l = .ok slots → ∃ found, liveEntries l = .ok (slots.count, found) ∧
        (found.map DirEntry.id).Pairwise (· < ·) ∧ ∀ e, e ∈ found ↔ slots.Lists e := by
  have hwalk := walker_eq hl Slot.listed
    (fun _ t _ => .ok (t.tagType.entryKind.map fun k => (t.body, k)))
    (fun _ _ s => .ok s) (fun _ _ _ => rfl) (fun _ _ _ => rfl)
  have hlist : liveEntries l = _ := congrArg (Except.map _) hwalk
  constructor
  · intro e he
    rw [hlist, he]
    rfl
  · intro slots hslots
    rw [hslots] at hlist
    refine ⟨_, hlist, pairwise_ids DirEntry.id ?_ _, fun e => ?_⟩
    · rintro ⟨s, i⟩ e he
      obtain ⟨n, -, rfl⟩ := Option.map_eq_some_iff.1 he
      rfl
    · rw [List.mem_filterMap]
      constructor
      · rintro ⟨⟨o, i⟩, hmem, he⟩
        obtain ⟨hlt, s, hs, rfl⟩ := mem_live_zipIdx.1 hmem
        obtain ⟨⟨n, k⟩, hn, rfl⟩ := Option.map_eq_some_iff.1 he
        obtain ⟨⟨type, body⟩, hname, hk⟩ := Option.bind_eq_some_iff.1 hn
        obtain ⟨k', hkind, hpair⟩ := Option.map_eq_some_iff.1 hk
        cases hpair
        exact ⟨hlt, s, type, hs, hname, hkind⟩
      · rintro ⟨hlt, s, type, hs, hname, hkind⟩
        refine ⟨(some (e.name, e.kind), e.id), mem_live_zipIdx.2 ⟨hlt, s, hs, ?_⟩, rfl⟩
        rw [Slot.listed, hname]
        show Option.map _ type.entryKind = _
        rw [hkind]
        rfl

omit hl in
/-- A search of the slots that goes by `Slot.hit` finds the lowest id with the name. -/
theorem findSome?_slots {f : LookupSlot × ℕ → Option Resolved} {name : Body}
    (hf : ∀ s i, f (Slot.lookup s, i) = s.hit name i) (slots : Roster Slot) :
    ((slots.map Slot.lookup).live.zipIdx.findSome? f = none → ∀ r, ¬ slots.Resolves name r) ∧
      ∀ r, (slots.map Slot.lookup).live.zipIdx.findSome? f = some r → slots.Resolves name r ∧
        ∀ r', slots.Resolves name r' → r.entry.id ≤ r'.entry.id := by
  have hresolves : ∀ x ∈ (slots.map Slot.lookup).live.zipIdx, ∀ r, f x = some r →
      r.entry.id = x.2 ∧ slots.Resolves name r := by
    rintro ⟨_, i⟩ hx r hr
    obtain ⟨hlt, s, hs, rfl⟩ := mem_live_zipIdx.1 hx
    obtain ⟨rfl, ⟨type, hname, hkind⟩, hcontent, hstruct⟩ :=
      Slot.hit_eq_some.1 ((hf s i).symm.trans hr)
    exact ⟨rfl, ⟨hlt, s, type, hs, hname, hkind⟩, hcontent, s, hs, hstruct⟩
  have hfound : ∀ r, slots.Resolves name r →
      ∃ x ∈ (slots.map Slot.lookup).live.zipIdx, f x = some r := by
    rintro r ⟨⟨hlt, s, type, hs, hname, hkind⟩, hcontent, s', hs', hstruct⟩
    rw [hs] at hs'
    cases hs'
    exact ⟨(s.lookup, r.entry.id), mem_live_zipIdx.2 ⟨hlt, s, hs, rfl⟩, (hf s _).trans
      (Slot.hit_eq_some.2 ⟨rfl, ⟨type, hname, hkind⟩, hcontent, hstruct⟩)⟩
  constructor
  · intro hnone r hr
    obtain ⟨x, hx, hxr⟩ := hfound r hr
    rw [List.findSome?_eq_none_iff.1 hnone x hx] at hxr
    cases hxr
  · intro r hr
    obtain ⟨before, y, behind, hsplit, hy, -⟩ := List.findSome?_eq_some_iff.1 hr
    have hmem : y ∈ (slots.map Slot.lookup).live.zipIdx :=
      hsplit ▸ List.mem_append_right _ (List.mem_cons_self ..)
    refine ⟨(hresolves y hmem r hy).2, fun r' hr' => ?_⟩
    obtain ⟨x, hx, hxr⟩ := hfound r' hr'
    exact findSome?_lowest (fun r => r.entry.id) (fun x hx b hb => (hresolves x hx b hb).1)
      hr hx hxr

/-- The verdict of `lookup_checked`, and what it finds. -/
theorem lookupChecked_slots (name : Body) :
    (∀ e, gatherLiveSlots l = .error e → lookupChecked l name = .error e) ∧
      ∀ slots, gatherLiveSlots l = .ok slots → ∃ hit, lookupChecked l name = .ok hit ∧
        (hit = none → ∀ r, ¬ slots.Resolves name r) ∧
        ∀ r, hit = some r → slots.Resolves name r ∧
          ∀ r', slots.Resolves name r' → r.entry.id ≤ r'.entry.id := by
  have hwalk := walker_eq hl Slot.lookup
    (fun _ t s => .ok { s with name := some t.body, kind := t.tagType.entryKind })
    (fun _ t s => .ok { s with structData := some (t.tagType, t.body) })
    (fun _ _ _ => rfl) (fun _ _ _ => rfl)
  have hlookup : lookupChecked l name = _ := congrArg (Except.map _) hwalk
  constructor
  · intro e he
    rw [hlookup, he]
    rfl
  · intro slots hslots
    rw [hslots] at hlookup
    refine ⟨_, hlookup, findSome?_slots (fun s i => ?_) slots⟩
    obtain ⟨name', struct⟩ := s
    cases name' with
    | none => rfl
    | some n =>
        obtain ⟨type, body⟩ := n
        simp only [Slot.lookup, Slot.hit, Option.map_some, Option.bind_some]
        cases type.entryKind with
        | none => rfl
        | some k =>
            cases struct with
            | none => rfl
            | some b => rfl

omit hl in
theorem count_map {α β : Type} (proj : α → β) (r : Except Error (Roster α)) :
    (r.map (Roster.map proj)).map Roster.count = r.map Roster.count := by
  cases r <;> rfl

/-- The verdict and the count of `gather_live_structs`: the walk without any slots. -/
theorem gatherLiveStructs_count :
    (gatherLiveStructs l).map Roster.count = (gatherLiveSlots l).map Roster.count := by
  have hslots := walker_eq hl (fun _ => ()) (fun _ _ s => .ok s) (fun _ _ s => .ok s)
    (fun _ _ _ => rfl) (fun _ _ _ => rfl)
  have hstructs : walkTags () (fun _ _ s => .ok s) (fun _ _ s => .ok s) l.tags 4 (Roster.new ()) =
      (gatherLiveStructs l).map (Roster.map fun _ => ()) := by
    rw [gatherLiveStructs, ← Roster.map_new (fun _ : LiveStruct => ()) LiveStruct.none]
    refine walkTags_commutes (fun _ => ()) (4 + tagsSize l.tags) (fun _ _ _ _ => rfl)
      (fun _ t s _ => ?_) (Nat.le_refl _)
    split_ifs
    · cases t.tagType <;> rfl
    · rfl
  rw [← count_map (fun _ => ()) (gatherLiveStructs l), ← hstructs, hslots, count_map]

end Walkers

/-- The four walkers agree on every log that fits the offsets of a slot: they have the same
verdict and the same count, `live_entries` calls back in id order for exactly the entries that
`gather_live_slots` records with a kind that a user can see, and `lookup_checked` finds the lowest
id that it records with the name, such a kind and a STRUCT. -/
theorem walkers_agree (l : MetadataLog) (hl : l.committedEnd ≤ 0xFFFF) :
    (liveEntries l).map Prod.fst = (gatherLiveSlots l).map Roster.count ∧
      (gatherLiveStructs l).map Roster.count = (gatherLiveSlots l).map Roster.count ∧
      (∀ name, (lookupChecked l name).map (fun _ => ()) = (gatherLiveSlots l).map fun _ => ()) ∧
      ∀ slots, gatherLiveSlots l = .ok slots →
        (∀ count found, liveEntries l = .ok (count, found) →
          (found.map DirEntry.id).Pairwise (· < ·) ∧ ∀ e, e ∈ found ↔ slots.Lists e) ∧
        ∀ name hit, lookupChecked l name = .ok hit →
          (hit = none → ∀ r, ¬ slots.Resolves name r) ∧
          ∀ r, hit = some r → slots.Resolves name r ∧
            ∀ r', slots.Resolves name r' → r.entry.id ≤ r'.entry.id := by
  obtain ⟨hentriesError, hentries⟩ := liveEntries_slots hl
  refine ⟨?_, gatherLiveStructs_count hl, fun name => ?_, fun slots hslots => ⟨?_, ?_⟩⟩
  · cases hslots : gatherLiveSlots l with
    | error e =>
        rw [hentriesError e hslots]
        rfl
    | ok slots =>
        obtain ⟨found, hfound, -⟩ := hentries slots hslots
        rw [hfound]
        rfl
  · obtain ⟨hlookupError, hlookup⟩ := lookupChecked_slots hl name
    cases hslots : gatherLiveSlots l with
    | error e =>
        rw [hlookupError e hslots]
        rfl
    | ok slots =>
        obtain ⟨hit, hhit, -⟩ := hlookup slots hslots
        rw [hhit]
        rfl
  · intro count found hfound
    obtain ⟨found', hfound', hprops⟩ := hentries slots hslots
    rw [hfound] at hfound'
    cases hfound'
    exact hprops
  · intro name hit hhit
    obtain ⟨hit', hhit', hprops⟩ := (lookupChecked_slots hl name).2 slots hslots
    rw [hhit] at hhit'
    cases hhit'
    exact hprops

/-- A log whose STRUCT comes before the NAME that opens its entry, behind the superblock. -/
def parkedLog : MetadataLog where
  revision := 1
  tags := [⟨.inlineStruct, 1, .bytes [7]⟩, ⟨.superblock, 0, .bytes [0x6c]⟩,
    ⟨.regularFile, 1, .bytes [0x61]⟩]
  erased := false

theorem walkers_agree_parked :
    (liveEntries parkedLog).map Prod.fst = .ok 2 ∧
      ∀ hit, lookupChecked parkedLog (.bytes [0x61]) = .ok (some hit) →
        hit.structBody = .bytes [7] := by
  have hslots : (gatherLiveSlots parkedLog).map (fun r => (r.count, r.slots[1]?)) =
      .ok (2, some ⟨some (.regularFile, .bytes [0x61]), some (.inlineStruct, .bytes [7])⟩) := by
    decide +kernel
  obtain ⟨slots, hgather, hslots⟩ := map_eq_ok.1 hslots
  obtain ⟨hcount, hone⟩ := Prod.mk.inj hslots
  obtain ⟨hverdict, -, -, hfinds⟩ := walkers_agree parkedLog (by decide)
  rw [hgather] at hverdict
  refine ⟨hverdict.trans (congrArg Except.ok hcount), fun hit hhit => ?_⟩
  obtain ⟨⟨hlt, -⟩, -, s, hs, hstruct⟩ := (((hfinds slots hgather).2 _ _ hhit).2 hit rfl).1
  -- id 0 is the superblock, which has no STRUCT
  have hzero : (gatherLiveSlots parkedLog).map (fun r => r.slots[0]?) =
      .ok (some ⟨some (.superblock, .bytes [0x6c]), none⟩) := by
    decide +kernel
  obtain ⟨slots', hgather', hzero⟩ := map_eq_ok.1 hzero
  rw [hgather] at hgather'
  cases hgather'
  have hid : hit.entry.id = 0 ∨ hit.entry.id = 1 := by omega
  rcases hid with hid | hid
  · rw [hid, hzero] at hs
    cases hs
    cases hstruct
  · rw [hid, hone] at hs
    cases hs
    exact (congrArg Prod.snd (Option.some.inj hstruct)).symm

end LittlefsPure
