import LittlefsPure.Split.Lower

/-!
# The fallback of a failed append

An append that fails has the pair rebuilt on a fresh block.  The slots of the rebuild were
gathered in front of the append, the attributes are read from the buffer behind it, and a
program that reports an error leaves the appended commit in that buffer.  So the attributes
are looked up at ids that the operation has already renumbered.

## Why this is exact

Whether the stale attributes do harm depends on the operation: one that removes or inserts an
entry shifts the ids behind it, and each of those entries is given the attributes of its
neighbour, while one that changes an entry in place shifts nothing.  And it depends on the device:
only a program that reports an error after it has changed the buffer comes this way.  The condition
names both, and when it fails the entries differ in the attributes of some entry, which is what the
other direction takes.
-/

namespace LittlefsPure

open FsM Logic Entries

/-! ## Two snapshots of one log -/

/-- The entries of one snapshot with the attributes of another, matched by their ids. -/
def Entries.reread (entries after : Entries) : Entries :=
  entries.mapIdx fun i e => { e with attrs := fun a => after[i]?.bind fun e' => e'.attrs a }

/-- No entry behind `id` carries an attribute. -/
def Entries.BareBehind (entries : Entries) (id : ℕ) : Prop :=
  ∀ i e, id < i → entries[i]? = some e → ∀ a, e.attrs a = none

section Reread

variable {entries : Entries} {op : WriteOp} {id : ℕ}

theorem getElem?_reread (entries after : Entries) (i : ℕ) :
    (entries.reread after)[i]? = entries[i]?.map fun e =>
      { e with attrs := fun a => after[i]?.bind fun e' => e'.attrs a } := by
  rw [reread, List.getElem?_mapIdx]

/-- An operation that changes entries in place is not disturbed by its own changes. -/
theorem apply_reread_modify {f : Entry → Entry} (hid : op.target = some id)
    (hadds : op.opAddsEntry = false) (hf : ∀ e, op.change e = some (f e))
    (hidem : ∀ e, f { e with attrs := (f e).attrs } = f e) :
    op.apply (entries.reread (op.apply entries)) = op.apply entries := by
  rw [WriteOp.apply_modify hid hadds hf, WriteOp.apply_modify hid hadds hf]
  apply List.ext_getElem?
  intro i
  rw [List.getElem?_modify, getElem?_reread, List.getElem?_modify]
  cases entries[i]? with
  | none => rfl
  | some e =>
      by_cases h : id = i
      · simp only [h, if_true, Option.map_some]
        exact congrArg some (hidem e)
      · simp [h]

/-- A removal hands each entry behind it the attributes of the next one. -/
theorem apply_reread_remove :
    (WriteOp.remove id).apply (entries.reread ((WriteOp.remove id).apply entries)) =
      (WriteOp.remove id).apply entries ↔ entries.BareBehind id := by
  rw [WriteOp.apply_remove, WriteOp.apply_remove]
  have hget : ∀ k, ((entries.reread (entries.eraseIdx id)).eraseIdx id)[k]? =
      if k < id then entries[k]? else entries[k + 1]?.map fun e =>
        { e with attrs := fun a => entries[k + 2]?.bind fun e' => e'.attrs a } := by
    intro k
    rw [List.getElem?_eraseIdx, getElem?_reread, getElem?_reread]
    split_ifs with hk
    · rw [List.getElem?_eraseIdx, if_pos hk]
      cases entries[k]? <;> rfl
    · rw [List.getElem?_eraseIdx, if_neg (by omega)]
  constructor
  · -- from the last entry forward: an entry is as bare as the one behind it
    intro h
    have hnext : ∀ k e, id ≤ k → entries[k + 1]? = some e →
        ∀ a, e.attrs a = entries[k + 2]?.bind fun e' => e'.attrs a := by
      intro k e hk he a
      have hk' := congrArg (·[k]?) h
      simp only [hget, List.getElem?_eraseIdx, if_neg (Nat.not_lt_of_le hk), he, Option.map_some,
        Option.some.injEq] at hk'
      rw [← hk']
    have hbare : ∀ n k e, entries.length ≤ k + 1 + n → id ≤ k → entries[k + 1]? = some e →
        ∀ a, e.attrs a = none := by
      intro n
      induction n with
      | zero =>
          intro k e hlen _ he
          have hlt := (List.getElem?_eq_some_iff.1 he).1
          omega
      | succ n ih =>
          intro k e hlen hk he a
          rw [hnext k e hk he a]
          cases hnone : entries[k + 2]? with
          | none => rfl
          | some e' => exact ih (k + 1) e' (by omega) (by omega) hnone a
    intro i e hi he a
    obtain ⟨k, rfl⟩ : ∃ k, i = k + 1 := ⟨i - 1, by omega⟩
    exact hbare entries.length k e (by omega) (by omega) he a
  · intro hbare
    apply List.ext_getElem?
    intro k
    rw [hget, List.getElem?_eraseIdx]
    split_ifs with hk
    · rfl
    · cases he : entries[k + 1]? with
      | none => rfl
      | some e =>
          have hattrs : (fun a => entries[k + 2]?.bind fun e' => e'.attrs a) = e.attrs := by
            funext a
            rw [hbare (k + 1) e (by omega) he a]
            cases he' : entries[k + 2]? with
            | none => rfl
            | some e' => exact hbare (k + 2) e' (by omega) he' a
          rw [Option.map_some, hattrs]

/-- Rebuilding with the attributes of the result gives the result, unless a removal renumbers an
entry that carries attributes. -/
theorem apply_reread (hop : op.Addresses entries.length) :
    op.apply (entries.reread (op.apply entries)) = op.apply entries ↔
      ∀ id, op = .remove id → entries.BareBehind id := by
  have hadds : op.opAddsEntry = true ∨ op.target = none → entries.reread (op.apply entries) =
      entries := by
    intro h
    rw [WriteOp.apply_of_adds h]
    apply List.ext_getElem?
    intro i
    rw [getElem?_reread]
    cases he : entries[i]? with
    | none => rfl
    | some e =>
        have hlt := (List.getElem?_eq_some_iff.1 he).1
        rw [List.getElem?_append_left hlt, he]
        rfl
  cases op with
  | remove id =>
      rw [apply_reread_remove]
      exact ⟨fun h _ heq => by cases heq; exact h, fun h => h id rfl⟩
  | create | createCtz | createDir =>
      rw [hadds (.inl rfl)]
      exact ⟨fun _ _ heq => (by cases heq), fun _ => rfl⟩
  | noop =>
      rw [hadds (.inr rfl)]
      exact ⟨fun _ _ heq => (by cases heq), fun _ => rfl⟩
  | setAttr id a value =>
      refine ⟨fun _ _ heq => (by cases heq), fun _ => apply_reread_modify rfl rfl (fun _ => rfl)
        fun e => ?_⟩
      simp only [Entry.setAttr, Entry.mk.injEq, true_and]
      funext x
      split_ifs <;> rfl
  | removeAttr id a =>
      refine ⟨fun _ _ heq => (by cases heq), fun _ => apply_reread_modify rfl rfl (fun _ => rfl)
        fun e => ?_⟩
      simp only [Entry.setAttr, Entry.mk.injEq, true_and]
      funext x
      split_ifs <;> rfl
  | update | updateCtz | updateDirStruct | renameInPlace =>
      exact ⟨fun _ _ heq => (by cases heq), fun _ => apply_reread_modify rfl rfl (fun _ => rfl)
        fun _ => rfl⟩

end Reread

/-! ## The buffer behind a failed append -/

/-- The next program of the block reports success and leaves cells that do not parse, so the
read back finds no appended commit. -/
def Fs.HidesAppend (s : Fs) (block : ℕ) : Prop :=
  block < s.device.blocks.length ∧ s.script.head? = some (.miswritten false)

instance (s : Fs) (block : ℕ) : Decidable (s.HidesAppend block) :=
  inferInstanceAs (Decidable (_ ∧ _))

section Buffer

variable {g : Geometry} {K O : Event → Prop} {E : Error → Fs → Prop}

theorem triple_nextOutcome_head (s₀ : Fs) :
    Triple K O (fun s => s = s₀) nextOutcome
      (fun o s => s = { s₀ with script := s.script } ∧ o = s₀.script.head?.getD .done) E := by
  refine Triple.get_bind fun s hs => ?_
  subst hs
  split
  · next h => exact Triple.pure fun s' hs' => ⟨by rw [hs'], by rw [h]; rfl⟩
  · next o rest h =>
      refine Triple.seq (R := fun s' => s' = { s with script := s'.script })
        (Triple.set fun _ _ => rfl)
        (Triple.pure fun s' hs' => ⟨hs', by rw [h]; rfl⟩)

/-- What the block holds when the read back of an append finds a difference. -/
theorem triple_programAppend_buffer {addr : ℕ} {l l' : MetadataLog} (s₀ : Fs) :
    Triple K (fun _ => True) (fun s => s = s₀) (programAppend addr l l')
      (fun report s => (report = .failed → ¬ s₀.HidesAppend addr) ∧
        (report = .mismatch → s.device.get addr =
          if s₀.HidesAppend addr then .log { l with erased := false } else .log l')) E := by
  refine Triple.get_bind fun s hs => ?_
  subst hs
  refine Triple.ite (fun hlt => ?_) fun hge => Triple.pure fun _ _ => ⟨fun _ h => hge h.1, nofun⟩
  refine Triple.seq (R := fun s' => s' = s) (Triple.note fun _ hs' _ => ⟨True.intro, hs'⟩) ?_
  refine Triple.bind (triple_nextOutcome_head s) fun o => Triple.pre fun ho => ?_
  have hhides : s.HidesAppend addr ↔ o = .miswritten false := by
    rw [ho, Fs.HidesAppend]
    cases s.script.head? with
    | none => exact ⟨fun h => absurd h.2 nofun, nofun⟩
    | some o => exact ⟨fun h => Option.some.inj h.2, fun h => ⟨hlt, congrArg some h⟩⟩
  have hvisible : o ≠ .miswritten false → ¬ s.HidesAppend addr := fun h h' => h (hhides.1 h')
  -- each outcome puts its own content down, or nothing
  have hput : ∀ (b : Block) (report : Report), (report = .failed → ¬ s.HidesAppend addr) →
      (report = .mismatch → b =
        if s.HidesAppend addr then .log { l with erased := false } else .log l') →
      Triple K (fun _ => True) (fun s' => s' = { s with script := s'.script })
        (do putBlock addr b; pure report)
        (fun report s' => (report = .failed → ¬ s.HidesAppend addr) ∧
          (report = .mismatch → s'.device.get addr =
            if s.HidesAppend addr then .log { l with erased := false } else .log l')) E := by
    intro b report hfailed hmismatch
    refine Triple.seq (triple_putBlock hlt) (Triple.pure ?_)
    rintro s' ⟨-, hget⟩
    exact ⟨hfailed, fun h => hget.trans (hmismatch h)⟩
  unfold landProgram
  split
  · exact hput _ _ nofun nofun
  · exact Triple.pure fun _ _ => ⟨fun _ => hvisible nofun, nofun⟩
  · exact hput _ _ (fun _ => hvisible nofun) nofun
  · exact hput _ _ (fun _ => hvisible nofun) nofun
  · refine hput _ _ nofun fun _ => ?_
    rw [if_neg (hvisible (by simp))]
  · refine hput _ _ nofun fun _ => ?_
    rw [if_pos (hhides.2 rfl)]

/-- The log that a rebuild reads behind a failed append. -/
theorem triple_tryAppend_buffer (v : PairView) (r : CommitRequest) (s₀ : Fs) :
    Triple K (fun _ => True) (fun s => s = s₀) (tryAppend g v r)
      (fun left _ => ∀ source, left = some source → ∃ la, buildAppend g v.log r = .ok la ∧
        source.tags = if s₀.HidesAppend v.activeAddr then v.log.tags else la.tags)
      fun _ _ => True := by
  refine Triple.bind (R := fun la s => s = s₀ ∧ buildAppend g v.log r = .ok la)
    (Triple.lift (fun _ la hs hla => ⟨hs, hla⟩) fun _ _ _ _ => True.intro) fun la =>
      Triple.pre fun hla => ?_
  refine Triple.seq (R := fun s => s = s₀) (Triple.note fun _ hs _ => ⟨True.intro, hs⟩) ?_
  refine Triple.bind (triple_programAppend_buffer s₀) fun report => ?_
  cases report with
  | verified =>
      exact Triple.seq (R := fun _ => True) (Triple.modify fun _ _ => True.intro)
        (Triple.pure fun _ _ => nofun)
  | failed =>
      refine Triple.pure ?_
      rintro s ⟨hvisible, -⟩ source ⟨⟩
      exact ⟨la, hla, by rw [if_neg (hvisible rfl)]⟩
  | mismatch =>
      refine Triple.get_bind fun s hs => Triple.pure ?_
      rintro s' rfl source ⟨⟩
      refine ⟨la, hla, ?_⟩
      rw [hs.2 rfl]
      split_ifs <;> rfl

/-- The pair that the fallback of an append writes. -/
theorem triple_forcedVictim {commit : CommitFn} (v : PairView) (r : Rebuild) (inflight : Inflight) :
    Triple (Event.Avoids []) (Event.Finds fun _ => True) (fun _ => True)
      (compactAndProgram g commit v r inflight true)
      (fun moved s => ∀ newPair, moved = some newPair →
        ∃ fresh l, Relocated g v.pairAddr v.activeAddr r 0 r.total [] newPair fresh l s)
      fun _ _ => True := by
  refine Triple.get_bind fun s _ => ?_
  rw [if_pos rfl]
  refine Triple.ite (fun _ => Triple.fail fun _ _ => True.intro) fun _ => ?_
  refine Triple.bind (R := fun newPair s => ∃ fresh l,
    Relocated g v.pairAddr v.activeAddr r 0 r.total [] newPair fresh l s) ?_ fun newPair => ?_
  · refine Triple.seq (triple_fitExcluded _ _ fun _ _ _ => True.intro) ?_
    have hloop := @triple_relocateLoop g [] [] ([v.pairAddr.a, v.pairAddr.b] ++ inflight.blocks)
      (fun _ => True) s.device (fun _ _ => True.intro) v.pairAddr v.activeAddr r 0 r.total
      inflight.chain maxBadBlockRetries fun x hx => absurd hx List.not_mem_nil
    refine hloop.conseq ?_ (fun _ _ h => h.2) fun _ _ h => h
    rintro s' rfl
    exact SameOn.refl
  · refine Triple.pure ?_
    rintro s' h _ ⟨⟩
    exact h

end Buffer

/-! ## The entries of the rebuilt pair -/

/-- The attributes are a matter of the tags alone. -/
theorem Roster.entries_congr (slots : Roster Slot) {l l' : MetadataLog} (h : l.tags = l'.tags) :
    slots.entries l = slots.entries l' := by
  simp only [Roster.entries, forEachLiveAttr, h]

/-- The slots of a log with the attributes of another one that replays to `after`. -/
theorem Roster.entries_reread {slots : Roster Slot} {l la : MetadataLog} {after : Entries}
    (hplaced : Along Placed la.tags 0) (hplay : play la.tags [] = .ok after) :
    slots.entries la = (slots.entries l).reread after := by
  apply List.ext_getElem?
  intro i
  rw [getElem?_reread, Roster.entries, Roster.entries, List.getElem?_mapIdx, List.getElem?_mapIdx,
    Option.map_map]
  refine congrArg (Option.map · _) ?_
  funext e
  have hattrs : (fun a => (forEachLiveAttr la i).lookup a) =
      fun a => after[i]?.bind fun e' => e'.attrs a := by
    funext a
    exact lookup_forEachLiveAttr (hplaced.mono fun _ _ h => h.attr) hplay i a
  rw [hattrs]
  rfl

theorem length_apply_le {op : WriteOp} (h : op.opAddsEntry = false) (entries : Entries) :
    (op.apply entries).length ≤ entries.length := by
  rw [WriteOp.apply, WriteOp.newEntry_of_not_adds h, Option.toList_none, List.append_nil]
  exact (List.length_filterMap_le ..).trans_eq List.length_zipIdx

/-- A rebuild with the attributes of the appended log comes to the operation, up to the entries
that a removal renumbers. -/
theorem checked_apply_reread {slots : Roster Slot} {l la : MetadataLog} {op : WriteOp}
    (hwf : slots.Wf) (hop : op.Addresses slots.count) (hplaced : Along Placed la.tags 0)
    (hplay : play la.tags [] = checked (op.apply (slots.entries l))) :
    checked (op.apply (slots.entries la)) = checked (op.apply (slots.entries l)) ↔
      ∀ id, op = .remove id → (slots.entries l).BareBehind id := by
  have hlen := Roster.entries_length hwf
  have hcount := hwf.count
  rw [hlen l] at hop
  by_cases hle : (op.apply (slots.entries l)).length ≤ maxLiveEntries
  · rw [checked_of_le hle] at hplay ⊢
    rw [Roster.entries_reread (l := l) hplaced hplay, ← apply_reread hop]
    constructor
    · intro h
      unfold checked at h
      split_ifs at h
      exact Except.ok.inj h
    · intro h
      rw [h, checked_of_le hle]
  · -- the entries overflow either way, so the operation adds one
    have hadds : op.opAddsEntry = true := by
      by_contra hnot
      have hshort := length_apply_le (Bool.eq_false_of_not_eq_true hnot) (slots.entries l)
      have := hlen l
      omega
    have hle' : ¬ (op.apply (slots.entries la)).length ≤ maxLiveEntries := by
      rw [WriteOp.apply_of_adds (.inl hadds), List.length_append] at hle ⊢
      rw [← hlen la, hlen l]
      exact hle
    rw [checked, checked, if_neg hle, if_neg hle']
    refine ⟨fun _ id hid => ?_, fun _ => rfl⟩
    rw [hid] at hadds
    cases hadds

/-- The pair rebuilt behind a failed append has the entries that the operation makes of the log
if and only if the rebuild does not see the appended commit, or the operation removes no entry
in front of one that carries attributes. -/
theorem fallback_iff {g : Geometry} {commit : CommitFn} {v : PairView} {r : CommitRequest} {s : Fs}
    {source : MetadataLog} {newPair : BlockPair} (hplaced : Along Placed v.log.tags 0)
    (hslots : gatherLiveSlots v.log = .ok v.slots) (hr : r.Valid v.slots.count)
    (hlost : (tryAppend g v r s).result = .ok (some source))
    (hmoved : (compactAndProgram g commit v (rebuildOf v source r) r.inflight true
      (tryAppend g v r s).state).result = .ok (some newPair)) :
    ∃ fresh lb, newPair = v.pairAddr.replace v.activeAddr fresh ∧
      (compactAndProgram g commit v (rebuildOf v source r) r.inflight true
        (tryAppend g v r s).state).state.device.get fresh = .log lb ∧
      (play lb.tags [] = checked (r.op.apply (v.slots.entries v.log)) ↔
        s.HidesAppend v.activeAddr ∨
          ∀ id, r.op = .remove id → (v.slots.entries v.log).BareBehind id) := by
  have hwf : v.slots.Wf := walkTags_wf (Roster.new_wf _) hslots
  obtain ⟨fresh, lb, hrelocated⟩ := (triple_forcedVictim v (rebuildOf v source r)
    r.inflight).returns True.intro (fun e _ => by cases e <;> simp [Event.Avoids]) hmoved newPair
      rfl
  refine ⟨fresh, lb, hrelocated.address, hrelocated.stored, ?_⟩
  have hsized : (rebuildOf v source r).Sized := rebuildOf_sized hr.sized
  have hlb := Rebuild.build_entries (r := { rebuildOf v source r with
    relocateState := foldState zeroRelocate (rebuildOf v source r).relocateState
      (some (buildRelocateBody v.pairAddr newPair)) }) hslots hr.writesName
    ⟨hsized.move, foldState_length hsized.relocate fun b hb => by cases hb; rfl⟩ hrelocated.built
  have hpart : r.op.part (v.slots.entries source) 0 (rebuildOf v source r).total =
      r.op.apply (v.slots.entries source) := by
    rw [← WriteOp.part_total, ← Roster.entries_length hwf]
    rfl
  have hentries : play lb.tags [] = checked (r.op.apply (v.slots.entries source)) := by
    rw [← hpart]
    exact hlb.entries
  rw [hentries]
  obtain ⟨la, hla, htags⟩ := (triple_tryAppend_buffer (K := fun _ => True) v r s).returns rfl
    (fun _ _ => True.intro) hlost source rfl
  by_cases hhides : s.HidesAppend v.activeAddr
  · rw [if_pos hhides] at htags
    rw [v.slots.entries_congr htags]
    exact ⟨fun _ => .inl hhides, fun _ => rfl⟩
  · rw [if_neg hhides] at htags
    rw [v.slots.entries_congr htags, or_iff_right hhides]
    obtain ⟨entries, hplay, hshows⟩ :=
      gatherLiveSlots_play (hplaced.mono fun _ _ h => h.struct) hslots
    have hl : v.log.Carries entries _ _ _ :=
      ⟨hplaced, hplay.trans (checked_of_le hshows.length_le).symm, rfl, rfl, rfl⟩
    have hop := hr.addresses
    rw [hshows.count] at hop
    have hcarries := buildAppend_carries hl hshows.length_le hop hr.writesName hr.sized hla
    rw [← hl.entries_eq hslots] at hcarries
    exact checked_apply_reread hwf hr.addresses hcarries.placed hcarries.entries

/-! Two files on a pair, the second with an attribute.  The first one is removed, and the program
of that commit goes wrong. -/

def wornGeometry : Geometry := ⟨16, 16, 256, 16, 0⟩

def wornEmpty : MetadataLog := (emptyDirLog wornGeometry none).toOption.getD ⟨0, [], false⟩

def wornCreate (id : ℕ) (attrs : StagedAttrs) : CommitRequest :=
  { pair := ⟨4, 5⟩, op := .create id (.bytes [98]) (.bytes []) attrs }

def wornFirst : MetadataLog :=
  (buildAppend wornGeometry wornEmpty (wornCreate 0 [])).toOption.getD ⟨0, [], false⟩

def wornLog : MetadataLog :=
  (buildAppend wornGeometry wornFirst (wornCreate 1 [(7, .bytes [5])])).toOption.getD ⟨0, [], false⟩

def wornView : PairView :=
  ⟨⟨4, 5⟩, 4, 5, wornLog, (gatherLiveSlots wornLog).toOption.getD (.new .empty)⟩

def wornRemove : CommitRequest := { pair := ⟨4, 5⟩, op := .remove 0 }

/-- The device with the log on its pair, and the outcome of the append. -/
def wornStart (o : Outcome) : Fs where
  device := (Device.blank 16).write 4 (.log wornLog)
  superblock := ⟨diskVersion, 256, 16, 0, 0, 0⟩
  root := rootBlockPair
  usedCache := some ⟨[0, 1, 4, 5]⟩
  pendingMove := none
  script := [o]
  unpublished := {}

def wornAppend (o : Outcome) : Run Fs Error Event (Option MetadataLog) :=
  tryAppend wornGeometry wornView wornRemove (wornStart o)

/-- The log that the failed append leaves to the rebuild. -/
def wornSource (o : Outcome) : MetadataLog := ((wornAppend o).result.toOption.bind id).getD wornLog

def wornRebuild (o : Outcome) : Run Fs Error Event (Option BlockPair) :=
  compactAndProgram wornGeometry (fun _ => pure ()) wornView
    (rebuildOf wornView (wornSource o) wornRemove) {} true (wornAppend o).state

theorem wornLog_placed : Along Placed wornLog.tags 0 := by
  have hempty : emptyDirLog wornGeometry none = .ok wornEmpty := by decide +kernel
  have hfirst : buildAppend wornGeometry wornEmpty (wornCreate 0 []) = .ok wornFirst := by
    decide +kernel
  have hsecond : buildAppend wornGeometry wornFirst (wornCreate 1 [(7, .bytes [5])]) =
      .ok wornLog := by decide +kernel
  have haddresses : ∀ id attrs, (wornCreate id attrs).op.Addresses id := by
    rintro id attrs _ ⟨⟩
    rfl
  have hcarries := buildAppend_carries (emptyDirLog_carries hempty) (Nat.zero_le _)
    (haddresses 0 []) True.intro ⟨nofun, nofun⟩ hfirst
  exact (buildAppend_carries hcarries (by decide) (haddresses 1 _) True.intro ⟨nofun, nofun⟩
    hsecond).placed

theorem wornRemove_valid : wornRemove.Valid wornView.slots.count := by
  refine ⟨?_, True.intro, nofun, nofun⟩
  rintro id ⟨⟩
  decide +kernel

theorem wornView_slots : gatherLiveSlots wornView.log = .ok wornView.slots := by
  have hok : (gatherLiveSlots wornLog).toBool = true := by decide +kernel
  show gatherLiveSlots wornLog = .ok ((gatherLiveSlots wornLog).toOption.getD (.new .empty))
  cases h : gatherLiveSlots wornLog with
  | ok slots => rfl
  | error e =>
      rw [h] at hok
      cases hok

/-- A program that reports an error costs the second file its attribute: the rebuild looks it up
at the id that the removal has given to nothing. -/
theorem fallback_loses_attribute : ∃ lb,
    Along Placed wornView.log.tags 0 ∧ gatherLiveSlots wornView.log = .ok wornView.slots ∧
    wornRemove.Valid wornView.slots.count ∧
    canAppend wornGeometry wornView.log wornRemove = true ∧
    (wornAppend (.failed .nothing)).result = .ok (some (wornSource (.failed .nothing))) ∧
    (wornRebuild (.failed .nothing)).result = .ok (some ⟨2, 5⟩) ∧
    (wornRebuild (.failed .nothing)).state.device.get 2 = .log lb ∧
    play lb.tags [] ≠ checked (wornRemove.op.apply (wornView.slots.entries wornView.log)) := by
  refine ⟨((wornRebuild (.failed .nothing)).state.device.get 2).reader wornGeometry, wornLog_placed,
    wornView_slots, wornRemove_valid, by decide +kernel, by decide +kernel, by decide +kernel,
    by decide +kernel, fun h => ?_⟩
  have hattrs := congrArg (Except.map (List.map fun e : Entry => e.attrs 7)) h
  revert hattrs
  decide +kernel

/-- A program that is found to have gone wrong by the read back keeps it. -/
theorem fallback_iff_hidden : ∃ lb,
    (wornRebuild (.miswritten false)).state.device.get 2 = .log lb ∧
    play lb.tags [] = checked (wornRemove.op.apply (wornView.slots.entries wornView.log)) := by
  obtain ⟨fresh, lb, haddress, hstored, hiff⟩ := @fallback_iff wornGeometry (fun _ => pure ())
    wornView wornRemove (wornStart (.miswritten false)) (wornSource (.miswritten false)) ⟨2, 5⟩
    wornLog_placed wornView_slots wornRemove_valid (by decide +kernel) (by decide +kernel)
  have hfresh : fresh = 2 := (congrArg BlockPair.a haddress).symm
  subst hfresh
  exact ⟨lb, hstored, hiff.2 (.inl (by decide +kernel))⟩

end LittlefsPure
