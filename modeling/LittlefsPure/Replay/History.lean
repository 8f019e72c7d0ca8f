import LittlefsPure.Fs.Operations
import LittlefsPure.Replay.Placed

/-!
# Appending and rebuilding agree

Whether a commit is appended or rebuilt depends on the free space of the block alone,
so the two must leave the same pair for every reader.

`MetadataLog.Carries` is what a log says: its entries, the totals of the global state
and the tail.  `Written` lists the logs the engine writes, each with the state deltas
that were folded into it.

## Why the logs are inductive

An equation between the two commits holds for logs that the engine can come upon, and not for any
log: a STRUCT tag at an id that is not open, for one, is played differently by a slot array and by
a list.  `Written` closes the logs of a format under appends and rebuilds, so that what a commit
needs of its log is an invariant, and what it leaves is again such a log.
-/

namespace LittlefsPure

open Entries Logic

/-- What a log says: its entries, its totals and its tail. -/
structure MetadataLog.Carries (l : MetadataLog) (entries : Entries) (move : MoveBody)
    (relocate : RelocateBody) (tail : Option TailLink) : Prop where
  placed : Along Placed l.tags 0
  entries : play l.tags [] = checked entries
  move : scanPairMoveState l = move
  relocate : scanPairRelocateState l = relocate
  tail : l.tailLink = tail

/-- The slots gathered from a log show the entries it carries. -/
theorem MetadataLog.Carries.shows {l : MetadataLog} {entries : Entries} {move : MoveBody}
    {relocate : RelocateBody} {tail : Option TailLink} (hl : l.Carries entries move relocate tail)
    {slots : Roster Slot} (hslots : gatherLiveSlots l = .ok slots) :
    play l.tags [] = .ok entries ∧ slots.Shows Entry.slot Slot.empty entries := by
  obtain ⟨entries', hplay, hshows⟩ :=
    gatherLiveSlots_play (hl.placed.mono fun _ _ h => h.struct) hslots
  have hentries := hl.entries
  rw [hplay] at hentries
  unfold checked at hentries
  split_ifs at hentries
  cases hentries
  exact ⟨hplay, hshows⟩

/-- Fold a delta into a total. -/
def foldDelta (total : List ℕ) (delta : Option (List ℕ)) : List ℕ :=
  match delta with
  | some d => xorWords total d
  | none => total

/-- A link, unless it leads to no pair. -/
def liveLink (tail : Option TailLink) : Option TailLink :=
  tail.filter fun link => !link.1.isNull

theorem MetadataLog.tailLink_eq (l : MetadataLog) :
    l.tailLink = liveLink (MetadataLog.scanForTail l.tags) := by
  rw [MetadataLog.tailLink, liveLink]
  cases MetadataLog.scanForTail l.tags with
  | none => rfl
  | some link =>
      obtain ⟨p, hard⟩ := link
      cases h : p.isNull <;> simp [h, Option.filter]

/-! ## The append -/

/-- The deltas of a request have the size of the state they are folded into. -/
structure CommitRequest.Sized (r : CommitRequest) : Prop where
  move : ∀ d, r.extraMove = some d → d.length = 3
  relocate : ∀ d, r.extraRelocate = some d → d.length = 4

theorem xorWords_length {xs ys : List ℕ} {n : ℕ} (hx : xs.length = n) (hy : ys.length = n) :
    (xorWords xs ys).length = n := by
  rw [xorWords, List.length_zipWith, hx, hy, Nat.min_self]

/-- The tags that carry a delta folded into the total of a log. -/
def foldTags (l : MetadataLog) (type : TagType) (words : ℕ) (delta : Option (List ℕ)) :
    List TagEntry :=
  delta.toList.map fun d => ⟨type, idNone, .words (xorWords (latestState l type words) d)⟩

theorem foldTags_type {l : MetadataLog} {type : TagType} {words : ℕ} {delta : Option (List ℕ)} :
    ∀ t ∈ foldTags l type words delta, t.tagType = type := by
  intro t ht
  obtain ⟨d, -, rfl⟩ := List.mem_map.1 ht
  rfl

/-- A total behind an append is the total in front of it with the delta folded in. -/
theorem latestState_foldTags {l l' : MetadataLog} {type : TagType} {words : ℕ}
    {delta : Option (List ℕ)} {ts us : List TagEntry}
    (h : l'.tags = l.tags ++ (ts ++ (foldTags l type words delta ++ us)))
    (hts : ∀ t ∈ ts, t.tagType ≠ type) (hus : ∀ t ∈ us, t.tagType ≠ type)
    (hdelta : ∀ d, delta = some d → d.length = words) :
    latestState l' type words = foldDelta (latestState l type words) delta := by
  cases delta with
  | none =>
      refine latestState_append h fun t ht => ?_
      rcases List.mem_append.1 ht with ht | ht
      · exact hts t ht
      · exact hus t ht
  | some d =>
      rw [← List.append_assoc] at h
      refine latestState_of_tag h hus ?_
      exact xorWords_length (length_latestState l type words) (hdelta d rfl)

theorem ne_of_concernsEntry {t : TagEntry} {type : TagType} (h : t.tagType.concernsEntry = true)
    (htype : type.concernsEntry = false) : t.tagType ≠ type := by
  rintro rfl
  rw [h] at htype
  cases htype

/-- The tail tags and the closing tags of a commit. -/
def Trailing (ts : List TagEntry) : Prop :=
  ∃ (link : Option TailLink) (closing : List TagEntry), Closing closing ∧
    ts = link.toList.map tailTag ++ closing

theorem Trailing.ne {ts : List TagEntry} (h : Trailing ts) {type : TagType}
    (htype : type = .moveState ∨ type = .relocateState ∨ type.concernsEntry = true) :
    ∀ t ∈ ts, t.tagType ≠ type := by
  obtain ⟨link, closing, hclosing, rfl⟩ := h
  intro t ht heq
  have htail : t.tagType = .softTail ∨ t.tagType = .hardTail ∨ t.tagType = .forwardCrc ∨
      t.tagType = .commitCrc 0 := by
    rcases List.mem_append.1 ht with ht | ht
    · obtain ⟨l, -, rfl⟩ := List.mem_map.1 ht
      rcases tailTag_type l with h | h
      · exact .inl h
      · exact .inr (.inl h)
    · exact .inr (.inr (hclosing.cases t ht))
  subst heq
  rcases htail with h | h | h | h <;> rw [h] at htype <;> simp [TagType.concernsEntry] at htype

/-- The tail behind a commit: the one it writes, or the log's own. -/
theorem scanForTail_trailing {ts us closing : List TagEntry} {link : Option TailLink}
    (hus : ∀ t ∈ us, t.tagType.isTail = false) (hclosing : Closing closing) :
    MetadataLog.scanForTail (ts ++ (us ++ (link.toList.map tailTag ++ closing))) =
      link.or (MetadataLog.scanForTail ts) := by
  have hclose : MetadataLog.scanForTail closing = none := by
    refine scanForTail_of_not_tail fun t ht => ?_
    rcases hclosing.cases t ht with h | h <;> rw [h] <;> rfl
  rw [scanForTail_append, scanForTail_append, scanForTail_append, hclose,
    scanForTail_of_not_tail hus, Option.none_or, Option.or_none]
  cases link with
  | none => rfl
  | some link =>
      rw [Option.toList_some, List.map_singleton, scanForTail_tailTag]

theorem liveLink_or (link tail : Option TailLink) :
    liveLink (link.or (liveLink tail)) = liveLink (link.or tail) := by
  cases link with
  | none =>
      rw [Option.none_or, Option.none_or, liveLink, liveLink, Option.filter_filter]
      simp
  | some link => rfl

/-- What an append leaves: the operation carried out, the deltas folded in. -/
theorem buildAppend_carries {g : Geometry} {l la : MetadataLog} {r : CommitRequest}
    {entries : Entries} {move : MoveBody} {relocate : RelocateBody} {tail : Option TailLink}
    (hl : l.Carries entries move relocate tail) (hle : entries.length ≤ maxLiveEntries)
    (hop : r.op.Addresses entries.length) (hname : r.op.WritesName) (hsized : r.Sized)
    (h : buildAppend g l r = .ok la) :
    la.Carries (r.op.apply entries) (foldDelta move r.extraMove)
      (foldDelta relocate r.extraRelocate) (liveLink (r.newTail.or tail)) := by
  obtain ⟨closing, hclosing, htags⟩ := buildAppend_tags h
  have hentries : play l.tags [] = .ok entries := by rw [hl.entries, checked_of_le hle]
  have hconcerns := emitOp_concernsEntry hname
  have htrailing : Trailing (r.newTail.toList.map tailTag ++ closing) :=
    ⟨r.newTail, closing, hclosing, rfl⟩
  have hshape : la.tags = l.tags ++ (r.op.emitOp ++ (foldTags l .moveState 3 r.extraMove ++
      (foldTags l .relocateState 4 r.extraRelocate ++
        (r.newTail.toList.map tailTag ++ closing)))) := by
    rw [htags, appendTags]
    simp only [foldTags, scanPairMoveState, scanPairRelocateState, List.append_assoc]
  -- nothing behind the operation's own tags is about an entry
  have hinert : ∀ t ∈ foldTags l .moveState 3 r.extraMove ++
      (foldTags l .relocateState 4 r.extraRelocate ++
        (r.newTail.toList.map tailTag ++ closing)), t.tagType.concernsEntry = false := by
    intro t ht
    rcases List.mem_append.1 ht with ht | ht
    · rw [foldTags_type t ht]
      rfl
    rcases List.mem_append.1 ht with ht | ht
    · rw [foldTags_type t ht]
      rfl
    · rw [← Bool.not_eq_true]
      exact fun hc => htrailing.ne (.inr (.inr hc)) t ht rfl
  constructor
  · rw [hshape]
    exact (along_append hentries).2 ⟨hl.placed, emitOp_along hop hinert⟩
  · have hop' := WriteOp.play_emitOp hop hname hle
    rw [hshape, play_append, hentries]
    show play (r.op.emitOp ++ _) entries = _
    rw [play_append, hop']
    unfold checked
    split_ifs
    · exact play_inert hinert _
    · rfl
  · rw [← hl.move]
    refine latestState_foldTags hshape ?_ ?_ hsized.move
    · exact fun t ht => ne_of_concernsEntry (hconcerns t ht) rfl
    · intro t ht
      rcases List.mem_append.1 ht with ht | ht
      · rw [foldTags_type t ht]
        exact nofun
      · exact htrailing.ne (.inl rfl) t ht
  · rw [← hl.relocate]
    have hshape' : la.tags = l.tags ++ ((r.op.emitOp ++ foldTags l .moveState 3 r.extraMove) ++
        (foldTags l .relocateState 4 r.extraRelocate ++
          (r.newTail.toList.map tailTag ++ closing))) := by
      rw [hshape, List.append_assoc]
    refine latestState_foldTags hshape' ?_ ?_ hsized.relocate
    · intro t ht
      rcases List.mem_append.1 ht with ht | ht
      · exact ne_of_concernsEntry (hconcerns t ht) rfl
      · rw [foldTags_type t ht]
        exact nofun
    · exact htrailing.ne (.inr (.inl rfl))
  · have hshape' : la.tags = l.tags ++ ((r.op.emitOp ++ (foldTags l .moveState 3 r.extraMove ++
        foldTags l .relocateState 4 r.extraRelocate)) ++
          (r.newTail.toList.map tailTag ++ closing)) := by
      simp only [hshape, List.append_assoc]
    have htail : ∀ t ∈ r.op.emitOp ++ (foldTags l .moveState 3 r.extraMove ++
        foldTags l .relocateState 4 r.extraRelocate), t.tagType.isTail = false := by
      intro t ht
      rcases List.mem_append.1 ht with ht | ht
      · exact isTail_of_concernsEntry (hconcerns t ht)
      rcases List.mem_append.1 ht with ht | ht
      · rw [foldTags_type t ht]
        rfl
      · rw [foldTags_type t ht]
        rfl
    rw [MetadataLog.tailLink_eq, hshape', scanForTail_trailing htail hclosing, ← hl.tail,
      MetadataLog.tailLink_eq, liveLink_or]

/-! ## The rebuild -/

/-- The tags of a total that is set; a total of zero is not written. -/
def totalTags (type : TagType) (zero : List ℕ) (total : Option (List ℕ)) : List TagEntry :=
  match total with
  | some b => if b = zero then [] else [⟨type, idNone, .words b⟩]
  | none => []

theorem totalTags_type {type : TagType} {zero : List ℕ} {total : Option (List ℕ)} :
    ∀ t ∈ totalTags type zero total, t.tagType = type := by
  intro t ht
  unfold totalTags at ht
  split at ht
  · split_ifs at ht
    · cases ht
    · rw [List.mem_singleton.1 ht]
  · cases ht

/-- A total set by a rebuild is what is read of it; one that is not set reads as zero. -/
theorem latestState_totalTags {l : MetadataLog} {type : TagType} {words : ℕ}
    {total : Option (List ℕ)} {ts us : List TagEntry}
    (h : l.tags = ts ++ (totalTags type (List.replicate words 0) total ++ us))
    (hts : ∀ t ∈ ts, t.tagType ≠ type) (hus : ∀ t ∈ us, t.tagType ≠ type)
    (htotal : ∀ b, total = some b → b.length = words) :
    latestState l type words = total.getD (List.replicate words 0) := by
  have hnone : totalTags type (List.replicate words 0) total = [] →
      latestState l type words = List.replicate words 0 := by
    intro hnil
    refine latestState_of_none fun t ht => ?_
    rw [h, hnil, List.nil_append] at ht
    rcases List.mem_append.1 ht with ht | ht
    · exact hts t ht
    · exact hus t ht
  cases total with
  | none => exact hnone rfl
  | some b =>
      by_cases hb : b = List.replicate words 0
      · rw [hnone (if_pos hb), hb]
        rfl
      · rw [totalTags, if_neg hb] at h
        exact latestState_of_tag h hus (htotal b rfl)

/-- The totals of a rebuild have the size of the state they stand for. -/
structure Rebuild.Sized (r : Rebuild) : Prop where
  move : ∀ b, r.moveState = some b → b.length = 3
  relocate : ∀ b, r.relocateState = some b → b.length = 4

/-- The tail tags of a rebuild are those of the link it writes. -/
theorem rebuiltTailTags_eq (tail : Option TailLink) :
    ∃ link : Option TailLink, rebuiltTailTags tail = link.toList.map tailTag ∧
      liveLink link = liveLink tail := by
  cases tail with
  | none => exact ⟨none, rfl, rfl⟩
  | some link =>
      by_cases h : link.1.a = noBlock
      · refine ⟨none, if_pos h, ?_⟩
        simp [liveLink, Option.filter, BlockPair.isNull, h]
      · exact ⟨some link, if_neg h, rfl⟩

/-- What a rebuild of a range leaves: its part of the operation's result, the totals it
was given and its tail. -/
theorem Rebuild.build_carries {g : Geometry} {r : Rebuild} {entries : Entries}
    (hlive : r.slots.live = entries.map Entry.slot) (hcount : r.slots.count = entries.length)
    (hsource : Sourced r.source entries) (htyped : ∀ e ∈ entries, e.slot.Typed)
    (hname : r.op.WritesName) (hsized : r.Sized)
    {lo hi : ℕ} {l : MetadataLog} (h : r.build g lo hi = .ok l) :
    l.Carries (r.op.part entries lo hi) (r.moveState.getD zeroMove)
      (r.relocateState.getD zeroRelocate) (liveLink r.tail) := by
  obtain ⟨tags, closing, htags, hclosing, hshape⟩ := build_tags h
  have hopens := emitCompactRange_opens hlive hcount hsource htyped hname htags
  have hconcerns := hopens.concernsEntry
  obtain ⟨link, hlink, hlive⟩ := rebuiltTailTags_eq r.tail
  have htrailing : Trailing (link.toList.map tailTag ++ closing) := ⟨link, closing, hclosing, rfl⟩
  replace hshape : l.tags = tags ++ (totalTags .moveState zeroMove r.moveState ++
      (totalTags .relocateState zeroRelocate r.relocateState ++
        (link.toList.map tailTag ++ closing))) := by
    rw [hshape, Rebuild.stateTags, hlink]
    simp only [List.append_assoc]
    rfl
  have hinert : ∀ t ∈ totalTags .moveState zeroMove r.moveState ++
      (totalTags .relocateState zeroRelocate r.relocateState ++
        (link.toList.map tailTag ++ closing)), t.tagType.concernsEntry = false := by
    intro t ht
    rcases List.mem_append.1 ht with ht | ht
    · rw [totalTags_type t ht]
      rfl
    rcases List.mem_append.1 ht with ht | ht
    · rw [totalTags_type t ht]
      rfl
    · rw [← Bool.not_eq_true]
      exact fun hc => htrailing.ne (.inr (.inr hc)) t ht rfl
  constructor
  · rw [hshape]
    exact hopens.along (along_inert hinert _)
  · have hplay : play tags [] = checked ([] ++ r.op.part entries lo hi) :=
      hopens.play rfl (Nat.zero_le _)
    rw [hshape, play_append, hplay, List.nil_append]
    unfold checked
    split_ifs
    · exact play_inert hinert _
    · rfl
  · refine latestState_totalTags hshape ?_ ?_ hsized.move
    · exact fun t ht => ne_of_concernsEntry (hconcerns t ht) rfl
    · intro t ht
      rcases List.mem_append.1 ht with ht | ht
      · rw [totalTags_type t ht]
        decide
      · exact htrailing.ne (.inl rfl) t ht
  · rw [← List.append_assoc] at hshape
    refine latestState_totalTags hshape ?_ ?_ hsized.relocate
    · intro t ht
      rcases List.mem_append.1 ht with ht | ht
      · exact ne_of_concernsEntry (hconcerns t ht) rfl
      · rw [totalTags_type t ht]
        decide
    · exact htrailing.ne (.inr (.inl rfl))
  · have htail : ∀ t ∈ totalTags .moveState zeroMove r.moveState ++
        totalTags .relocateState zeroRelocate r.relocateState, t.tagType.isTail = false := by
      intro t ht
      rcases List.mem_append.1 ht with ht | ht
      · rw [totalTags_type t ht]
        rfl
      · rw [totalTags_type t ht]
        rfl
    have hnone : MetadataLog.scanForTail tags = none :=
      scanForTail_of_not_tail fun t ht => isTail_of_concernsEntry (hconcerns t ht)
    rw [← List.append_assoc (totalTags _ _ _)] at hshape
    rw [MetadataLog.tailLink_eq, hshape, scanForTail_trailing htail hclosing, hnone,
      Option.or_none, hlive]

/-- The entries that the slots gathered from a log stand for, with the attributes read from
`source`. -/
def Roster.entries (slots : Roster Slot) (source : MetadataLog) : Entries :=
  slots.live.mapIdx fun i s => ⟨s.name, s.struct, fun a => (forEachLiveAttr source i).lookup a⟩

theorem Roster.entries_slot (slots : Roster Slot) (source : MetadataLog) :
    slots.live = (slots.entries source).map Entry.slot := by
  apply List.ext_getElem?
  intro k
  rw [Roster.entries, List.getElem?_map, List.getElem?_mapIdx, Option.map_map]
  exact (Option.map_id' ..).symm

theorem Roster.entries_sourced (slots : Roster Slot) (source : MetadataLog) :
    Sourced source (slots.entries source) := by
  intro i e he a
  rw [Roster.entries, List.getElem?_mapIdx] at he
  obtain ⟨e', -, rfl⟩ := Option.map_eq_some_iff.1 he
  rfl

theorem Roster.entries_length {slots : Roster Slot} (h : slots.Wf) (source : MetadataLog) :
    slots.count = (slots.entries source).length := by
  have hlen := h.length
  have hcount := h.count
  rw [Roster.entries, List.length_mapIdx, Roster.live, List.length_take]
  omega

theorem Roster.entries_typed {slots : Roster Slot} (hslots : ∀ s ∈ slots.slots, s.Typed)
    (source : MetadataLog) : ∀ e ∈ slots.entries source, e.slot.Typed := by
  intro e he
  have hmem : e.slot ∈ (slots.entries source).map Entry.slot := List.mem_map_of_mem he
  rw [← slots.entries_slot] at hmem
  exact hslots _ (List.mem_of_mem_take hmem)

theorem xorWords_zero {n : ℕ} {b : List ℕ} (hb : b.length = n) :
    xorWords (List.replicate n 0) b = b := by
  induction b generalizing n with
  | nil => rw [xorWords, List.zipWith_nil_right]
  | cons x xs ih =>
      subst hb
      have hx : Nat.xor 0 x = x := Nat.zero_xor x
      rw [List.length_cons, List.replicate_succ, xorWords, List.zipWith_cons_cons, hx]
      exact congrArg (x :: ·) (ih rfl)

theorem foldState_getD {n : ℕ} {state delta : Option (List ℕ)}
    (hdelta : ∀ d, delta = some d → d.length = n) :
    (foldState (List.replicate n 0) state delta).getD (List.replicate n 0) =
      foldDelta (state.getD (List.replicate n 0)) delta := by
  cases delta with
  | none => cases state <;> rfl
  | some d =>
      cases state with
      | none => exact (xorWords_zero (hdelta d rfl)).symm
      | some a =>
          simp only [foldState, foldDelta, Option.getD_some]
          split_ifs with h
          · exact h.symm
          · rfl

theorem foldState_length {n : ℕ} {state delta : Option (List ℕ)}
    (hstate : ∀ b, state = some b → b.length = n) (hdelta : ∀ d, delta = some d → d.length = n) :
    ∀ b, foldState (List.replicate n 0) state delta = some b → b.length = n := by
  intro b hb
  cases state with
  | none =>
      cases delta with
      | none => cases hb
      | some d => exact hdelta b hb
  | some a =>
      cases delta with
      | none => exact hstate b hb
      | some d =>
          simp only [foldState] at hb
          split_ifs at hb
          cases hb
          exact xorWords_length (hstate a rfl) (hdelta d rfl)

/-! ### The rebuild of a commit -/

theorem rebuildOf_move (v : PairView) (source : MetadataLog) (r : CommitRequest) :
    (rebuildOf v source r).moveState.getD zeroMove =
      foldDelta (scanPairMoveState v.log) r.extraMove := by
  show (if foldDelta _ _ = zeroMove then none else some (foldDelta _ _)).getD zeroMove = _
  split_ifs with h
  · exact h.symm
  · rfl

theorem rebuildOf_relocate (v : PairView) (source : MetadataLog) (r : CommitRequest) :
    (rebuildOf v source r).relocateState.getD zeroRelocate =
      foldDelta (scanPairRelocateState v.log) r.extraRelocate := by
  show (if foldDelta _ _ = zeroRelocate then none else some (foldDelta _ _)).getD zeroRelocate = _
  split_ifs with h
  · exact h.symm
  · rfl

theorem foldDelta_length {n : ℕ} {total : List ℕ} {delta : Option (List ℕ)}
    (htotal : total.length = n) (hdelta : ∀ d, delta = some d → d.length = n) :
    (foldDelta total delta).length = n := by
  cases delta with
  | none => exact htotal
  | some d => exact xorWords_length htotal (hdelta d rfl)

theorem rebuildOf_sized {v : PairView} {source : MetadataLog} {r : CommitRequest} (hr : r.Sized) :
    (rebuildOf v source r).Sized where
  move b hb := by
    have hb' : (if foldDelta (scanPairMoveState v.log) r.extraMove = zeroMove then none
      else some (foldDelta (scanPairMoveState v.log) r.extraMove)) = some b := hb
    split_ifs at hb'
    cases hb'
    exact foldDelta_length (length_latestState _ _ _) hr.move
  relocate b hb := by
    have hb' : (if foldDelta (scanPairRelocateState v.log) r.extraRelocate = zeroRelocate then none
      else some (foldDelta (scanPairRelocateState v.log) r.extraRelocate)) = some b := hb
    split_ifs at hb'
    cases hb'
    exact foldDelta_length (length_latestState _ _ _) hr.relocate

/-- What the engine promises of a commit on a pair of `count` entries. -/
structure CommitRequest.Valid (r : CommitRequest) (count : ℕ) : Prop where
  addresses : r.op.Addresses count
  writesName : r.op.WritesName
  sized : r.Sized

/-! ## The logs of the engine -/

/-- A log the engine writes, with the deltas that were folded into its totals, oldest
first. -/
inductive Written (g : Geometry) : MetadataLog → List MoveBody → List RelocateBody → Prop
  | format {l : MetadataLog} (h : formatLog g = .ok l) : Written g l [] []
  | emptyDir {l : MetadataLog} {tail : Option TailLink} (h : emptyDirLog g tail = .ok l) :
      Written g l [] []
  | append {l la : MetadataLog} {slots : Roster Slot} {r : CommitRequest} {moves : List MoveBody}
      {relocates : List RelocateBody} (hl : Written g l moves relocates)
      (hslots : gatherLiveSlots l = .ok slots) (hr : r.Valid slots.count)
      (h : buildAppend g l r = .ok la) :
      Written g la (moves ++ r.extraMove.toList) (relocates ++ r.extraRelocate.toList)
  /-- A rebuild under any tail, in full or up to a cut, with the announcement of a new
  address or without. -/
  | rebuild {v : PairView} {source lc : MetadataLog} {r : CommitRequest} {moves : List MoveBody}
      {relocates : List RelocateBody} {body : Option RelocateBody} {tail : Option TailLink}
      {hi : ℕ} (hl : Written g v.log moves relocates) (hslots : gatherLiveSlots v.log = .ok v.slots)
      (hr : r.Valid v.slots.count) (hbody : ∀ b, body = some b → b.length = 4)
      (h : Rebuild.build g
        { rebuildOf v source r with
          relocateState := foldState zeroRelocate (rebuildOf v source r).relocateState body
          tail := tail } 0 hi = .ok lc) :
      Written g lc (moves ++ r.extraMove.toList)
        (relocates ++ r.extraRelocate.toList ++ body.toList)
  /-- A continuation of a split carries no state. -/
  | continuation {v : PairView} {source lc : MetadataLog} {r : CommitRequest}
      {moves : List MoveBody} {relocates : List RelocateBody} {tail : Option TailLink} {lo hi : ℕ}
      (hl : Written g v.log moves relocates) (hslots : gatherLiveSlots v.log = .ok v.slots)
      (hr : r.Valid v.slots.count)
      (h : Rebuild.build g
        { rebuildOf v source r with
          newRevision := 1, moveState := none, relocateState := none, tail := tail } lo hi =
            .ok lc) :
      Written g lc [] []

theorem foldl_xorWords_append (total : List ℕ) (deltas : List (List ℕ)) (d : Option (List ℕ)) :
    (deltas ++ d.toList).foldl xorWords total = foldDelta (deltas.foldl xorWords total) d := by
  rw [List.foldl_append]
  cases d <;> rfl

theorem formatLog_carries {g : Geometry} {l : MetadataLog} (h : formatLog g = .ok l) :
    ∃ entries, l.Carries entries zeroMove zeroRelocate none := by
  obtain ⟨c', fcrc, off, hc', rfl⟩ := formatLog_eq_ok h
  obtain ⟨n, hn⟩ := Commit.finishPadded_eq_ok hc'
  have hclosing : Closing ((if fcrc then [Commit.fcrcTag g] else []) ++
      [⟨.commitCrc 0, idNone, .checksum n⟩]) := ⟨g, fcrc, n, rfl⟩
  generalize ((if fcrc then [Commit.fcrcTag g] else []) ++
    [⟨.commitCrc 0, idNone, .checksum n⟩] : List TagEntry) = closing at hn hclosing
  have hfront : ∀ t ∈ ([⟨.superblock, 0, magic⟩,
      ⟨.inlineStruct, 0, (formatSuperblock g).toBody⟩] : List TagEntry),
      t.tagType.concernsEntry = true :=
    List.forall_mem_cons.2 ⟨rfl, List.forall_mem_cons.2 ⟨rfl, nofun⟩⟩
  have hlast : ∀ {type : TagType}, type = .moveState ∨ type = .relocateState →
      ∀ t ∈ c'.tags, t.tagType ≠ type := by
    intro type htype t ht
    rw [hn] at ht
    rcases List.mem_append.1 ht with ht | ht
    · rcases htype with rfl | rfl <;> exact ne_of_concernsEntry (hfront t ht) rfl
    · rcases hclosing.cases t ht with h | h <;> rcases htype with rfl | rfl <;> rw [h] <;>
        exact nofun
  refine ⟨[⟨some (.superblock, magic), some (.inlineStruct, (formatSuperblock g).toBody),
    fun _ => none⟩], ?_, ?_, ?_, ?_, ?_⟩
  · show Along Placed c'.tags 0
    rw [hn]
    refine ⟨⟨nofun, nofun⟩, fun n' hn' => ?_⟩
    cases hn'
    exact ⟨⟨fun _ => Nat.zero_lt_one, nofun⟩, fun n' _ => along_inert hclosing.inert n'⟩
  · show play c'.tags [] = _
    rw [hn, play_append]
    exact play_inert hclosing.inert _
  · exact latestState_of_none (hlast (.inl rfl))
  · exact latestState_of_none (hlast (.inr rfl))
  · rw [MetadataLog.tailLink_eq]
    show liveLink (MetadataLog.scanForTail c'.tags) = none
    have hnone : MetadataLog.scanForTail c'.tags = none := by
      refine scanForTail_of_not_tail fun t ht => ?_
      rw [hn] at ht
      rcases List.mem_append.1 ht with ht | ht
      · exact isTail_of_concernsEntry (hfront t ht)
      · rcases hclosing.cases t ht with h | h <;> rw [h] <;> rfl
    rw [hnone]
    rfl

theorem emptyDirLog_carries {g : Geometry} {l : MetadataLog} {tail : Option TailLink}
    (h : emptyDirLog g tail = .ok l) : l.Carries [] zeroMove zeroRelocate (liveLink tail) := by
  obtain ⟨c', fcrc, hc', rfl⟩ := emptyDirLog_eq_ok h
  obtain ⟨n, hn⟩ := Commit.finishPadded_eq_ok hc'
  have hclosing : Closing ((if fcrc then [Commit.fcrcTag g] else []) ++
      [⟨.commitCrc 0, idNone, .checksum n⟩]) := ⟨g, fcrc, n, rfl⟩
  generalize ((if fcrc then [Commit.fcrcTag g] else []) ++
    [⟨.commitCrc 0, idNone, .checksum n⟩] : List TagEntry) = closing at hn hclosing
  have htrailing : Trailing c'.tags := ⟨tail, closing, hclosing, hn⟩
  have hinert : ∀ t ∈ c'.tags, t.tagType.concernsEntry = false := by
    intro t ht
    rw [← Bool.not_eq_true]
    exact fun hc => htrailing.ne (.inr (.inr hc)) t ht rfl
  constructor
  · exact along_inert hinert 0
  · exact play_inert hinert []
  · exact latestState_of_none (htrailing.ne (.inl rfl))
  · exact latestState_of_none (htrailing.ne (.inr (.inl rfl)))
  · have hscan : MetadataLog.scanForTail ([] ++ ([] ++ (tail.toList.map tailTag ++ closing))) =
        tail.or (MetadataLog.scanForTail []) := scanForTail_trailing nofun hclosing
    have hnil : tail.toList.map tailTag ++ closing =
        [] ++ ([] ++ (tail.toList.map tailTag ++ closing)) := rfl
    rw [MetadataLog.tailLink_eq]
    show liveLink (MetadataLog.scanForTail c'.tags) = _
    rw [hn, hnil, hscan]
    exact congrArg liveLink (Option.or_none ..)

/-- What is rebuilt of a pair: its entries, with the attributes read from any log. -/
theorem Rebuild.build_entries {g : Geometry} {l lc : MetadataLog} {r : Rebuild}
    (hslots : gatherLiveSlots l = .ok r.slots) (hname : r.op.WritesName) (hsized : r.Sized)
    {lo hi : ℕ} (h : r.build g lo hi = .ok lc) :
    lc.Carries (r.op.part (r.slots.entries r.source) lo hi) (r.moveState.getD zeroMove)
      (r.relocateState.getD zeroRelocate) (liveLink r.tail) := by
  have hwf : r.slots.Wf := walkTags_wf (Roster.new_wf _) hslots
  exact r.build_carries (r.slots.entries_slot _) (Roster.entries_length hwf _)
    (r.slots.entries_sourced _) (Roster.entries_typed (gatherLiveSlots_typed hslots) _) hname
    hsized h

/-- The entries gathered from a log are those it carries. -/
theorem MetadataLog.Carries.entries_eq {l : MetadataLog} {entries : Entries} {move : MoveBody}
    {relocate : RelocateBody} {tail : Option TailLink} (hl : l.Carries entries move relocate tail)
    {slots : Roster Slot} (hslots : gatherLiveSlots l = .ok slots) :
    slots.entries l = entries := by
  obtain ⟨hplay, hshows⟩ := hl.shows hslots
  have hlive := slots.entries_slot l
  rw [hshows.live] at hlive
  apply List.ext_getElem?
  intro k
  have hslot : ((slots.entries l)[k]?).map Entry.slot = (entries[k]?).map Entry.slot := by
    rw [← List.getElem?_map, ← List.getElem?_map, hlive]
  cases hk : entries[k]? with
  | none =>
      rw [hk] at hslot
      exact Option.map_eq_none_iff.1 hslot
  | some e =>
      rw [hk] at hslot
      obtain ⟨e', he', hslot⟩ := Option.map_eq_some_iff.1 hslot
      rw [he']
      obtain ⟨name, struct, attrs⟩ := e
      obtain ⟨name', struct', attrs'⟩ := e'
      cases hslot
      have hattrs : attrs' = attrs := by
        funext a
        have hsource := slots.entries_sourced l k _ he' a
        rw [lookup_forEachLiveAttr (hl.placed.mono fun _ _ h => h.attr) hplay, hk] at hsource
        exact hsource.symm
      rw [hattrs]

/-- A log of the engine carries the sum of the deltas folded into it. -/
theorem Written.carries {g : Geometry} {l : MetadataLog} {moves : List MoveBody}
    {relocates : List RelocateBody} (h : Written g l moves relocates) :
    ∃ entries tail, l.Carries entries (moves.foldl xorWords zeroMove)
      (relocates.foldl xorWords zeroRelocate) tail := by
  induction h with
  | format h =>
      obtain ⟨entries, hl⟩ := formatLog_carries h
      exact ⟨entries, none, hl⟩
  | emptyDir h => exact ⟨[], _, emptyDirLog_carries h⟩
  | append hl hslots hr h ih =>
      obtain ⟨entries, tail, hcarries⟩ := ih
      obtain ⟨-, hshows⟩ := hcarries.shows hslots
      have hle := hshows.length_le
      have hop := hr.addresses
      rw [hshows.count] at hop
      rw [foldl_xorWords_append, foldl_xorWords_append]
      exact ⟨_, _, buildAppend_carries hcarries hle hop hr.writesName hr.sized h⟩
  | @rebuild v source lc r moves relocates body tail hi hl hslots hr hbody h ih =>
      obtain ⟨entries, _, hcarries⟩ := ih
      have hsized : (rebuildOf v source r).Sized := rebuildOf_sized hr.sized
      have hlc := Rebuild.build_entries (r := { rebuildOf v source r with
          relocateState := foldState zeroRelocate (rebuildOf v source r).relocateState body
          tail := tail }) hslots hr.writesName
        ⟨hsized.move, foldState_length hsized.relocate hbody⟩ h
      have hmove := rebuildOf_move v source r
      have hrelocate := rebuildOf_relocate v source r
      rw [hcarries.move] at hmove
      rw [hcarries.relocate] at hrelocate
      have hannounced : (foldState zeroRelocate (rebuildOf v source r).relocateState body).getD
          zeroRelocate = foldDelta (foldDelta (relocates.foldl xorWords zeroRelocate)
            r.extraRelocate) body := by
        rw [← hrelocate]
        exact foldState_getD hbody
      rw [foldl_xorWords_append, foldl_xorWords_append, foldl_xorWords_append, ← hannounced,
        ← hmove]
      exact ⟨_, _, hlc⟩
  | @continuation v source lc r moves relocates tail lo hi hl hslots hr h ih =>
      exact ⟨_, _, Rebuild.build_entries (r := { rebuildOf v source r with
        newRevision := 1, moveState := none, relocateState := none, tail := tail })
        hslots hr.writesName ⟨nofun, nofun⟩ h⟩

/-! ## The agreement -/

/-- Two logs no reader tells apart: the same entries, the same attributes of each, the
same totals and the same tail. -/
structure SameView (l l' : MetadataLog) : Prop where
  entries : lookupSlots l = lookupSlots l'
  attrs : ∀ slots, lookupSlots l = .ok slots → ∀ i a, attrGet l i a = attrGet l' i a
  move : scanPairMoveState l = scanPairMoveState l'
  relocate : scanPairRelocateState l = scanPairRelocateState l'
  tail : l.tailLink = l'.tailLink

/-- What two logs say decides what is read of them. -/
theorem MetadataLog.Carries.sameView {l l' : MetadataLog} {entries : Entries} {move : MoveBody}
    {relocate : RelocateBody} {tail : Option TailLink} (hl : l.Carries entries move relocate tail)
    (hl' : l'.Carries entries move relocate tail) : SameView l l' := by
  have hslots := lookupSlots_eq_play (hl.placed.mono fun _ _ h => h.struct)
  have hslots' := lookupSlots_eq_play (hl'.placed.mono fun _ _ h => h.struct)
  constructor
  · rw [hslots, hslots', hl.entries, hl'.entries]
  · intro slots h i a
    rw [hslots, hl.entries] at h
    have hle : checked entries = .ok entries := by
      unfold checked at h ⊢
      split_ifs at h ⊢
      · rfl
      · cases h
    rw [attrGet_play (hl.placed.mono fun _ _ h => h.attr) (hl.entries.trans hle),
      attrGet_play (hl'.placed.mono fun _ _ h => h.attr) (hl'.entries.trans hle)]
  · rw [hl.move, hl'.move]
  · rw [hl.relocate, hl'.relocate]
  · rw [hl.tail, hl'.tail]

/-- A commit leaves the same pair whether it is appended or rebuilt, and over any mixture
of both the totals of a pair are the sum of the deltas folded into it. -/
theorem append_agrees_with_rebuild (g : Geometry) :
    (∀ (l : MetadataLog) (moves : List MoveBody) (relocates : List RelocateBody),
      Written g l moves relocates → scanPairMoveState l = moves.foldl xorWords zeroMove ∧
        scanPairRelocateState l = relocates.foldl xorWords zeroRelocate) ∧
    ∀ (v : PairView) (r : CommitRequest) (moves : List MoveBody) (relocates : List RelocateBody)
      (la lc : MetadataLog), Written g v.log moves relocates →
      gatherLiveSlots v.log = .ok v.slots → r.Valid v.slots.count →
      buildAppend g v.log r = .ok la →
      (rebuildOf v v.log r).build g 0 (rebuildOf v v.log r).total = .ok lc → SameView la lc := by
  constructor
  · intro l moves relocates h
    obtain ⟨entries, tail, hl⟩ := h.carries
    exact ⟨hl.move, hl.relocate⟩
  · intro v r moves relocates la lc hv hslots hr ha hc
    obtain ⟨entries, tail, hl⟩ := hv.carries
    obtain ⟨hplay, hshows⟩ := hl.shows hslots
    have hle := hshows.length_le
    have hop := hr.addresses
    rw [hshows.count] at hop
    have hla := buildAppend_carries hl hle hop hr.writesName hr.sized ha
    have hlc := Rebuild.build_entries (r := rebuildOf v v.log r) hslots hr.writesName
      (rebuildOf_sized hr.sized) hc
    have hentries : (rebuildOf v v.log r).slots.entries (rebuildOf v v.log r).source = entries :=
      hl.entries_eq hslots
    have hpart : (rebuildOf v v.log r).op.part entries 0 (rebuildOf v v.log r).total =
        r.op.apply entries := by
      rw [← WriteOp.part_total, ← hshows.count]
      rfl
    rw [hentries, hpart, rebuildOf_move, rebuildOf_relocate, hl.move, hl.relocate] at hlc
    have htail : liveLink (rebuildOf v v.log r).tail = liveLink (r.newTail.or tail) := by
      rw [← hl.tail]
      rfl
    rw [htail] at hlc
    exact hla.sameView hlc

/-- A file created on a formatted pair of 256-byte blocks. -/
theorem append_agrees_with_rebuild_create : ∃ l la lc : MetadataLog,
    formatLog ⟨16, 16, 256, 24, 1⟩ = .ok l ∧ la.revision = l.revision ∧ lc.revision = 2 ∧
      SameView la lc := by
  have h := (append_agrees_with_rebuild ⟨16, 16, 256, 24, 1⟩).2
  refine ⟨_, _, _, rfl, ?_, ?_, h ⟨⟨0, 1⟩, 0, 1, _, _⟩
    { pair := ⟨0, 1⟩, op := .create 1 (.bytes [97]) (.bytes [1, 2]) [(7, .bytes [5])],
      extraMove := some [1, 2, 3], newTail := some (⟨4, 5⟩, false) } [] [] _ _ (.format rfl) rfl
    ⟨?_, True.intro, ⟨?_, nofun⟩⟩ rfl rfl⟩
  · rfl
  · rfl
  · rintro id ⟨⟩
    rfl
  · rintro d ⟨⟩
    rfl

end LittlefsPure
