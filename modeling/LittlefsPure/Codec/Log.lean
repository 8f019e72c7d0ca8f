import LittlefsPure.Codec.Walk

/-!
# What the reader makes of a log

A block holds a log when it begins with a revision word and the image of commits that
verify.  `MetadataReader.Reads` lists what the reader says of such a block, and
`reads_of_stop` gives it, provided that what stands behind the log does not verify.

## Why something has to be said of the rest

The reader stops at the first thing that does not verify, and what stands behind the log on the
block could verify by accident.  So `reads_of_stop` asks that it does not.  Behind the log of a
fresh block there are erased cells, which never verify; behind a torn commit it is the assumption
of `Codec.Cut`.
-/

namespace LittlefsPure.Codec

/-- Where a log ends: nowhere without commits. -/
def logEnd (cs : List RawCommit) : ℕ := if cs = [] then 0 else 4 + runSize (logEntries cs)

/-- The window the last commit of a log describes. -/
def lastFcrc (cs : List RawCommit) : Option (ℕ × BitVec 32) := cs.getLast?.bind RawCommit.fcrc

/-- The tail of a log: what its last tail tag names, unless a word of it is all ones. -/
def tailOfLog (es : List RawEntry) : Option BlockPair × Bool := resolveTail (lastTail es)

/-- Whether a window at an offset of a block is there and has its checksum. -/
def windowMatches (block : List Byte) (off : ℕ) : Option (ℕ × BitVec 32) → Bool
  | some (size, expected) =>
      decide (off + size ≤ block.length) &&
        decide (Crc.update Crc.init ((block.drop off).take size) = expected)
  | none => false

/-- The image of a log, without the cells behind it. -/
def logImage (revision : BitVec 32) (cs : List RawCommit) : List Byte :=
  toLe revision ++ encode .erased (logEntries cs)

theorem length_logImage (revision : BitVec 32) (cs : List RawCommit) :
    (logImage revision cs).length = 4 + runSize (logEntries cs) := by
  rw [logImage, List.length_append, length_toLe, length_encode]

/-- A log that verifies from its revision on. -/
def SoundImage (revision : BitVec 32) (cs : List RawCommit) : Prop :=
  SoundLog .erased (Crc.update Crc.init (toLe revision)) cs

/-- What the reader says of a block that holds a log. -/
structure MetadataReader.Reads (r : MetadataReader) (block : List Byte) (revision : BitVec 32)
    (cs : List RawCommit) : Prop where
  image : r.block = block
  revision : r.revision = revision
  committedEnd : r.committedEnd = logEnd cs
  nextPtag : r.nextPtag = baseAfter .erased (logEntries cs)
  iterTags : r.iterTags = logEntries cs
  tail : (r.tail, r.isHardTail) = tailOfLog (logEntries cs)
  erased : r.erased = windowMatches block (logEnd cs) (lastFcrc cs)

theorem length_le_runSize (es : List RawEntry) : es.length ≤ runSize es := by
  induction es with
  | nil => exact Nat.le_refl _
  | cons e es ih =>
      rw [List.length_cons, runSize_cons, RawEntry.size]
      omega

section Reads

variable {block rest : List Byte} {revision : BitVec 32} {cs : List RawCommit}

theorem dsize_erased : 0 + Tag.erased.dsize = 4 := by decide

theorem start_pos : (Walk.start block).pos = 4 := dsize_erased

/-- The first tag of a block that holds a log. -/
theorem drop_image (h : block = logImage revision cs ++ rest) :
    block.drop (0 + Tag.erased.dsize) = encode .erased (logEntries cs) ++ rest := by
  rw [dsize_erased, h, logImage, List.append_assoc]
  exact List.drop_left' rfl

theorem start_crc (h : block = logImage revision cs ++ rest) :
    (Walk.start block).runningCrc = Crc.update Crc.init (toLe revision) := by
  have htake : block.take 4 = toLe revision := by
    rw [h, logImage, List.append_assoc]
    exact List.take_left' rfl
  rw [Walk.start, htake]

/-- The block is long enough for the loops. -/
theorem length_eq (h : block = logImage revision cs ++ rest) :
    ∃ more, block.length = (logEntries cs).length + more := by
  have hlen : block.length = 4 + runSize (logEntries cs) + rest.length := by
    rw [h, List.length_append, length_logImage]
  have hle := length_le_runSize (logEntries cs)
  exact ⟨4 + runSize (logEntries cs) + rest.length - (logEntries cs).length, by omega⟩

theorem sound_start (hsound : SoundImage revision cs) (h : block = logImage revision cs ++ rest) :
    SoundLog (Walk.start block).ptag (Walk.start block).runningCrc cs := by
  rw [start_crc h]
  exact hsound

/-- The base and the place behind a log, as the loop of the reader finds them. -/
theorem commits_behind (hsound : SoundImage revision cs)
    (h : block = logImage revision cs ++ rest) :
    ((Walk.start block).commits cs).pos = 4 + runSize (logEntries cs) ∧
      ((Walk.start block).commits cs).ptag = baseAfter .erased (logEntries cs) ∧
      block.drop ((Walk.start block).commits cs).pos = rest := by
  have hpos := Walk.commits_pos (sound_start hsound h)
  rw [start_pos] at hpos
  refine ⟨hpos, Walk.commits_ptag _ _, ?_⟩
  rw [hpos, ← length_logImage revision, h]
  exact List.drop_left' rfl

/-- What the loop has verified behind the log. -/
theorem commits_verified (hsound : SoundImage revision cs)
    (h : block = logImage revision cs ++ rest) :
    ((Walk.start block).commits cs).committedEnd = logEnd cs ∧
      ((Walk.start block).commits cs).nextPtag = baseAfter .erased (logEntries cs) ∧
      ((Walk.start block).commits cs).lastFcrc = lastFcrc cs := by
  have hbehind := commits_behind hsound h
  cases hlast : cs.getLast? with
  | none =>
      rw [List.getLast?_eq_none_iff] at hlast
      subst hlast
      exact ⟨rfl, rfl, rfl⟩
  | some c =>
      have hne : cs ≠ [] := by
        rintro rfl
        cases hlast
      have hend := Walk.commits_end hlast (sound_start hsound h) rfl
      refine ⟨?_, hend.2.1.trans hbehind.2.1, ?_⟩
      · rw [hend.1, hbehind.1, logEnd, if_neg hne]
      · rw [hend.2.2.1, lastFcrc, hlast]
        rfl

/-- The tail of a block that holds a log. -/
theorem scanForTail_image (hsound : SoundImage revision cs)
    (h : block = logImage revision cs ++ rest) :
    scanForTail block (logEnd cs) = tailOfLog (logEntries cs) := by
  have hlatest : latestTail block (logEnd cs) block.length 0 .erased none =
      lastTail (logEntries cs) := by
    by_cases hne : cs = []
    · subst hne
      have hend : nextTag block (logEnd []) 0 .erased = none := nextTag_end (by decide)
      cases hfuel : block.length with
      | zero => rfl
      | succ n =>
          rw [latestTail, hend]
          rfl
    · obtain ⟨more, hmore⟩ := length_eq h
      have hread := latestTail_encode hsound.sized more none (drop_image h)
      rw [dsize_erased, Option.or_none] at hread
      rw [hmore, logEnd, if_neg hne]
      exact hread
  rw [scanForTail, hlatest, tailOfLog]

theorem collect_image (hsound : SoundImage revision cs) (h : block = logImage revision cs ++ rest) :
    TagIter.collect block.length ⟨block, 0, logEnd cs, .erased⟩ = logEntries cs := by
  by_cases hne : cs = []
  · subst hne
    have hend : nextTag block (logEnd []) 0 .erased = none := nextTag_end (by decide)
    cases hfuel : block.length with
    | zero => rfl
    | succ n =>
        rw [TagIter.collect, TagIter.next, hend]
        rfl
  · obtain ⟨more, hmore⟩ := length_eq h
    have hread := collect_encode hsound.sized more (drop_image h)
    rw [dsize_erased] at hread
    rw [hmore, logEnd, if_neg hne]
    exact hread

/-- What the loop of the reader has verified at its end, if what stands behind a log does not
verify. -/
theorem walk_of_stop (hsound : SoundImage revision cs) (h : block = logImage revision cs ++ rest)
    (hstop : ∀ fuel, Walk.SameEnd ((Walk.start block).commits cs)
      (walk block fuel ((Walk.start block).commits cs))) :
    (walk block block.length (.start block)).committedEnd = logEnd cs ∧
      (walk block block.length (.start block)).nextPtag = baseAfter .erased (logEntries cs) ∧
      (walk block block.length (.start block)).lastFcrc = lastFcrc cs := by
  obtain ⟨more, hmore⟩ := length_eq h
  have hwalk : walk block block.length (.start block) =
      walk block more ((Walk.start block).commits cs) := by
    rw [hmore]
    exact walk_log (sound_start hsound h) (drop_image h) more
  obtain ⟨hend, hptag, hfcrc⟩ := commits_verified hsound h
  rw [hwalk]
  exact ⟨(hstop more).committedEnd.trans hend, (hstop more).nextPtag.trans hptag,
    (hstop more).lastFcrc.trans hfcrc⟩

/-- The reader finds a log, if what stands behind it does not verify. -/
theorem reads_of_stop (hsound : SoundImage revision cs) (h : block = logImage revision cs ++ rest)
    (hstop : ∀ fuel, Walk.SameEnd ((Walk.start block).commits cs)
      (walk block fuel ((Walk.start block).commits cs))) :
    ∃ r, MetadataReader.new block = .ok r ∧ r.Reads block revision cs := by
  have hlen : ¬ block.length < 4 := by
    rw [h, List.length_append, length_logImage]
    omega
  obtain ⟨hend, hptag, hfcrc⟩ := walk_of_stop hsound h hstop
  have hrevision : leWord block = revision := by
    rw [h, logImage, List.append_assoc]
    exact leWord_toLe_append _ _
  refine ⟨_, if_neg hlen, ?_⟩
  constructor
  · rfl
  · exact hrevision
  · exact hend
  · exact hptag
  · show TagIter.collect block.length ⟨block, 0, _, .erased⟩ = _
    rw [hend]
    exact collect_image hsound h
  · show scanForTail block _ = _
    rw [hend]
    exact scanForTail_image hsound h
  · show MetadataReader.windowErased block _ = _
    rw [MetadataReader.windowErased, hfcrc, hend]
    cases lastFcrc cs with
    | none => rfl
    | some w => rfl

/-- The base behind the last commit of a log. -/
theorem baseAfter_snoc (cs : List RawCommit) (c : RawCommit) :
    baseAfter .erased (logEntries (cs ++ [c])) = c.ccrc.tag.perturb := by
  rw [logEntries_append, logEntries_cons, logEntries_nil, List.append_nil, RawCommit.all,
    baseAfter_append, baseAfter_append]
  rfl

/-- The last commit of a log verifies. -/
theorem soundImage_last {c : RawCommit} (hsound : SoundImage revision (cs ++ [c])) :
    ∃ ptag crc, c.Sound ptag crc := by
  unfold SoundImage at hsound
  by_cases hne : cs = []
  · subst hne
    exact ⟨_, _, hsound.1⟩
  · exact ⟨_, _, ((soundLog_append hne).1 hsound).2.1⟩

/-- The type bits behind a log leave no room for a commit in erased cells. -/
theorem typeBits_behind (hsound : SoundImage revision cs) :
    0x300 ≤ (baseAfter .erased (logEntries cs)).typeBits := by
  rcases List.eq_nil_or_concat cs with rfl | ⟨before, c, rfl⟩
  · decide
  · rw [List.concat_eq_append] at hsound ⊢
    obtain ⟨ptag, crc, hc⟩ := soundImage_last hsound
    rw [baseAfter_snoc, Tag.typeBits_perturb hc.sized.valid]
    by_contra hlt
    have hplain := fromBits_isCcrc (n := c.ccrc.tag.typeBits) (.inl (by omega))
    have hccrc := hc.isCcrc
    rw [Tag.isCcrc, Tag.tagType, hplain] at hccrc
    cases hccrc

/-- Nothing verifies in erased cells behind a log. -/
theorem stop_of_erased {n : ℕ} (hsound : SoundImage revision cs)
    (h : block = logImage revision cs ++ List.replicate n 0xFF) (fuel : ℕ) :
    Walk.SameEnd ((Walk.start block).commits cs)
      (walk block fuel ((Walk.start block).commits cs)) := by
  obtain ⟨-, hptag, hbehind⟩ := commits_behind hsound h
  refine walk_erased hbehind ?_ fuel
  rw [hptag]
  exact typeBits_behind hsound

/-- The reader finds a log with erased cells behind it. -/
theorem reads_of_erased {n : ℕ} (hsound : SoundImage revision cs)
    (h : block = logImage revision cs ++ List.replicate n 0xFF) :
    ∃ r, MetadataReader.new block = .ok r ∧ r.Reads block revision cs :=
  reads_of_stop hsound h (stop_of_erased hsound h)

end Reads
end LittlefsPure.Codec
