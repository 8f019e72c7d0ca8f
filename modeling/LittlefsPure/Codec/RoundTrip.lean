import LittlefsPure.Codec.Writes

/-!
# The reader undoes the builder

A run of the builder leaves a log, commit by commit, and the reader finds it: the state of
the builder started over from what the reader says is that of the builder itself.

## Why resuming is part of it

A builder that is started over must go on as the first one would have: the same offset, the same
base, a checksum that begins anew.  What it starts from is what the reader says.  So the round trip
is not only that the reader yields the tags that were written, but that it yields enough to write
the next ones.
-/

namespace LittlefsPure.Codec

open Logic

/-- The commits a run of recipes makes, one behind the other. -/
def Recipe.commits (off : ℕ) (ptag : Tag) (crc : BitVec 32) : List Recipe → List RawCommit
  | [] => []
  | r :: rs =>
      let c := r.commit off ptag crc
      c :: commits (off + runSize c.all) (baseAfter ptag c.all) Crc.init rs

/-- The commits of a log, from its revision on. -/
def writtenCommits (revision : BitVec 32) (recipes : List Recipe) : List RawCommit :=
  Recipe.commits 4 .erased (Crc.update Crc.init (toLe revision)) recipes

/-- What a forward CRC says of the erased cells behind an offset of a block. -/
def fcrcSays (size off : ℕ) : Option (ℕ × BitVec 32) → Bool
  | some (window, expected) =>
      decide (off + window ≤ size) && decide (Commit.erasedCrc window = expected)
  | none => false

namespace Commit

/-- The builder has written these commits and stands behind the last. -/
structure Logged (c : Commit) (size : ℕ) (revision : BitVec 32) (cs : List RawCommit) : Prop where
  sound : SoundImage revision cs
  some : cs ≠ []
  builds : c.Builds size revision (logEntries cs)
  crc : c.crc = Crc.init

section Logged

variable {c c' : Commit} {size : ℕ} {revision : BitVec 32} {cs : List RawCommit}

theorem Logged.bytesWritten (h : c.Logged size revision cs) : c.bytesWritten = logEnd cs := by
  rw [Commit.bytesWritten, h.builds.offset, logEnd, if_neg h.some]

/-- The reader finds the log in the buffer. -/
theorem Logged.reads (h : c.Logged size revision cs) :
    ∃ r, MetadataReader.new c.buf = .ok r ∧ r.Reads c.buf revision cs :=
  reads_of_erased h.sound h.builds.buf

/-- A builder started over on the buffer is the builder itself. -/
theorem Logged.reopen (h : c.Logged size revision cs) (hreopen : c.reopen = .ok c') : c' = c := by
  obtain ⟨r, hnew, hreads⟩ := h.reads
  obtain ⟨r', hnew', happend⟩ := bind_eq_ok.1 hreopen
  rw [hnew] at hnew'
  cases hnew'
  have hend : r.committedEnd = c.offset := hreads.committedEnd.trans h.bytesWritten.symm
  have hptag : r.nextPtag = c.ptag := hreads.nextPtag.trans h.builds.ptag.symm
  rw [newAppending, hend, hptag] at happend
  split_ifs at happend
  cases happend
  rw [← h.crc]

/-- One more commit. -/
theorem Logged.write (h : c.Logged size revision cs) {r : Recipe} (hr : r.Valid)
    (hwrite : c.write r = .ok c') :
    c'.Logged size revision (cs ++ [r.commit c.offset c.ptag Crc.init]) := by
  have hclosed := write_builds h.builds hr hwrite
  rw [h.crc, h.builds.ptag] at hclosed
  have hentries : logEntries (cs ++ [r.commit c.offset c.ptag Crc.init]) =
      logEntries cs ++ (r.commit c.offset c.ptag Crc.init).all := by
    rw [logEntries_append, logEntries_cons, logEntries_nil, List.append_nil]
  refine ⟨?_, List.append_ne_nil_of_left_ne_nil h.some _, ?_, hclosed.2.2⟩
  · rw [h.builds.ptag]
    exact (soundLog_append h.some).2 ⟨h.sound, hclosed.1, trivial⟩
  · rw [hentries, h.builds.ptag]
    exact hclosed.2.1

/-- Further commits, started over or not. -/
theorem Logged.writeMore {more : List (Bool × Recipe)} (h : c.Logged size revision cs)
    (hmore : ∀ m ∈ more, m.2.Valid) (hwrite : c.writeMore more = .ok c') :
    c'.Logged size revision
      (cs ++ Recipe.commits c.offset c.ptag Crc.init (more.map Prod.snd)) := by
  induction more generalizing c cs with
  | nil =>
      cases hwrite
      rw [List.map_nil, Recipe.commits, List.append_nil]
      exact h
  | cons m more ih =>
      obtain ⟨restarted, r⟩ := m
      rw [Commit.writeMore] at hwrite
      obtain ⟨c₁, hstart, hthen⟩ := bind_eq_ok.1 hwrite
      obtain ⟨c₂, hfirst, hlater⟩ := bind_eq_ok.1 hthen
      have hsame : c₁ = c := by
        cases restarted with
        | true => exact h.reopen hstart
        | false =>
            cases hstart
            rfl
      subst hsame
      have h₂ := h.write (hmore _ (List.mem_cons_self ..)) hfirst
      have hoffset : c₂.offset =
          c₁.offset + runSize (r.commit c₁.offset c₁.ptag Crc.init).all := by
        rw [h₂.builds.offset, logEntries_append, logEntries_cons, logEntries_nil, List.append_nil,
          runSize_append, ← Nat.add_assoc, ← h.builds.offset]
      have hptag : c₂.ptag = baseAfter c₁.ptag (r.commit c₁.offset c₁.ptag Crc.init).all := by
        rw [h₂.builds.ptag, logEntries_append, logEntries_cons, logEntries_nil, List.append_nil,
          baseAfter_append, ← h.builds.ptag]
      have hrest := ih h₂ (fun m hm => hmore m (List.mem_cons_of_mem _ hm)) hlater
      rw [hoffset, hptag, List.append_assoc] at hrest
      exact hrest

theorem writeLog_logged {first : Recipe} {more : List (Bool × Recipe)} (hfirst : first.Valid)
    (hmore : ∀ m ∈ more, m.2.Valid) (h : writeLog size revision first more = .ok c) :
    c.Logged size revision (writtenCommits revision (first :: more.map Prod.snd)) := by
  obtain ⟨c₀, hnew, h⟩ := bind_eq_ok.1 h
  obtain ⟨c₁, hwrite, h⟩ := bind_eq_ok.1 h
  obtain ⟨h₀, hcrc⟩ := new_builds hnew
  have hclosed := write_builds h₀ hfirst hwrite
  rw [hcrc, h₀.ptag, h₀.offset] at hclosed
  have h₁ : c₁.Logged size revision
      [first.commit 4 .erased (Crc.update Crc.init (toLe revision))] := by
    refine ⟨⟨hclosed.1, trivial⟩, List.cons_ne_nil _ _, ?_, hclosed.2.2⟩
    rw [logEntries_cons, logEntries_nil, List.append_nil]
    exact hclosed.2.1
  have hrest := h₁.writeMore hmore h
  rw [h₁.builds.offset, h₁.builds.ptag, logEntries_cons, logEntries_nil, List.append_nil] at hrest
  exact hrest

end Logged
end Commit

/-- The reader undoes the builder.  On a log of at least one commit, each of valid tags and a
close, by one builder or started over at any commit, it reports the revision, the end and
the base of the builder; the window behind the log is erased as the last forward CRC of the
last commit says; the tags are those written, with the forward and the commit CRCs; and the
tail is what the last tail tag names, read as none if a word of it is all ones. -/
theorem reader_undoes_builder (size : ℕ) (revision : BitVec 32) (first : Recipe)
    (more : List (Bool × Recipe)) (c : Commit) (hfirst : first.Valid)
    (hmore : ∀ m ∈ more, m.2.Valid) (h : Commit.writeLog size revision first more = .ok c) :
    ∃ r, MetadataReader.new c.buf = .ok r ∧ r.revision = revision ∧
      r.committedEnd = c.bytesWritten ∧ r.nextPtag = c.ptag ∧
      r.erased = fcrcSays size c.bytesWritten
        (lastFcrc (writtenCommits revision (first :: more.map Prod.snd))) ∧
      r.iterTags = logEntries (writtenCommits revision (first :: more.map Prod.snd)) ∧
      (r.tail, r.isHardTail) =
        tailOfLog (logEntries (writtenCommits revision (first :: more.map Prod.snd))) := by
  have hlogged := Commit.writeLog_logged hfirst hmore h
  obtain ⟨r, hnew, hreads⟩ := hlogged.reads
  refine ⟨r, hnew, hreads.revision, ?_, ?_, ?_, hreads.iterTags, hreads.tail⟩
  · rw [hlogged.bytesWritten, hreads.committedEnd]
  · rw [hlogged.builds.ptag, hreads.nextPtag]
  · rw [hreads.erased, ← hlogged.bytesWritten]
    cases lastFcrc (writtenCommits revision (first :: more.map Prod.snd)) with
    | none => rfl
    | some w =>
        obtain ⟨window, expected⟩ := w
        -- behind the log there are erased cells only
        have hrest : c.buf.drop c.bytesWritten =
            List.replicate (size - c.bytesWritten) 0xFF := by
          have hlen : (toLe revision ++ encode .erased (logEntries
              (writtenCommits revision (first :: more.map Prod.snd)))).length = c.bytesWritten := by
            rw [List.length_append, length_toLe, length_encode]
            exact hlogged.builds.offset.symm
          rw [hlogged.builds.buf]
          exact List.drop_left' hlen
        rw [windowMatches, fcrcSays, hlogged.builds.length, hrest, List.take_replicate]
        by_cases hfits : c.bytesWritten + window ≤ size
        · have hmin : min window (size - c.bytesWritten) = window := by omega
          rw [hmin, Commit.erasedCrc]
        · rw [decide_eq_false hfits, Bool.false_and, Bool.false_and]

/-- A tail tag that names a pair. -/
def tailEntry (tagType : TagType) (p : BlockPair) : RawEntry :=
  ⟨.new tagType idNone 8, le32 p.a ++ le32 p.b⟩

/-- A padded commit, one that a builder started over closes with an odd chunk, and one more. -/
theorem reader_undoes_builder_small : ∃ c r,
    Commit.writeLog 128 7 ⟨[⟨.new .create 0 0, []⟩, tailEntry .softTail ⟨2, 3⟩],
      .finishPadded 0 16 128⟩
      [(true, ⟨[tailEntry .hardTail ⟨4, 5⟩], .finish 1⟩), (false, ⟨[], .finishPadded 2 16 128⟩)] =
        .ok c ∧
      MetadataReader.new c.buf = .ok r ∧ r.committedEnd = c.bytesWritten ∧ r.erased = true ∧
      r.tail = some ⟨4, 5⟩ := by
  have hok : (Commit.writeLog 128 7
      ⟨[⟨.new .create 0 0, []⟩, tailEntry .softTail ⟨2, 3⟩], .finishPadded 0 16 128⟩
      [(true, ⟨[tailEntry .hardTail ⟨4, 5⟩], .finish 1⟩),
        (false, ⟨[], .finishPadded 2 16 128⟩)]).map Commit.offset = .ok 96 := by
    decide +kernel
  obtain ⟨c, hc, hoffset⟩ := map_eq_ok.1 hok
  obtain ⟨r, hnew, -, hend, -, herased, -, htail⟩ := reader_undoes_builder 128 7 _ _ c
    ⟨by decide, by decide⟩
    (fun m hm => ⟨by revert m; decide, by revert m; decide⟩) hc
  refine ⟨c, r, hc, hnew, hend, ?_, ?_⟩
  · rw [herased, Commit.bytesWritten, hoffset]
    decide +kernel
  · have hfst := congrArg Prod.fst htail
    exact hfst.trans (by decide +kernel)

/-- A tail tag with one word of ones reads as no tail, and an erased buffer with a revision has
its end at zero. -/
theorem reader_null_and_empty :
    ((Commit.writeLog 64 1 ⟨[tailEntry .softTail ⟨0xFFFFFFFF, 5⟩], .finish 0⟩ []).bind fun c =>
      (MetadataReader.new c.buf).map fun r => (lastTail r.iterTags, r.tail)) =
        .ok (some (⟨0xFFFFFFFF, 5⟩, false), none) ∧
    ((Commit.new (List.replicate 64 0xFF) 1).bind fun c =>
      (MetadataReader.new c.buf).map fun r => (c.bytesWritten, r.committedEnd)) = .ok (4, 0) := by
  constructor
  · decide +kernel
  · decide +kernel

end LittlefsPure.Codec
