import LittlefsPure.Codec.Indexed

/-!
# What a block says

Any block of four bytes or more is a revision, a log of commits that verify, and a rest
behind which nothing verifies (`exists_log`).  So the reader finds whole commits with
checksums that agree, and other bytes behind them add commits or change nothing
(`MetadataReader.Parses.extends`).  `MetadataPair::parse` takes the newer half that has a
commit.

## Why a log always exists

A statement of the form "if the block holds a log, the reader finds it" says nothing of a block
that was corrupted.  `exists_log` turns it round: whatever the block holds, there is a log that the
reader has found, and what it reports is what that log says.  So a reader never makes anything up,
and every block has exactly one reading.
-/

namespace LittlefsPure.Codec

/-! ## The log of a block -/

section Log

variable {block rest : List Byte} {w : Walk} {revision : BitVec 32} {cs : List RawCommit}

/-- Turns that verify nothing pass a run of plain entries. -/
theorem walk_eq_run {n : ℕ} (h : ∀ m < n, ∀ k tag, ¬ (walk block m w).Verifies block k tag) :
    ∃ es : List RawEntry, (∀ e ∈ es, e.Plain) ∧ walk block n w = w.run es ∧
      block.drop w.pos = encode w.ptag es ++ block.drop (w.run es).pos := by
  induction n generalizing w with
  | zero => exact ⟨[], fun e he => absurd he List.not_mem_nil, rfl, rfl⟩
  | succ n ih =>
      rw [walk_succ]
      cases hturn : w.turn block with
      | none => exact ⟨[], fun e he => absurd he List.not_mem_nil, rfl, rfl⟩
      | some w' =>
          have hrest : ∀ m < n, ∀ k tag, ¬ (walk block m w').Verifies block k tag := by
            intro m hm k tag hverifies
            refine h (m + 1) (Nat.succ_lt_succ hm) k tag ?_
            rw [walk_succ, hturn]
            exact hverifies
          obtain ⟨es, hes, hwalk, hdrop⟩ := ih hrest
          rcases turn_cases hturn with ⟨tag, hverifies, -⟩ | ⟨tag, hnext, hccrc, rfl⟩
          · exact absurd hverifies (h 0 (Nat.succ_pos n) _ tag)
          · obtain ⟨-, hsized, hentry⟩ := drop_of_nextTag hnext
            have hword : (block.drop w.pos).take 4 = toBe (tag.bits ^^^ w.ptag.bits) :=
              @drop_word block _ _ _ ⟨tag, _⟩ [] hentry
            refine ⟨⟨tag, bodyAt block w.pos tag⟩ :: es, ?_, ?_, ?_⟩
            · intro e he
              rcases List.mem_cons.1 he with rfl | he
              · exact ⟨hsized.valid, hccrc, hsized.body⟩
              · exact hes e he
            · rw [Option.elim_some, hwalk, hword, Walk.run]
            · have hbehind : block.drop (w.pos + tag.dsize) = encode tag es ++ _ := hdrop
              have hbase : baseAfter w.ptag [⟨tag, bodyAt block w.pos tag⟩] = tag :=
                Tag.perturb_plain hccrc
              rw [Walk.run, ← hword, ← List.singleton_append, encode_append, hbase,
                List.append_assoc, ← hbehind]
              exact hentry

/-- A check that passes closes a commit more. -/
theorem Walk.Verifies.commit {tag : Tag} {es : List RawEntry} (hes : ∀ e ∈ es, e.Plain)
    (hdrop : block.drop w.pos = encode w.ptag es ++ block.drop (w.run es).pos)
    (h : (w.run es).Verifies block (w.run es).pos tag) :
    ∃ c : RawCommit, c.Sound w.ptag w.runningCrc ∧ 0 < runSize c.all ∧
      block.drop w.pos = encode w.ptag c.all ++ block.drop (w.pos + runSize c.all) := by
  obtain ⟨-, hsized, hentry⟩ := drop_of_nextTag h.next
  have hchecks := h.checks
  have hword : (block.drop (w.run es).pos).take 4 = toBe (tag.bits ^^^ (w.run es).ptag.bits) :=
    @drop_word block _ _ _ ⟨tag, _⟩ [] hentry
  have hstored : leWord (block.drop ((w.run es).pos + 4)) =
      leWord (bodyAt block (w.run es).pos tag) := (leWord_take _ h.room).symm
  have hpos := Walk.run_pos (w := w) hes
  refine ⟨⟨es, ⟨tag, bodyAt block (w.run es).pos tag⟩⟩, ⟨hes, hsized, h.isCcrc, h.room, ?_⟩, ?_, ?_⟩
  · rw [hstored, hword, Walk.run_crc hes, Walk.run_ptag hes] at hchecks
    rw [RawCommit.covered, Crc.update_append]
    exact hchecks.symm
  · rw [RawCommit.all, runSize_append, runSize_cons, RawEntry.size]
    omega
  · rw [RawCommit.all, runSize_append, ← Nat.add_assoc, ← hpos, runSize_cons, runSize_nil,
      Nat.add_zero, hsized.size, encode_append, List.append_assoc, ← Walk.run_ptag hes, ← hentry]
    exact hdrop

/-- A log that verifies, and a commit behind it. -/
theorem soundImage_snoc (h : block = logImage revision cs ++ rest) {c : RawCommit} :
    SoundImage revision (cs ++ [c]) ↔ SoundImage revision cs ∧
      c.Sound ((Walk.start block).commits cs).ptag
        ((Walk.start block).commits cs).runningCrc := by
  have hlog := @soundLog_commits (Walk.start block) cs [c]
  rw [start_crc h] at hlog
  exact hlog.trans (and_congr_right' (iff_of_eq (and_true _)))

/-- Behind a log that verifies there is a commit more, or nothing verifies. -/
theorem commit_or_stop (hsound : SoundImage revision cs)
    (h : block = logImage revision cs ++ rest) :
    (∃ c rest', SoundImage revision (cs ++ [c]) ∧ block = logImage revision (cs ++ [c]) ++ rest' ∧
        rest'.length < rest.length) ∨
      ∀ fuel, Walk.SameEnd ((Walk.start block).commits cs)
        (walk block fuel ((Walk.start block).commits cs)) := by
  by_cases hstop : ∀ n k tag,
      ¬ (walk block n ((Walk.start block).commits cs)).Verifies block k tag
  · exact .inr (walk_stops hstop)
  classical
  have hsome : ∃ n k tag, (walk block n ((Walk.start block).commits cs)).Verifies block k tag := by
    simpa only [not_forall, not_not] using hstop
  obtain ⟨k, tag, hverifies⟩ := Nat.find_spec hsome
  obtain ⟨es, hes, hwalk, hdrop⟩ := @walk_eq_run block ((Walk.start block).commits cs)
    (Nat.find hsome) fun m hm k tag hm' => Nat.find_min hsome hm ⟨k, tag, hm'⟩
  rw [hwalk] at hverifies
  obtain ⟨rfl, -⟩ := nextTag_eq_some hverifies.next
  obtain ⟨c, hc, hsize, hcommit⟩ := hverifies.commit hes hdrop
  obtain ⟨-, hptag, hbehind⟩ := commits_behind hsound h
  rw [hptag, hbehind] at hcommit
  refine .inl ⟨c, block.drop (((Walk.start block).commits cs).pos + runSize c.all),
    (soundImage_snoc h).2 ⟨hsound, hc⟩, ?_, ?_⟩
  · rw [logImage, logEntries_append, encode_append, logEntries_cons, logEntries_nil,
      List.append_nil, ← List.append_assoc, List.append_assoc _ (encode _ c.all), ← hcommit]
    exact h
  · have hlen := congrArg List.length hcommit
    rw [List.length_append, length_encode] at hlen
    omega

/-- A log that verifies goes on to where nothing verifies. -/
theorem exists_extension (hsound : SoundImage revision cs)
    (h : block = logImage revision cs ++ rest) :
    ∃ ds rest', SoundImage revision (cs ++ ds) ∧ block = logImage revision (cs ++ ds) ++ rest' ∧
      ∀ fuel, Walk.SameEnd ((Walk.start block).commits (cs ++ ds))
        (walk block fuel ((Walk.start block).commits (cs ++ ds))) := by
  induction hn : rest.length using Nat.strong_induction_on generalizing cs rest with
  | h n ih =>
      rcases commit_or_stop hsound h with ⟨c, rest', hmore, himage, hlt⟩ | hstop
      · obtain ⟨ds, rest'', hall⟩ := ih rest'.length (hn ▸ hlt) hmore himage rfl
        rw [List.append_assoc] at hall
        exact ⟨c :: ds, rest'', hall⟩
      · exact ⟨[], rest, by rwa [List.append_nil], by rwa [List.append_nil],
          by rwa [List.append_nil]⟩

/-- The revision word of a block. -/
theorem revision_image (hlen : 4 ≤ block.length) :
    block = logImage (leWord block) [] ++ block.drop 4 := by
  rw [logImage, toLe_leWord hlen, logEntries_nil, encode, List.append_nil, List.take_append_drop]

end Log

/-! ## What the reader says -/

/-- What a reader says of its block: the revision word, the commits that verify, and the
tags and the tail of these. -/
structure MetadataReader.Parses (r : MetadataReader) (block : List Byte) (cs : List RawCommit) :
    Prop where
  revision : r.revision = leWord block
  sound : SoundImage r.revision cs
  image : cs ≠ [] → block.take r.committedEnd = logImage r.revision cs
  inside : r.committedEnd ≤ block.length
  committedEnd : r.committedEnd = logEnd cs
  iterTags : r.iterTags = logEntries cs
  tail : (r.tail, r.isHardTail) = tailOfLog (logEntries cs)

section Parses

variable {block block' : List Byte} {r : MetadataReader} {cs : List RawCommit}

/-- A log on a block is where the reader begins. -/
theorem parses_extension {rest : List Byte} {revision : BitVec 32} (hsound : SoundImage revision cs)
    (h : block = logImage revision cs ++ rest) :
    ∃ r ds, MetadataReader.new block = .ok r ∧ r.Parses block (cs ++ ds) := by
  obtain ⟨ds, rest', hall, himage, hstop⟩ := exists_extension hsound h
  obtain ⟨r, hnew, hreads⟩ := reads_of_stop hall himage hstop
  refine ⟨r, ds, hnew, ?_, ?_, fun hne => ?_, ?_, hreads.committedEnd, hreads.iterTags, hreads.tail⟩
  · rw [hreads.revision, himage, logImage, List.append_assoc]
    exact (leWord_toLe_append _ _).symm
  · rw [hreads.revision]
    exact hall
  · rw [hreads.committedEnd, hreads.revision, logEnd, if_neg hne, ← length_logImage revision,
      himage]
    exact List.take_left' rfl
  · have hlen := congrArg List.length himage
    rw [List.length_append, length_logImage] at hlen
    rw [hreads.committedEnd, logEnd]
    split_ifs <;> omega

/-- Any block of four bytes or more. -/
theorem exists_parses (hlen : 4 ≤ block.length) :
    ∃ r cs, MetadataReader.new block = .ok r ∧ r.Parses block cs :=
  @parses_extension block [] _ _ trivial (revision_image hlen)

/-- Without a commit more, the tags and the tail are the same. -/
theorem MetadataReader.Parses.same {r' : MetadataReader} (h : r.Parses block cs)
    (h' : r'.Parses block' cs) : r'.iterTags = r.iterTags ∧ r'.tail = r.tail ∧
      r'.isHardTail = r.isHardTail := by
  have htail := h'.tail.trans h.tail.symm
  rw [Prod.mk.injEq] at htail
  exact ⟨h'.iterTags.trans h.iterTags.symm, htail⟩

/-- Other bytes behind the commits add commits, or change nothing. -/
theorem MetadataReader.Parses.extends (h : r.Parses block cs) (hlen : 4 ≤ block'.length)
    (hsame : block'.take r.committedEnd = block.take r.committedEnd) :
    ∃ r' ds, MetadataReader.new block' = .ok r' ∧ r'.Parses block' (cs ++ ds) ∧
      (ds = [] → r'.iterTags = r.iterTags ∧ r'.tail = r.tail ∧ r'.isHardTail = r.isHardTail) := by
  have hreads : ∃ r' ds, MetadataReader.new block' = .ok r' ∧ r'.Parses block' (cs ++ ds) := by
    by_cases hne : cs = []
    · subst hne
      exact exists_parses hlen
    · rw [h.image hne] at hsame
      have himage : block' = logImage r.revision cs ++ block'.drop r.committedEnd := by
        rw [← hsame, List.take_append_drop]
      exact parses_extension h.sound himage
  obtain ⟨r', ds, hnew, hparses⟩ := hreads
  refine ⟨r', ds, hnew, hparses, ?_⟩
  rintro rfl
  rw [List.append_nil] at hparses
  exact h.same hparses

/-- What a reader says of a block, with every index in range, and what it says of any block
with the same bytes up to the end of the log: commits more, or the same tags and the same
tail. -/
structure MetadataReader.Conserves (r : MetadataReader) (block : List Byte) (cs : List RawCommit) :
    Prop where
  value : MetadataReader.new? block = some (.ok r)
  parses : r.Parses block cs
  hasCommits : r.hasCommits = true ↔ cs ≠ []
  others : ∀ block' : List Byte, 4 ≤ block'.length →
    block'.take r.committedEnd = block.take r.committedEnd →
      ∃ r' ds, MetadataReader.new? block' = some (.ok r') ∧ r'.Parses block' (cs ++ ds) ∧
        (ds = [] → r'.iterTags = r.iterTags ∧ r'.tail = r.tail ∧ r'.isHardTail = r.isHardTail)

/-- A reader has a verified commit when its log has one. -/
theorem MetadataReader.Parses.hasCommits (h : r.Parses block cs) :
    r.hasCommits = true ↔ cs ≠ [] := by
  rw [MetadataReader.hasCommits, decide_eq_true_iff, h.committedEnd, logEnd]
  split_ifs with hnil
  · simp [hnil]
  · exact ⟨fun _ => hnil, fun _ => Nat.add_pos_left (by decide) _⟩

theorem exists_conserves (hlen : 4 ≤ block.length) :
    ∃ r cs, MetadataReader.new block = .ok r ∧ r.Conserves block cs := by
  obtain ⟨r, cs, hnew, hparses⟩ := exists_parses hlen
  refine ⟨r, cs, hnew, ?_, hparses, hparses.hasCommits, fun block' hlen' hsame => ?_⟩
  · rw [MetadataReader.new?_eq, hnew]
  · obtain ⟨r', ds, hnew', hrest⟩ := hparses.extends hlen' hsame
    exact ⟨r', ds, by rw [MetadataReader.new?_eq, hnew'], hrest⟩

end Parses

/-! ## Pairs -/

section Pairs

variable {addrA addrB : ℕ} {a b : MetadataReader}

/-- The half that a pair is read from: the newer one with a commit, the first on a tie. -/
def MetadataPair.Selected (addrA : ℕ) (a : MetadataReader) (addrB : ℕ) (b : MetadataReader)
    (p : MetadataPair) : Prop :=
  (a.hasCommits ∧ (b.hasCommits → 0 ≤ revScmp a.revision b.revision) ∧
      p = ⟨addrA, addrB, a, b.hasCommits⟩) ∨
    (b.hasCommits ∧ (a.hasCommits → revScmp a.revision b.revision < 0) ∧
      p = ⟨addrB, addrA, b, a.hasCommits⟩)

theorem MetadataPair.choose_eq_ok (p : MetadataPair) :
    MetadataPair.choose addrA a addrB b = .ok p ↔ MetadataPair.Selected addrA a addrB b p := by
  unfold MetadataPair.choose MetadataPair.Selected
  by_cases hnewer : 0 ≤ revScmp a.revision b.revision
  · rw [decide_eq_true hnewer]
    cases ha : a.hasCommits <;> cases hb : b.hasCommits <;> simp [hnewer, ha, hb, eq_comm]
  · have holder : revScmp a.revision b.revision < 0 := Int.not_le.1 hnewer
    rw [decide_eq_false hnewer]
    cases ha : a.hasCommits <;> cases hb : b.hasCommits <;> simp [holder, ha, hb, eq_comm]

theorem MetadataPair.choose_eq_error (e : Error) :
    MetadataPair.choose addrA a addrB b = .error e ↔
      e = .corrupt ∧ a.hasCommits = false ∧ b.hasCommits = false := by
  unfold MetadataPair.choose
  by_cases hnewer : 0 ≤ revScmp a.revision b.revision
  · rw [decide_eq_true hnewer]
    cases ha : a.hasCommits <;> cases hb : b.hasCommits <;> simp [ha, hb, eq_comm]
  · rw [decide_eq_false hnewer]
    cases ha : a.hasCommits <;> cases hb : b.hasCommits <;> simp [ha, hb, eq_comm]

/-- The checked parse has a value on all blocks, and it is that of the parse. -/
theorem MetadataPair.parse?_eq (addrA : ℕ) (blockA : List Byte) (addrB : ℕ) (blockB : List Byte) :
    MetadataPair.parse? addrA blockA addrB blockB =
      some (MetadataPair.parse addrA blockA addrB blockB) := by
  rw [MetadataPair.parse?, MetadataPair.parse, MetadataReader.new?_eq, MetadataReader.new?_eq]
  cases MetadataReader.new blockA with
  | error e => rfl
  | ok a => cases MetadataReader.new blockB <;> rfl

end Pairs

/-- Parsing is total and conservative: on any two blocks of four bytes or more the readers
and the parse have values, with every index in range and every loop at its end; the bytes
up to the end of each log are whole commits that verify; other bytes behind them change
neither the tags nor the tail, unless they add commits; and the pair is read from the newer
half that has a commit. -/
theorem parsing_conservative {blockA blockB : List Byte} (hA : 4 ≤ blockA.length)
    (hB : 4 ≤ blockB.length) (addrA addrB : ℕ) :
      ∃ (a b : MetadataReader) (csA csB : List RawCommit),
    a.Conserves blockA csA ∧ b.Conserves blockB csB ∧
      ∃ result, MetadataPair.parse? addrA blockA addrB blockB = some result ∧
        (∀ p, result = .ok p ↔ MetadataPair.Selected addrA a addrB b p) ∧
        ∀ e, result = .error e ↔ e = .corrupt ∧ a.hasCommits = false ∧ b.hasCommits = false := by
  obtain ⟨a, csA, hnewA, hconservesA⟩ := exists_conserves hA
  obtain ⟨b, csB, hnewB, hconservesB⟩ := exists_conserves hB
  have hparse : MetadataPair.parse addrA blockA addrB blockB =
      MetadataPair.choose addrA a addrB b := by
    rw [MetadataPair.parse, hnewA, hnewB]
    rfl
  refine ⟨a, b, csA, csB, hconservesA, hconservesB, MetadataPair.choose addrA a addrB b, ?_,
    MetadataPair.choose_eq_ok, MetadataPair.choose_eq_error⟩
  rw [MetadataPair.parse?_eq, hparse]

/-- A block of one commit that creates an entry, with four bytes behind it. -/
def sampleBlock : List Byte :=
  [1, 0, 0, 0, 191, 239, 255, 255, 16, 31, 252, 4, 48, 210, 22, 51, 255, 255, 255, 255]

/-- A block with one commit, and a newer one without any. -/
theorem parsing_conservative_half : ∃ (a b : MetadataReader) (csA csB : List RawCommit),
    a.Conserves sampleBlock csA ∧ b.Conserves [2, 0, 0, 0, 9] csB ∧ csA ≠ [] ∧ csB = [] ∧
      ∃ p, MetadataPair.parse? 0 sampleBlock 1 [2, 0, 0, 0, 9] = some (.ok p) ∧
        p.activeBlock = 0 := by
  obtain ⟨a, b, csA, csB, hA, hB, result, hresult, hok, -⟩ :=
    @parsing_conservative sampleBlock [2, 0, 0, 0, 9] (by decide) (by decide) 0 1
  have hcommits : (MetadataReader.new? sampleBlock).bind
      (fun r => r.toOption.map MetadataReader.hasCommits) = some true := by decide +kernel
  have hbare : (MetadataReader.new? [2, 0, 0, 0, 9]).bind
      (fun r => r.toOption.map MetadataReader.hasCommits) = some false := by decide +kernel
  rw [hA.value] at hcommits
  rw [hB.value] at hbare
  have ha : a.hasCommits = true := Option.some.inj hcommits
  have hb : b.hasCommits = false := Option.some.inj hbare
  have hselected : MetadataPair.Selected 0 a 1 b ⟨0, 1, a, b.hasCommits⟩ :=
    .inl ⟨ha, fun h => absurd h (by rw [hb]; decide), rfl⟩
  refine ⟨a, b, csA, csB, hA, hB, hA.hasCommits.1 ha, ?_, ⟨0, 1, a, b.hasCommits⟩, ?_, rfl⟩
  · by_contra hne
    rw [hB.hasCommits.2 hne] at hb
    cases hb
  · rw [hresult, (hok _).2 hselected]

end LittlefsPure.Codec
