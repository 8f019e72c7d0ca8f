import LittlefsPure.Codec.Kept

/-!
# A commit and the power

A commit that is cut off anywhere leaves the pair with the tags of before or with those of
after (`commit_atomic`), and it leaves it so that the next commit finds only erased cells to
program, however often the power goes.  Which half is read is decided by the revisions, and the
half that is written to is either the one that was read, with its revision unchanged, or the
other one, which is not read until its commit is whole.

## Why three cases and not more

A cut falls into an erase, into a program, or between two calls of the device.  An erase hits the
half that is not read; a program appends to the half that is read or fills the one that is not.
So what a cut leaves is one of: the pair as it was with one half gone, the pair as it was with the
beginning of a commit behind the log, and the pair with the whole commit.  The second is where the
checksums come in, and it is `cut_or_whole`.

## Why the next commit is part of the statement

A pair that reads as before is of no use if the cells behind its log are dirty and the next append
programs them.  The forward CRC of the last commit tells the reader whether they are erased, so
the statement includes that what the reader takes for erased is erased.
-/

namespace LittlefsPure.Codec

open Logic Nor

/-! ## The half that is read -/

/-- The two halves of a pair, the one that is read and the other. -/
def MetadataPair.Halves (p : MetadataPair) (pair : BlockPair) : Prop :=
  (p.activeBlock = pair.a ∧ p.alternateBlock = pair.b) ∨
    (p.activeBlock = pair.b ∧ p.alternateBlock = pair.a)

/-- The half that is read is not older than the other; on a tie it is the first. -/
def MetadataPair.Newer (p : MetadataPair) (pair : BlockPair) (other : MetadataReader) : Prop :=
  if p.activeBlock = pair.a then 0 ≤ revScmp p.reader.revision other.revision
  else revScmp other.revision p.reader.revision < 0

/-- A pair as the device holds it. -/
structure MetadataPair.ReadFrom (p : MetadataPair) (g : Geometry) (c : Cells) (pair : BlockPair) :
    Prop where
  halves : p.Halves pair
  reader : MetadataReader.new (blockAt g c p.activeBlock) = .ok p.reader
  hasCommits : p.reader.hasCommits = true
  other : ∃ other, MetadataReader.new (blockAt g c p.alternateBlock) = .ok other ∧
    (other.hasCommits = true → p.Newer pair other) ∧ p.alternateValid = other.hasCommits

section Read

variable {g : Geometry} {c c' : Cells} {pair : BlockPair} {p : MetadataPair}

theorem exists_reader (hg : g.Admitted) (c : Cells) (b : ℕ) :
    ∃ r, MetadataReader.new (blockAt g c b) = .ok r := by
  have hfloor : 128 ≤ g.blockSize := hg.blockSize_floor
  obtain ⟨r, -, hnew, -⟩ := @exists_parses (blockAt g c b) (by rw [length_blockAt]; omega)
  exact ⟨r, hnew⟩

theorem fetchPair_iff (hg : g.Admitted) (hne : pair.a ≠ pair.b) :
    fetchPair g c pair = .ok p ↔ p.ReadFrom g c pair := by
  obtain ⟨a, ha⟩ := exists_reader hg c pair.a
  obtain ⟨b, hb⟩ := exists_reader hg c pair.b
  have hparse : fetchPair g c pair = MetadataPair.choose pair.a a pair.b b := by
    rw [fetchPair, MetadataPair.parse, ha, hb]
    rfl
  rw [hparse, MetadataPair.choose_eq_ok]
  constructor
  · rintro (⟨hcommits, hnewer, rfl⟩ | ⟨hcommits, hnewer, rfl⟩)
    · exact ⟨.inl ⟨rfl, rfl⟩, ha, hcommits, b, hb, fun h => (if_pos rfl).mpr (hnewer h), rfl⟩
    · exact ⟨.inr ⟨rfl, rfl⟩, hb, hcommits, a, ha, fun h => (if_neg hne.symm).mpr (hnewer h), rfl⟩
  · rintro ⟨hhalves, hreader, hcommits, other, hother, hnewer, hvalid⟩
    obtain ⟨active, alternate, reader, valid⟩ := p
    rcases hhalves with ⟨hactive, halternate⟩ | ⟨hactive, halternate⟩
    · obtain rfl : active = pair.a := hactive
      obtain rfl : alternate = pair.b := halternate
      obtain rfl : a = reader := Except.ok.inj (ha.symm.trans hreader)
      obtain rfl : b = other := Except.ok.inj (hb.symm.trans hother)
      obtain rfl : valid = b.hasCommits := hvalid
      exact .inl ⟨hcommits, fun h => (if_pos rfl).mp (hnewer h), rfl⟩
    · obtain rfl : active = pair.b := hactive
      obtain rfl : alternate = pair.a := halternate
      obtain rfl : b = reader := Except.ok.inj (hb.symm.trans hreader)
      obtain rfl : a = other := Except.ok.inj (ha.symm.trans hother)
      obtain rfl : valid = a.hasCommits := hvalid
      exact .inr ⟨hcommits, fun h => (if_neg hne.symm).mp (hnewer h), rfl⟩

theorem MetadataPair.Halves.ne (h : p.Halves pair) (hne : pair.a ≠ pair.b) :
    p.alternateBlock ≠ p.activeBlock := by
  rcases h with ⟨ha, hb⟩ | ⟨ha, hb⟩
  · rw [ha, hb]
    exact hne.symm
  · rw [ha, hb]
    exact hne

theorem MetadataPair.Halves.swap (h : p.Halves pair) (reader : MetadataReader) (valid : Bool) :
    (⟨p.alternateBlock, p.activeBlock, reader, valid⟩ : MetadataPair).Halves pair := by
  rcases h with ⟨ha, hb⟩ | ⟨ha, hb⟩
  · exact .inr ⟨hb, ha⟩
  · exact .inl ⟨hb, ha⟩

/-- The half that is read keeps its revision and has a commit. -/
theorem MetadataPair.ReadFrom.active (h : p.ReadFrom g c pair) {reader : MetadataReader}
    (hread : MetadataReader.new (blockAt g c' p.activeBlock) = .ok reader)
    (hcommits : reader.hasCommits = true) (hrevision : reader.revision = p.reader.revision)
    (hother : blockAt g c' p.alternateBlock = blockAt g c p.alternateBlock) :
    (⟨p.activeBlock, p.alternateBlock, reader, p.alternateValid⟩ : MetadataPair).ReadFrom g c'
      pair := by
  obtain ⟨other, hread', hnewer, hvalid⟩ := h.other
  refine ⟨h.halves, hread, hcommits, other, by rw [← hread', ← hother], fun hc => ?_, hvalid⟩
  have hfirst := hnewer hc
  unfold MetadataPair.Newer at hfirst ⊢
  rw [hrevision]
  exact hfirst

/-- The other half has no commit. -/
theorem MetadataPair.ReadFrom.idle (h : p.ReadFrom g c pair) {other : MetadataReader}
    (hactive : blockAt g c' p.activeBlock = blockAt g c p.activeBlock)
    (hread : MetadataReader.new (blockAt g c' p.alternateBlock) = .ok other)
    (hnone : other.hasCommits = false) :
    (⟨p.activeBlock, p.alternateBlock, p.reader, false⟩ : MetadataPair).ReadFrom g c' pair := by
  refine ⟨h.halves, ?_, h.hasCommits, other, hread, fun hc => ?_, hnone.symm⟩
  · rw [← h.reader, ← hactive]
  · rw [hnone] at hc
    cases hc

theorem revScmp_succ (x : BitVec 32) : revScmp (x + 1) x = 1 := by
  rw [revScmp, BitVec.add_comm, BitVec.add_sub_cancel]
  rfl

theorem revScmp_pred (x : BitVec 32) : revScmp x (x + 1) = -1 := by
  have hsub : x - (x + 1) = -1 := by bv_omega
  rw [revScmp, hsub]
  rfl

/-- The other half has a commit, and the next revision. -/
theorem MetadataPair.ReadFrom.compacted (h : p.ReadFrom g c pair)
    {reader : MetadataReader}
    (hactive : blockAt g c' p.activeBlock = blockAt g c p.activeBlock)
    (hread : MetadataReader.new (blockAt g c' p.alternateBlock) = .ok reader)
    (hcommits : reader.hasCommits = true) (hrevision : reader.revision = p.reader.revision + 1) :
    (⟨p.alternateBlock, p.activeBlock, reader, true⟩ : MetadataPair).ReadFrom g c' pair := by
  refine ⟨h.halves.swap _ _, hread, hcommits, p.reader, ?_, fun _ => ?_, h.hasCommits.symm⟩
  · rw [← h.reader, ← hactive]
  · unfold MetadataPair.Newer
    rw [hrevision, revScmp_succ, revScmp_pred]
    split_ifs <;> decide

/-- Other cells behind the log of the half that is read leave its commits where they are. -/
theorem MetadataPair.ReadFrom.contaminated (h : p.ReadFrom g c pair) (hg : g.Admitted)
    (hsame : ∀ b o, ¬ (b = p.activeBlock ∧ p.reader.committedEnd ≤ o) → c' b o = c b o)
    (hne : p.alternateBlock ≠ p.activeBlock) :
    ∃ q : MetadataPair, q.ReadFrom g c' pair ∧ q.activeBlock = p.activeBlock ∧
      p.reader.iterTags <+: q.reader.iterTags := by
  have hfloor : 128 ≤ g.blockSize := hg.blockSize_floor
  have hlen : ∀ d, 4 ≤ (blockAt g d p.activeBlock).length := fun d => by
    rw [length_blockAt]
    omega
  obtain ⟨r, cs, hnew, hparses⟩ := exists_parses (hlen c)
  obtain rfl : r = p.reader := Except.ok.inj (hnew.symm.trans h.reader)
  have htake : (blockAt g c' p.activeBlock).take p.reader.committedEnd =
      (blockAt g c p.activeBlock).take p.reader.committedEnd := by
    refine List.ext_getElem? fun i => ?_
    rw [List.getElem?_take, List.getElem?_take]
    split_ifs with hi
    · rw [blockAt, blockAt, Cells.getElem?_bytes, Cells.getElem?_bytes, Nat.zero_add,
        hsame _ _ fun hin => absurd hin.2 (Nat.not_le_of_lt hi)]
    · rfl
  obtain ⟨r', ds, hnew', hparses', -⟩ := hparses.extends (hlen c') htake
  have hcs := hparses.hasCommits.1 h.hasCommits
  have hcommits : r'.hasCommits = true :=
    hparses'.hasCommits.2 (List.append_ne_nil_of_left_ne_nil hcs ds)
  have hrevision : r'.revision = p.reader.revision := by
    have hfour : 4 ≤ p.reader.committedEnd := by
      rw [hparses.committedEnd, logEnd, if_neg hcs]
      exact Nat.le_add_right _ _
    rw [hparses'.revision, hparses.revision, ← leWord_take _ hfour, htake, leWord_take _ hfour]
  have hother : blockAt g c' p.alternateBlock = blockAt g c p.alternateBlock :=
    blockAt_congr fun o => hsame _ o fun hin => hne hin.1
  refine ⟨_, h.active hnew' hcommits hrevision hother, rfl, ?_⟩
  show p.reader.iterTags <+: r'.iterTags
  rw [hparses.iterTags, hparses'.iterTags, logEntries_append]
  exact List.prefix_append _ _

end Read

/-! ## Commits on a written pair -/

/-- A pair whose active half this engine has written. -/
structure OnPair (g : Geometry) (c : Cells) (pair : BlockPair) (p : MetadataPair) : Prop where
  distinct : pair.a ≠ pair.b
  fetch : fetchPair g c pair = .ok p
  written : Written g p.activeBlock c

/-- What a reader says: the tags, and the tail with its kind. -/
def MetadataReader.contents (r : MetadataReader) : List RawEntry × Option BlockPair × Bool :=
  (r.iterTags, r.tail, r.isHardTail)

/-- A pair with one commit more: its tags are behind those of before, or in their place. -/
def MetadataPair.Commits (p : MetadataPair) (r : PairCommit) (q : MetadataPair) : Prop :=
  ∃ close : List RawEntry,
    (∀ e ∈ close, e.tag.tagType = .forwardCrc ∨ e.tag.isCcrc = true) ∧
      ((q.activeBlock = p.activeBlock ∧
          q.reader.iterTags = p.reader.iterTags ++ (r.appended ++ close)) ∨
        (q.activeBlock = p.alternateBlock ∧ q.reader.iterTags = r.compacted ++ close))

/-- No checksum of a block that a program went to agrees by chance. -/
def TrustedBehind (g : Geometry) (c : Cells) (calls : List Request) : Prop :=
  ∀ b off data, Request.program b off data ∈ calls →
    Trusted (blockAt g (c.after calls) b) (off + data.length)

section OnPair

variable {g : Geometry} {c : Cells} {pair : BlockPair} {p : MetadataPair} {r : PairCommit}
  {calls : List Request} {revision : BitVec 32} {cs : List RawCommit} {rc : RawCommit}
  {tags : List RawEntry}

theorem OnPair.readFrom (h : OnPair g c pair p) (hg : g.Admitted) : p.ReadFrom g c pair :=
  (fetchPair_iff hg h.distinct).1 h.fetch

theorem OnPair.kept (h : OnPair g c pair p) (hg : g.Admitted) :
    ∃ cs, Kept g (blockAt g c p.activeBlock) p.reader.revision cs := by
  have hread := h.readFrom hg
  rcases h.written.kept hg with hnone | ⟨revision, cs, hkept⟩
  · have hcommits := hread.hasCommits
    rw [(hnone.reads hread.reader).1] at hcommits
    cases hcommits
  · rw [(hkept.reads hread.reader).revision]
    exact ⟨cs, hkept⟩

theorem MetadataReader.Reads.contents {r : MetadataReader} {block : List Byte}
    (h : r.Reads block revision cs) : r.contents = (logEntries cs, tailOfLog (logEntries cs)) := by
  rw [MetadataReader.contents, h.iterTags, ← h.tail]

/-- The entries of the last commit of a log, behind its tags. -/
theorem RawCommit.Padded.all (h : rc.Padded tags) (hsound : SoundImage revision (cs ++ [rc])) :
    ∃ close : List RawEntry, rc.all = tags ++ close ∧
      ∀ e ∈ close, e.tag.tagType = .forwardCrc ∨ e.tag.isCcrc = true := by
  obtain ⟨close, hentries, hclose⟩ := h.entries
  refine ⟨close ++ [rc.ccrc], by rw [RawCommit.all, hentries, List.append_assoc], fun e he => ?_⟩
  rcases List.mem_append.1 he with he | he
  · exact .inl (hclose e he)
  · rw [List.mem_singleton.1 he]
    obtain ⟨ptag, crc, hrc⟩ := soundImage_last hsound
    exact .inr hrc.isCcrc

/-- The two ways a commit is made. -/
theorem applyOpToPairInner_cases (hfetch : fetchPair g c pair = .ok p)
    (h : applyOpToPairInner g c pair r = .ok calls) :
    (r.canAppend g p.reader = true ∧ ∃ commit, r.buildAppend g p.reader = .ok commit ∧
        calls = [.program p.activeBlock p.reader.committedEnd
          (commit.programmed p.reader.committedEnd)]) ∨
      ∃ commit, r.buildCompactCommit g (p.reader.revision + 1) = .ok commit ∧
        calls = [.erase p.alternateBlock, .program p.alternateBlock 0 (commit.programmed 0)] := by
  rw [applyOpToPairInner, hfetch] at h
  obtain ⟨q, hq, hcommit⟩ := bind_eq_ok.1 h
  cases hq
  split_ifs at hcommit with hcan
  · obtain ⟨commit, hbuild, hcalls⟩ := bind_eq_ok.1 hcommit
    exact .inl ⟨hcan, commit, hbuild, (Except.ok.inj hcalls).symm⟩
  · obtain ⟨commit, hbuild, hcalls⟩ := bind_eq_ok.1 hcommit
    exact .inr ⟨commit, hbuild, (Except.ok.inj hcalls).symm⟩

/-- A commit programs erased cells. -/
theorem applyOpToPairInner_onErased (hg : g.Admitted) (h : OnPair g c pair p)
    (hcalls : applyOpToPairInner g c pair r = .ok calls) : OnErased c calls := by
  have hread := h.readFrom hg
  rcases applyOpToPairInner_cases h.fetch hcalls with
    ⟨hcan, commit, hbuild, rfl⟩ | ⟨commit, hbuild, rfl⟩
  · obtain ⟨cs, hkept⟩ := h.kept hg
    have herased := erased_of_canAppend hcan
    obtain ⟨rc, happends⟩ := appends_of_build hg hkept hread.reader herased hbuild
    have hcells := hkept.erased hread.reader herased
    have hfits := happends.fits
    rw [logImage_snoc, List.length_append, ← happends.image,
      ← hkept.committedEnd hread.reader] at hfits
    refine ⟨fun o ho hlt => cell_of_blockAt hcells ?_ (Nat.lt_of_lt_of_le hlt hfits), trivial⟩
    rw [← hkept.committedEnd hread.reader]
    exact ho
  · exact ⟨trivial, fun o _ _ => if_pos rfl, trivial⟩

variable {c' : Cells}

/-- The half that is read holds a log of its revision. -/
theorem OnPair.active (h : OnPair g c pair p) (hg : g.Admitted)
    (hwritten : Written g p.activeBlock c')
    (hkept : Kept g (blockAt g c' p.activeBlock) p.reader.revision cs)
    (hother : blockAt g c' p.alternateBlock = blockAt g c p.alternateBlock) :
    ∃ q, OnPair g c' pair q ∧ q.activeBlock = p.activeBlock ∧
      q.reader.contents = (logEntries cs, tailOfLog (logEntries cs)) := by
  obtain ⟨reader, hread⟩ := exists_reader hg c' p.activeBlock
  have hreads := hkept.reads hread
  have hfrom := (h.readFrom hg).active hread (hkept.hasCommits hread) hreads.revision hother
  exact ⟨_, ⟨h.distinct, (fetchPair_iff hg h.distinct).2 hfrom, hwritten⟩, rfl, hreads.contents⟩

/-- The other half has no commit. -/
theorem OnPair.idle (h : OnPair g c pair p) (hg : g.Admitted)
    (hactive : ∀ o, c' p.activeBlock o = c p.activeBlock o)
    (hnone : NoCommits (blockAt g c' p.alternateBlock)) :
    ∃ q, OnPair g c' pair q ∧ q.reader.contents = p.reader.contents := by
  obtain ⟨other, hread⟩ := exists_reader hg c' p.alternateBlock
  have hfrom := (h.readFrom hg).idle (blockAt_congr hactive) hread (hnone.reads hread).1
  exact ⟨_, ⟨h.distinct, (fetchPair_iff hg h.distinct).2 hfrom, h.written.elsewhere hactive⟩, rfl⟩

/-- The other half holds a log of the next revision. -/
theorem OnPair.compacted (h : OnPair g c pair p) (hg : g.Admitted)
    (hwritten : Written g p.alternateBlock c')
    (hkept : Kept g (blockAt g c' p.alternateBlock) (p.reader.revision + 1) cs)
    (hactive : blockAt g c' p.activeBlock = blockAt g c p.activeBlock) :
    ∃ q, OnPair g c' pair q ∧ q.activeBlock = p.alternateBlock ∧
      q.reader.contents = (logEntries cs, tailOfLog (logEntries cs)) := by
  obtain ⟨reader, hread⟩ := exists_reader hg c' p.alternateBlock
  have hreads := hkept.reads hread
  have hfrom := (h.readFrom hg).compacted hactive hread (hkept.hasCommits hread) hreads.revision
  exact ⟨_, ⟨h.distinct, (fetchPair_iff hg h.distinct).2 hfrom, hwritten⟩, rfl, hreads.contents⟩

/-- What a commit comes to: a pair with the commit, and where the power goes in its program, the
pair of before or that one. -/
def Lands (g : Geometry) (c : Cells) (pair : BlockPair) (p : MetadataPair) (r : PairCommit)
    (calls : List Request) (after : MetadataPair) : Prop :=
  OnPair g (c.after calls) pair after ∧ p.Commits r after ∧
    ∀ n, TrustedBehind g c (tear n calls) → ∃ q, OnPair g (c.after (tear n calls)) pair q ∧
      (q.reader.contents = p.reader.contents ∨ q.reader.contents = after.reader.contents)

/-- An append lands. -/
theorem append_lands (hg : g.Admitted) (h : OnPair g c pair p) {commit : Commit}
    (hcan : r.canAppend g p.reader = true) (hbuild : r.buildAppend g p.reader = .ok commit) :
    ∃ after, Lands g c pair p r [.program p.activeBlock p.reader.committedEnd
      (commit.programmed p.reader.committedEnd)] after := by
  have hfrom := h.readFrom hg
  have hread := hfrom.reader
  have herased := erased_of_canAppend hcan
  obtain ⟨cs, hkept⟩ := h.kept hg
  obtain ⟨rc, happends⟩ := appends_of_build hg hkept hread herased hbuild
  have hother : ∀ data, blockAt g (c.program p.activeBlock p.reader.committedEnd data)
      p.alternateBlock = blockAt g c p.alternateBlock := fun data =>
    blockAt_program_of_ne (hfrom.halves.ne h.distinct)
  have hbefore := (hkept.reads hread).contents
  have hwhole := happends.whole hkept hread herased
  have hwritten := happends.written hkept h.written hread hcan hbuild
  obtain ⟨after, hafter, hactive, hcontents⟩ := h.active hg hwritten hwhole (hother _)
  refine ⟨after, hafter, ?_, fun n htrust => ?_⟩
  · obtain ⟨close, hall, hclose⟩ := happends.padded.all happends.sound
    refine ⟨close, hclose, .inl ⟨hactive, ?_⟩⟩
    have htags : after.reader.iterTags = logEntries (cs ++ [rc]) := congrArg Prod.fst hcontents
    have holder : p.reader.iterTags = logEntries cs := congrArg Prod.fst hbefore
    rw [htags, holder, logEntries_append, logEntries_cons, logEntries_nil, List.append_nil, hall]
  · have htrusted := htrust _ _ _ (List.mem_singleton.2 rfl)
    have hwritten' := Written.appended n h.written hread hcan hbuild htrusted
    rcases happends.torn hkept hread herased n htrusted with hkept' | hkept'
    · obtain ⟨q, hq, -, hsame⟩ := h.active hg hwritten' hkept' (hother _)
      exact ⟨q, hq, .inl (hsame.trans hbefore.symm)⟩
    · obtain ⟨q, hq, -, hsame⟩ := h.active hg hwritten' hkept' (hother _)
      exact ⟨q, hq, .inr (hsame.trans hcontents.symm)⟩

/-- A compaction lands. -/
theorem compaction_lands (hg : g.Admitted) (h : OnPair g c pair p) {commit : Commit}
    (hbuild : r.buildCompactCommit g (p.reader.revision + 1) = .ok commit) :
    ∃ after, Lands g c pair p r
      [.erase p.alternateBlock, .program p.alternateBlock 0 (commit.programmed 0)] after := by
  have hne := (h.readFrom hg).halves.ne h.distinct
  obtain ⟨rc, hcompacts⟩ := compacts_of_build hg hbuild
  have hcells : ∀ data o, (c.erase p.alternateBlock).program p.alternateBlock 0 data
      p.activeBlock o = c p.activeBlock o := fun data o =>
    (if_neg fun hb => hne hb.1.symm).trans (if_neg hne.symm)
  have hactive := fun data => blockAt_congr (g := g) (hcells data)
  have hwhole : Kept g _ _ _ := hcompacts.whole (c := c) (b := p.alternateBlock)
  have hwritten := hcompacts.written (c := c) (b := p.alternateBlock) hbuild
  obtain ⟨after, hafter, hlands, hcontents⟩ := h.compacted hg hwritten hwhole (hactive _)
  refine ⟨after, hafter, ?_, fun n htrust => ?_⟩
  · have hsound : SoundImage _ ([] ++ [rc]) := hcompacts.sound
    obtain ⟨close, hall, hclose⟩ := hcompacts.padded.all hsound
    refine ⟨close, hclose, .inr ⟨hlands, ?_⟩⟩
    have htags : after.reader.iterTags = logEntries [rc] := congrArg Prod.fst hcontents
    rw [htags, logEntries_cons, logEntries_nil, List.append_nil, hall]
  · have htrusted := htrust _ _ _ (List.mem_cons_of_mem _ (List.mem_singleton.2 rfl))
    rw [Nat.zero_add] at htrusted
    rcases hcompacts.torn n htrusted with hnone | hkept
    · obtain ⟨q, hq, hsame⟩ := h.idle hg (hcells _) hnone
      exact ⟨q, hq, .inl hsame⟩
    · obtain ⟨q, hq, -, hsame⟩ := h.compacted hg (Written.compacted n hbuild htrusted) hkept
        (hactive _)
      exact ⟨q, hq, .inr (hsame.trans hcontents.symm)⟩

theorem applyOpToPairInner_lands (hg : g.Admitted) (h : OnPair g c pair p)
    (hcalls : applyOpToPairInner g c pair r = .ok calls) :
    ∃ after, Lands g c pair p r calls after := by
  rcases applyOpToPairInner_cases h.fetch hcalls with
    ⟨hcan, commit, hbuild, rfl⟩ | ⟨commit, hbuild, rfl⟩
  · exact append_lands hg h hcan hbuild
  · exact compaction_lands hg h hbuild

end OnPair

/-! ## Runs -/

/-- Commits on a pair, each of them whole or cut off anywhere. -/
inductive TornRun (g : Geometry) (pair : BlockPair) (c : Cells) : Cells → Prop
  | start : TornRun g pair c c
  | whole {c' : Cells} {r : PairCommit} {calls : List Request} (h : TornRun g pair c c')
      (hcalls : applyOpToPairInner g c' pair r = .ok calls) : TornRun g pair c (c'.after calls)
  | torn {c' : Cells} {r : PairCommit} {calls : List Request} (n : ℕ) (h : TornRun g pair c c')
      (hcalls : applyOpToPairInner g c' pair r = .ok calls)
      (htrust : TrustedBehind g c' (tear n calls)) : TornRun g pair c (c'.after (tear n calls))

/-- Bytes that change behind the commits of a pair take none of them away. -/
def Survives (g : Geometry) (c : Cells) (pair : BlockPair) (p : MetadataPair) : Prop :=
  ∀ c' : Cells, (∀ b o, ¬ (b = p.activeBlock ∧ p.reader.committedEnd ≤ o) → c' b o = c b o) →
    ∃ q, fetchPair g c' pair = .ok q ∧ q.activeBlock = p.activeBlock ∧
      p.reader.iterTags <+: q.reader.iterTags

section Runs

variable {g : Geometry} {c c' : Cells} {pair : BlockPair} {p : MetadataPair} {r : PairCommit}
  {calls : List Request}

theorem OnPair.survives (h : OnPair g c pair p) (hg : g.Admitted) : Survives g c pair p := by
  intro c' hsame
  have hread := h.readFrom hg
  obtain ⟨q, hq, hactive, htags⟩ := hread.contaminated hg hsame (hread.halves.ne h.distinct)
  exact ⟨q, (fetchPair_iff hg h.distinct).2 hq, hactive, htags⟩

/-- A pair stays one that this engine has written. -/
theorem OnPair.run (h : OnPair g c pair p) (hg : g.Admitted) (hrun : TornRun g pair c c') :
    ∃ q, OnPair g c' pair q := by
  induction hrun with
  | start => exact ⟨p, h⟩
  | whole _ hcalls ih =>
      obtain ⟨q, hq⟩ := ih
      obtain ⟨after, hafter, -⟩ := applyOpToPairInner_lands hg hq hcalls
      exact ⟨after, hafter⟩
  | torn n _ hcalls htrust ih =>
      obtain ⟨q, hq⟩ := ih
      obtain ⟨after, -, -, htorn⟩ := applyOpToPairInner_lands hg hq hcalls
      obtain ⟨q', hq', -⟩ := htorn n htrust
      exact ⟨q', hq'⟩

/-- A commit on a pair is atomic.  Behind any run of commits that were cut off or not, the calls
of the next one fall on erased cells and leave the pair with the commit; where the power goes
behind any byte of its program, the pair has the tags of before or those of after, and the
commit that follows falls on erased cells again.  Bytes that change behind the commits of a
pair take none of them away. -/
theorem commit_atomic (hg : g.Admitted) (h : OnPair g c pair p) (hrun : TornRun g pair c c')
    (hcalls : applyOpToPairInner g c' pair r = .ok calls) :
    OnErased c' calls ∧ ∃ before after, OnPair g c' pair before ∧ Survives g c' pair before ∧
      OnPair g (c'.after calls) pair after ∧ before.Commits r after ∧
      Survives g (c'.after calls) pair after ∧
      ∀ n, TrustedBehind g c' (tear n calls) → ∃ q, OnPair g (c'.after (tear n calls)) pair q ∧
        (q.reader.contents = before.reader.contents ∨
          q.reader.contents = after.reader.contents) ∧
        Survives g (c'.after (tear n calls)) pair q ∧
        ∀ r' calls', applyOpToPairInner g (c'.after (tear n calls)) pair r' = .ok calls' →
          OnErased (c'.after (tear n calls)) calls' := by
  obtain ⟨before, hbefore⟩ := h.run hg hrun
  obtain ⟨after, hafter, hcommits, htorn⟩ := applyOpToPairInner_lands hg hbefore hcalls
  refine ⟨applyOpToPairInner_onErased hg hbefore hcalls, before, after, hbefore,
    hbefore.survives hg, hafter, hcommits, hafter.survives hg, fun n htrust => ?_⟩
  obtain ⟨q, hq, hcontents⟩ := htorn n htrust
  exact ⟨q, hq, hcontents, hq.survives hg, fun r' calls' => applyOpToPairInner_onErased hg hq⟩

end Runs

/-- A device of two blocks of eight windows. -/
def sampleGeometry : Geometry where
  readSize := 16
  progSize := 16
  blockSize := 128
  blockCount := 2

/-- A commit of one entry. -/
def sampleCommit : PairCommit where
  appended := [⟨.new .create 0 0, []⟩]
  compacted := [⟨.new .create 0 0, []⟩]
  dsize := 4
  clearTail := false
  appended_emitted := by
    intro e he
    rw [List.mem_singleton.1 he]
    exact emitted_new trivial nofun
  compacted_emitted := by
    intro e he
    rw [List.mem_singleton.1 he]
    exact emitted_new trivial nofun

/-- The image of a compaction. -/
def sampleImage : List Byte :=
  [1, 0, 0, 0, 191, 239, 255, 255, 31, 239, 252, 8, 16, 0, 0, 0, 229, 57, 76, 192, 15, 240, 0, 0,
    34, 249, 102, 164, 255, 255, 255, 255]

/-- A pair with one commit on its first half. -/
def sampleCells : Cells := (Cells.erase (fun _ _ => 0xFF) 0).program 0 0 sampleImage

/-- The calls of one more commit. -/
def sampleCalls : List Request :=
  [.program 0 32 [16, 31, 252, 8, 31, 239, 252, 8, 16, 0, 0, 0, 229, 57, 76, 192, 15, 240, 0, 4,
    99, 180, 91, 117, 255, 255, 255, 255, 255, 255, 255, 255]]

/-- An append that is cut off behind its second tag. -/
theorem commit_atomic_small : OnErased sampleCells sampleCalls ∧ ∃ before q : MetadataPair,
    OnPair sampleGeometry sampleCells ⟨0, 1⟩ before ∧
      OnPair sampleGeometry (sampleCells.after (tear 8 sampleCalls)) ⟨0, 1⟩ q := by
  have hg : sampleGeometry.Admitted := Geometry.admitted_iff.1 (by decide)
  have himage : (sampleCommit.buildCompactCommit sampleGeometry 1).map
      (fun c => c.programmed 0) = .ok sampleImage := by decide +kernel
  obtain ⟨commit, hbuild, hprogrammed⟩ := map_eq_ok.1 himage
  obtain ⟨rc, hcompacts⟩ := compacts_of_build hg hbuild
  have hwritten : Written sampleGeometry 0 ((Cells.erase (fun _ _ => 0xFF) 0).program 0 0
      (commit.programmed 0)) := hcompacts.written hbuild
  rw [hprogrammed] at hwritten
  have hfetch : (fetchPair sampleGeometry sampleCells ⟨0, 1⟩).map MetadataPair.activeBlock =
      .ok 0 := by decide +kernel
  obtain ⟨before, hbefore, hactive⟩ := map_eq_ok.1 hfetch
  have hpair : OnPair sampleGeometry sampleCells ⟨0, 1⟩ before :=
    ⟨by decide, hbefore, hactive ▸ hwritten⟩
  have hcalls : applyOpToPairInner sampleGeometry sampleCells ⟨0, 1⟩ sampleCommit =
      .ok sampleCalls := by decide +kernel
  obtain ⟨herased, before', after, hbefore', -, -, -, -, htorn⟩ :=
    commit_atomic hg hpair .start hcalls
  have hreader : (MetadataReader.new (blockAt sampleGeometry
      (sampleCells.after (tear 8 sampleCalls)) 0)).map
        (fun r => (r.committedEnd, r.erased)) = .ok (32, false) := by decide +kernel
  obtain ⟨reader, hnew, hcontent⟩ := map_eq_ok.1 hreader
  rw [Prod.mk.injEq] at hcontent
  have htrust : TrustedBehind sampleGeometry sampleCells (tear 8 sampleCalls) := by
    intro b off data hmem
    cases List.mem_singleton.1 hmem
    exact trusted_of_new hnew (by rw [hcontent.1]; decide) hcontent.2
  obtain ⟨q, hq, -⟩ := htorn 8 htrust
  exact ⟨herased, before', q, hbefore', hq⟩

end LittlefsPure.Codec
