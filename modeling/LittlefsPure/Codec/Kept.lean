import LittlefsPure.Codec.PairCommit

/-!
# The blocks that commits leave

A block that the commit engine has written holds a log, and behind it erased cells if the
forward CRC of the last commit says so: `Kept`.  A commit that is cut off leaves such a block
as it was for the reader, or is whole; and a compaction that is cut off leaves a block without
a commit, or is whole.  `Written.kept` is this over any number of commits.

## Why erased cells are remembered

An append programs cells, and a program only takes bits away.  So a block that is appended to has
to be erased behind its log, and the reader has to know whether it is.  `Kept` ties the two
together: where the reader finds a forward CRC that agrees, the cells are erased, whatever has
happened to the block since.
-/

namespace LittlefsPure.Codec

open Logic Nor

/-! ## The close of a commit -/

/-- A commit of some tags, closed by `finish_padded` with chunk zero. -/
structure RawCommit.Padded (c : RawCommit) (tags : List RawEntry) : Prop where
  body : ∃ x p, c.ccrc.body = toLe x ++ List.replicate p 0xFF
  base : c.ccrc.tag.perturb.isValid = true
  window : ∀ size expected, c.fcrc = some (size, expected) → 0 < size
  entries : ∃ close, c.entries = tags ++ close ∧ ∀ e ∈ close, e.tag.tagType = .forwardCrc

/-- Tags other than a forward CRC describe no window. -/
theorem foldl_fcrcWindow {es : List RawEntry} (h : ∀ e ∈ es, e.tag.tagType ≠ .forwardCrc)
    (pending : Option (ℕ × BitVec 32)) :
    es.foldl (fun pending e => fcrcWindow e.tag e.body pending) pending = pending := by
  induction es generalizing pending with
  | nil => rfl
  | cons e es ih =>
      have hplain : fcrcWindow e.tag e.body pending = pending :=
        if_neg fun hfcrc => h e (List.mem_cons_self ..) hfcrc.1
      rw [List.foldl_cons, hplain, ih fun e' he' => h e' (List.mem_cons_of_mem _ he')]

section Padded

variable {g : Geometry}

theorem progSize_le (hg : g.Admitted) : g.progSize ≤ g.blockSize := by
  have hfloor := hg.blockSize_floor
  exact Nat.le_of_dvd (Nat.lt_of_lt_of_le (by decide) hfloor)
    (Nat.dvd_of_mod_eq_zero hg.blockSize_grid)

theorem fcrcWindow_fcrcEntry (hg : g.Admitted) (pending : Option (ℕ × BitVec 32)) :
    fcrcWindow (Commit.fcrcEntry g.progSize).tag (Commit.fcrcEntry g.progSize).body pending =
      some (g.progSize, leWord ((Commit.fcrcEntry g.progSize).body.drop 4)) := by
  have hprog := progSize_le hg
  have hword := hg.blockSize_word
  have hbody : 8 ≤ (Commit.fcrcEntry g.progSize).tag.bodyLen := by
    show 8 ≤ (Tag.new .forwardCrc idNone 8).bodyLen
    decide
  rw [fcrcWindow, if_pos ⟨Tag.tagType_new trivial, hbody⟩, Commit.fcrcEntry,
    ofLe32_le32_append (by omega)]

theorem mem_fcrcOf {tags : List RawEntry} {off : ℕ} {e : RawEntry}
    (he : e ∈ Recipe.fcrcOf ⟨tags, .finishPadded 0 g.progSize g.blockSize⟩ off) :
    e = Commit.fcrcEntry g.progSize := by
  simp only [Recipe.fcrcOf, Commit.fcrcEntries] at he
  split_ifs at he
  · cases he
  · exact List.mem_singleton.1 he
  · cases he

theorem padded_commit (hg : g.Admitted) {tags : List RawEntry} (htags : ∀ e ∈ tags, e.Emitted)
    (off : ℕ) (ptag : Tag) (crc : BitVec 32) :
    (Recipe.commit ⟨tags, .finishPadded 0 g.progSize g.blockSize⟩ off ptag crc).Padded tags := by
  have hforward : (Commit.fcrcEntry g.progSize).tag.tagType = .forwardCrc := Tag.tagType_new trivial
  refine ⟨⟨_, _, rfl⟩, ?_, ?_, ⟨_, rfl, fun e he => by rw [mem_fcrcOf he]; exact hforward⟩⟩
  · show (Recipe.sealed _ 0 _ ptag crc).ccrc.tag.perturb.isValid = true
    rw [Recipe.sealed_ccrc_perturb (Nat.zero_le _)]
    show (Tag.mk ((Tag.new (.commitCrc 0) 0x3FF _).bits ^^^ 0#32)).isValid = true
    rw [BitVec.xor_zero]
    exact @Tag.isValid_new (.commitCrc 0) _ _ (Nat.lt_succ_of_le (Nat.zero_le 0x7f))
  · intro size expected hfcrc
    have hplain : ∀ e ∈ tags, e.tag.tagType ≠ .forwardCrc := fun e he => (htags e he).notForward
    rw [RawCommit.fcrc, Recipe.commit, Recipe.sealed, List.foldl_append,
      foldl_fcrcWindow hplain] at hfcrc
    simp only [Recipe.fcrcOf, Commit.fcrcEntries] at hfcrc
    split_ifs at hfcrc
    · cases hfcrc
    · rw [List.foldl_cons, List.foldl_nil, fcrcWindow_fcrcEntry hg] at hfcrc
      cases hfcrc
      exact hg.progSize_pos
    · cases hfcrc

end Padded

/-! ## The block of a written log -/

/-- A block of commits that verify, with nothing behind them that does, and only erased cells
there if the window of the last commit is as it says. -/
structure Kept (g : Geometry) (block : List Byte) (revision : BitVec 32) (cs : List RawCommit) :
    Prop where
  nonempty : cs ≠ []
  sound : SoundImage revision cs
  length : block.length = g.blockSize
  image : ∃ rest, block = logImage revision cs ++ rest ∧
    (windowMatches block (logEnd cs) (lastFcrc cs) = true →
      rest = List.replicate rest.length 0xFF)
  stop : ∀ fuel, Walk.SameEnd ((Walk.start block).commits cs)
    (walk block fuel ((Walk.start block).commits cs))
  base : (baseAfter .erased (logEntries cs)).isValid = true
  window : ∀ size expected, lastFcrc cs = some (size, expected) → 0 < size

/-- A block without a commit. -/
def NoCommits (block : List Byte) : Prop :=
  ∀ fuel, Walk.SameEnd (.start block) (walk block fuel (.start block))

section Kept

variable {g : Geometry} {block : List Byte} {revision : BitVec 32} {cs : List RawCommit}
  {c : RawCommit} {reader : MetadataReader}

theorem lastFcrc_snoc (cs : List RawCommit) (c : RawCommit) : lastFcrc (cs ++ [c]) = c.fcrc := by
  rw [lastFcrc, List.getLast?_append, List.getLast?_singleton]
  rfl

theorem logEnd_eq (h : cs ≠ []) : logEnd cs = (logImage revision cs).length := by
  rw [logEnd, if_neg h, length_logImage]

/-- The reader of a block. -/
theorem Kept.reads (h : Kept g block revision cs) (hread : MetadataReader.new block = .ok reader) :
    reader.Reads block revision cs := by
  obtain ⟨rest, himage, -⟩ := h.image
  obtain ⟨r, hnew, hreads⟩ := reads_of_stop h.sound himage h.stop
  rw [hread] at hnew
  cases hnew
  exact hreads

theorem Kept.committedEnd (h : Kept g block revision cs)
    (hread : MetadataReader.new block = .ok reader) :
    reader.committedEnd = (logImage revision cs).length :=
  (h.reads hread).committedEnd.trans (logEnd_eq h.nonempty)

theorem Kept.hasCommits (h : Kept g block revision cs)
    (hread : MetadataReader.new block = .ok reader) : reader.hasCommits = true := by
  have hend := (h.reads hread).committedEnd
  rw [logEnd, if_neg h.nonempty] at hend
  rw [MetadataReader.hasCommits, decide_eq_true_iff]
  omega

/-- A reader that says erased has erased cells behind its log. -/
theorem Kept.erased (h : Kept g block revision cs) (hread : MetadataReader.new block = .ok reader)
    (herased : reader.erased = true) :
    block = logImage revision cs ++
      List.replicate (g.blockSize - (logImage revision cs).length) 0xFF := by
  obtain ⟨rest, himage, hrest⟩ := h.image
  have hlen := congrArg List.length himage
  rw [h.length, List.length_append] at hlen
  rw [(h.reads hread).erased] at herased
  have hcells := hrest herased
  have hsize : rest.length = g.blockSize - (logImage revision cs).length := by omega
  rw [hsize] at hcells
  rw [himage, hcells]

/-- The block is to be trusted with what lies up to the end of its log. -/
theorem Kept.trusted (h : Kept g block revision cs) {present : ℕ}
    (hpresent : (logImage revision cs).length ≤ present) : Trusted block present := by
  obtain ⟨rest, himage, hrest⟩ := h.image
  rw [← logEnd_eq h.nonempty] at hpresent
  exact trusted_of_log h.sound himage h.stop hpresent hrest

theorem NoCommits.reads (h : NoCommits block) (hread : MetadataReader.new block = .ok reader) :
    reader.hasCommits = false ∧ reader.erased = false := by
  rw [MetadataReader.new] at hread
  split_ifs at hread
  cases hread
  have hend := (h block.length).committedEnd
  have hfcrc := (h block.length).lastFcrc
  constructor
  · rw [MetadataReader.hasCommits]
    show decide (0 < (walk block block.length (.start block)).committedEnd) = false
    rw [hend]
    rfl
  · show MetadataReader.windowErased block (walk block block.length (.start block)) = false
    rw [MetadataReader.windowErased, hfcrc]
    rfl

/-- A whole commit, with erased cells behind it. -/
theorem kept_of_whole {tags : List RawEntry} {k : ℕ} (hsound : SoundImage revision (cs ++ [c]))
    (hpadded : c.Padded tags) (hlen : block.length = g.blockSize)
    (h : block = logImage revision (cs ++ [c]) ++ List.replicate k 0xFF) :
    Kept g block revision (cs ++ [c]) where
  nonempty := List.append_ne_nil_of_right_ne_nil _ (List.cons_ne_nil _ _)
  sound := hsound
  length := hlen
  image := ⟨_, h, fun _ => by rw [List.length_replicate]⟩
  stop := stop_of_erased hsound h
  base := by
    rw [baseAfter_snoc]
    exact hpadded.base
  window := by
    rw [lastFcrc_snoc]
    exact hpadded.window

/-- The first byte of a tag behind a base with the valid bit clear is programmed. -/
theorem encode_head {base : Tag} {e : RawEntry} {es : List RawEntry} (hbase : base.isValid = true)
    (he : e.tag.isValid = true) : ∃ x rest, encode base (e :: es) = x :: rest ∧ x ≠ 0xFF := by
  have hbase := Tag.isValid_iff.1 hbase
  have he := Tag.isValid_iff.1 he
  have hxor : (e.tag.bits ^^^ base.bits).toNat < 2 ^ 31 := by
    rw [BitVec.toNat_xor]
    exact Nat.xor_lt_two_pow he hbase
  refine ⟨_, _, rfl, fun hff => ?_⟩
  have hnat := congrArg BitVec.toNat hff
  rw [BitVec.toNat_ofNat] at hnat
  have hmod : (0xFF : Byte).toNat = 0xFF := rfl
  omega

/-! ## What the builder hands over -/

variable {r : PairCommit} {commit : Commit}

/-- The cells that a builder has filled, behind an offset inside of its log. -/
theorem Commit.Logged.programmed {size off : ℕ} (h : commit.Logged size revision cs)
    (hoff : off ≤ (logImage revision cs).length) :
    commit.programmed off = (logImage revision cs).drop off := by
  have hbuf : commit.buf = logImage revision cs ++ List.replicate (size - commit.offset) 0xFF :=
    h.builds.buf
  have hwritten : commit.bytesWritten - off = ((logImage revision cs).drop off).length := by
    rw [Commit.bytesWritten, h.builds.offset, List.length_drop, length_logImage]
  rw [Commit.programmed, hbuf, List.drop_append_of_le_length hoff, hwritten]
  exact List.take_left' rfl

theorem Commit.Logged.fits {size : ℕ} (h : commit.Logged size revision cs) :
    (logImage revision cs).length ≤ size := by
  rw [length_logImage, ← h.builds.offset]
  exact h.builds.fits

/-- The tags of a commit make a recipe. -/
theorem valid_recipe {tags : List RawEntry} (htags : ∀ e ∈ tags, e.Emitted) :
    Recipe.Valid ⟨tags, .finishPadded 0 g.progSize g.blockSize⟩ :=
  ⟨fun e he => (htags e he).valid, Nat.zero_le _⟩

/-- A builder has written a log of one commit. -/
structure Commit.Compacts (commit : Commit) (g : Geometry) (revision : BitVec 32) (c : RawCommit)
    (tags : List RawEntry) : Prop where
  padded : c.Padded tags
  sound : SoundImage revision [c]
  image : commit.programmed 0 = logImage revision [c]
  fits : (logImage revision [c]).length ≤ g.blockSize

/-- A builder has written one more commit behind a log. -/
structure Commit.Appends (commit : Commit) (g : Geometry) (revision : BitVec 32)
    (cs : List RawCommit) (c : RawCommit) (tags : List RawEntry) : Prop where
  padded : c.Padded tags
  sound : SoundImage revision (cs ++ [c])
  image : commit.programmed (logImage revision cs).length =
    encode (baseAfter .erased (logEntries cs)) c.all
  fits : (logImage revision (cs ++ [c])).length ≤ g.blockSize

theorem compacts_of_build (hg : g.Admitted) (h : r.buildCompactCommit g revision = .ok commit) :
    ∃ c, commit.Compacts g revision c r.compacted := by
  obtain ⟨c₀, hnew, hwrite⟩ := bind_eq_ok.1 h
  have hlog : Commit.writeLog g.blockSize revision
      ⟨r.compacted, .finishPadded 0 g.progSize g.blockSize⟩ [] = .ok commit :=
    bind_eq_ok.2 ⟨c₀, hnew, bind_eq_ok.2 ⟨commit, hwrite, rfl⟩⟩
  have hlogged := Commit.writeLog_logged (valid_recipe r.compacted_emitted)
    (fun m hm => absurd hm List.not_mem_nil) hlog
  exact ⟨_, padded_commit hg r.compacted_emitted 4 .erased _, hlogged.sound,
    hlogged.programmed (Nat.zero_le _), hlogged.fits⟩

theorem appends_of_build (hg : g.Admitted) (hkept : Kept g block revision cs)
    (hread : MetadataReader.new block = .ok reader) (herased : reader.erased = true)
    (h : r.buildAppend g reader = .ok commit) :
    ∃ c, commit.Appends g revision cs c r.appended := by
  obtain ⟨c₀, hnew, hwrite⟩ := bind_eq_ok.1 h
  have hreads := hkept.reads hread
  have hcells := hkept.erased hread herased
  have hlogged : c₀.Logged g.blockSize revision cs := by
    rw [Commit.newAppending, hreads.image, hreads.nextPtag, hkept.committedEnd hread] at hnew
    split_ifs at hnew with hroom
    cases hnew
    rw [hkept.length] at hroom
    refine ⟨hkept.sound, hkept.nonempty, ⟨hcells, length_logImage .., ?_, rfl⟩, rfl⟩
    show (logImage revision cs).length ≤ g.blockSize
    omega
  have hmore := hlogged.write (valid_recipe r.appended_emitted) hwrite
  refine ⟨_, padded_commit hg r.appended_emitted _ _ _, hmore.sound, ?_, hmore.fits⟩
  rw [hmore.programmed (by rw [logImage_snoc, List.length_append]; omega), logImage_snoc]
  exact List.drop_left' rfl

/-! ## Cuts -/

/-- A compaction that is cut off leaves a block without a commit, or is whole. -/
theorem Commit.Compacts.cut {tags : List RawEntry} {n m : ℕ}
    (hcompacts : commit.Compacts g revision c tags) (hle : n ≤ (logImage revision [c]).length)
    (hlen : block.length = g.blockSize)
    (h : block = (logImage revision [c]).take n ++ List.replicate m 0xFF)
    (htrust : Trusted block n) : NoCommits block ∨ Kept g block revision [c] := by
  have hfits := hcompacts.fits
  by_cases hword : 4 ≤ n
  · obtain ⟨x, p, hbody⟩ := hcompacts.padded.body
    have hroom : (logImage revision [c]).length ≤ n + m := by
      rw [h, List.length_append, List.length_take, Nat.min_eq_left hle,
        List.length_replicate] at hlen
      omega
    rcases @cut_or_whole block revision [] c hcompacts.sound x p n m hbody hword hle hroom h htrust
      with ⟨k, hwhole⟩ | hstop
    · exact .inr (@kept_of_whole g block revision [] c tags k hcompacts.sound hcompacts.padded
        hlen hwhole)
    · exact .inl hstop
  · -- no check passes in front of the first tag
    refine .inl (walk_stops fun fuel k tag hverifies => ?_)
    have hpresent := htrust.checks fuel k tag hverifies
    have hpos : 4 ≤ k := by
      rw [(nextTag_eq_some hverifies.next).1, ← start_pos]
      exact pos_le_walk fuel _
    omega

/-- A window that is programmed is not erased. -/
theorem windowMatches_programmed {k : ℕ} {x : Byte} {rest : List Byte} (hx : x ≠ 0xFF)
    (hsound : SoundImage revision cs) (hne : cs ≠ [])
    (hwindow : ∀ size expected, lastFcrc cs = some (size, expected) → 0 < size)
    (h : block = logImage revision cs ++ x :: rest)
    (hstop : ∀ fuel, Walk.SameEnd ((Walk.start block).commits cs)
      (walk block fuel ((Walk.start block).commits cs)))
    (htrust : Trusted block k) : windowMatches block (logEnd cs) (lastFcrc cs) = false := by
  refine Bool.eq_false_iff.2 fun hmatch => ?_
  obtain ⟨hend, -, hlast⟩ := walk_of_stop hsound h hstop
  cases hfcrc : lastFcrc cs with
  | none =>
      rw [hfcrc] at hmatch
      cases hmatch
  | some window =>
      obtain ⟨size, expected⟩ := window
      have herased := htrust.window size expected (hlast.trans hfcrc)
      rw [MetadataReader.windowErased, hlast, hend, hfcrc] at herased
      rw [hfcrc] at hmatch
      have hcells := herased hmatch
      have hdrop : block.drop (logEnd cs) = x :: rest := by
        rw [logEnd_eq hne, h]
        exact List.drop_left' rfl
      obtain ⟨j, rfl⟩ := Nat.exists_eq_succ_of_ne_zero (Nat.ne_of_gt (hwindow _ _ hfcrc))
      rw [hdrop, List.take_succ_cons, List.replicate_succ] at hcells
      exact hx (List.cons.inj hcells).1

/-- An append that is cut off leaves the log as it was, or is whole. -/
theorem Commit.Appends.cut {tags : List RawEntry} {block' : List Byte} {n m : ℕ}
    (happends : commit.Appends g revision cs c tags) (hkept : Kept g block revision cs)
    (hcells : block = logImage revision cs ++
      List.replicate (g.blockSize - (logImage revision cs).length) 0xFF)
    (hle : n ≤ (encode (baseAfter .erased (logEntries cs)) c.all).length)
    (hlen : block'.length = g.blockSize)
    (h : block' = logImage revision cs ++
      (encode (baseAfter .erased (logEntries cs)) c.all).take n ++ List.replicate m 0xFF)
    (htrust : Trusted block' ((logImage revision cs).length + n)) :
    Kept g block' revision cs ∨ Kept g block' revision (cs ++ [c]) := by
  have hfits := happends.fits
  have hsize : (logImage revision cs).length + n + m = g.blockSize := by
    rw [h, List.length_append, List.length_append, List.length_take, Nat.min_eq_left hle,
      List.length_replicate] at hlen
    exact hlen
  cases n with
  | zero =>
      have hm : m = g.blockSize - (logImage revision cs).length := by omega
      rw [List.take_zero, List.append_nil, hm, ← hcells] at h
      rw [h]
      exact .inl hkept
  | succ n =>
      obtain ⟨x, p, hbody⟩ := happends.padded.body
      have htake : block' = (logImage revision (cs ++ [c])).take
          ((logImage revision cs).length + (n + 1)) ++ List.replicate m 0xFF := by
        rw [logImage_snoc, List.take_length_add_append]
        exact h
      have hlong : (logImage revision cs).length + (n + 1) ≤
          (logImage revision (cs ++ [c])).length := by
        rw [logImage_snoc, List.length_append]
        omega
      rcases cut_or_whole happends.sound hbody (Nat.le_add_right _ _) hlong (by omega) htake htrust
        with ⟨k, hwhole⟩ | hstop
      · exact .inr (kept_of_whole happends.sound happends.padded hlen hwhole)
      · -- the first tag has programmed the first cell of the window
        rw [List.append_assoc] at h
        have hsized := ((soundImage_snoc h).1 happends.sound).2.all_sized
        cases hall : c.all with
        | nil => cases (List.append_eq_nil_iff.1 hall).2
        | cons e es =>
            have he : e ∈ c.all := by
              rw [hall]
              exact List.mem_cons_self ..
            obtain ⟨y, rest, hhead, hy⟩ := @encode_head _ e es hkept.base (hsized e he).valid
            rw [hall, hhead, List.take_succ_cons, List.cons_append] at h
            have hdirty := windowMatches_programmed hy hkept.sound hkept.nonempty hkept.window h
              hstop htrust
            exact .inl ⟨hkept.nonempty, hkept.sound, hlen,
              ⟨_, h, fun hmatch => by rw [hdirty] at hmatch; cases hmatch⟩, hstop, hkept.base,
              hkept.window⟩

end Kept

/-! ## Written blocks -/

section Written

variable {g : Geometry} {c : Cells} {b : ℕ} {revision : BitVec 32} {cs : List RawCommit}
  {rc : RawCommit} {r : PairCommit} {reader : MetadataReader} {commit : Commit}

/-- Bytes that are cut off end inside of them. -/
theorem take_inside (data : List Byte) (n : ℕ) : ∃ j, j ≤ data.length ∧ data.take n = data.take j :=
  ⟨min n data.length, Nat.min_le_right _ _, List.take_eq_take_min⟩

/-- The block behind a compaction that is cut off. -/
theorem Commit.Compacts.torn {tags : List RawEntry} (h : commit.Compacts g revision rc tags)
    (n : ℕ) (htrust : Trusted (blockAt g ((c.erase b).program b 0 ((commit.programmed 0).take n)) b)
      ((commit.programmed 0).take n).length) :
    NoCommits (blockAt g ((c.erase b).program b 0 ((commit.programmed 0).take n)) b) ∨
      Kept g (blockAt g ((c.erase b).program b 0 ((commit.programmed 0).take n)) b) revision
        [rc] := by
  have hfits := h.fits
  rw [h.image] at htrust ⊢
  obtain ⟨j, hj, htake⟩ := take_inside (logImage revision [rc]) n
  rw [htake] at htrust ⊢
  have hcells := @blockAt_program g (c.erase b) b [] ((logImage revision [rc]).take j) _
    blockAt_erase (by rw [List.length_take_of_le hj]; omega)
  rw [List.length_take_of_le hj] at htrust
  rw [List.nil_append] at hcells
  exact h.cut hj (length_blockAt ..) hcells htrust

theorem Commit.Compacts.whole {tags : List RawEntry} (h : commit.Compacts g revision rc tags) :
    Kept g (blockAt g ((c.erase b).program b 0 (commit.programmed 0)) b) revision [rc] := by
  rw [h.image]
  exact @kept_of_whole _ _ _ [] _ _ _ h.sound h.padded (length_blockAt ..)
    (@blockAt_program g (c.erase b) b [] _ _ blockAt_erase h.fits)

/-- The block behind an append that is cut off. -/
theorem Commit.Appends.torn {tags : List RawEntry} (h : commit.Appends g revision cs rc tags)
    (hkept : Kept g (blockAt g c b) revision cs)
    (hread : MetadataReader.new (blockAt g c b) = .ok reader) (herased : reader.erased = true)
    (n : ℕ) (htrust : Trusted
      (blockAt g (c.program b reader.committedEnd
        ((commit.programmed reader.committedEnd).take n)) b)
      (reader.committedEnd + ((commit.programmed reader.committedEnd).take n).length)) :
    Kept g (blockAt g (c.program b reader.committedEnd
        ((commit.programmed reader.committedEnd).take n)) b) revision cs ∨
      Kept g (blockAt g (c.program b reader.committedEnd
        ((commit.programmed reader.committedEnd).take n)) b) revision (cs ++ [rc]) := by
  have hcells := hkept.erased hread herased
  have hfits := h.fits
  rw [logImage_snoc, List.length_append] at hfits
  rw [hkept.committedEnd hread, h.image] at htrust ⊢
  obtain ⟨j, hj, htake⟩ := take_inside (encode (baseAfter .erased (logEntries cs)) rc.all) n
  rw [htake] at htrust ⊢
  rw [List.length_take_of_le hj] at htrust
  refine h.cut hkept hcells hj (length_blockAt ..) (blockAt_program hcells ?_) htrust
  rw [List.length_take_of_le hj]
  omega

theorem Commit.Appends.whole {tags : List RawEntry} (h : commit.Appends g revision cs rc tags)
    (hkept : Kept g (blockAt g c b) revision cs)
    (hread : MetadataReader.new (blockAt g c b) = .ok reader) (herased : reader.erased = true) :
    Kept g (blockAt g (c.program b reader.committedEnd
      (commit.programmed reader.committedEnd)) b) revision (cs ++ [rc]) := by
  have hcells := hkept.erased hread herased
  have hfits := h.fits
  rw [logImage_snoc, List.length_append] at hfits
  rw [hkept.committedEnd hread, h.image]
  have hwhole := blockAt_program hcells
    (show (encode (baseAfter .erased (logEntries cs)) rc.all).length ≤ _ by omega)
  rw [← logImage_snoc] at hwhole
  exact kept_of_whole h.sound h.padded (length_blockAt ..) hwhole

theorem erased_of_canAppend (h : r.canAppend g reader = true) : reader.erased = true := by
  simp only [PairCommit.canAppend, Bool.and_eq_true] at h
  exact h.1.1.1

/-- A whole compaction needs no trust. -/
theorem Commit.Compacts.written (h : commit.Compacts g revision rc r.compacted)
    (hbuild : r.buildCompactCommit g revision = .ok commit) :
    Written g b ((c.erase b).program b 0 (commit.programmed 0)) := by
  have hwhole : Kept g (blockAt g ((c.erase b).program b 0 (commit.programmed 0)) b) revision
    [rc] := h.whole
  have hwritten := @Written.compacted g b c r revision commit (commit.programmed 0).length hbuild
  rw [List.take_length] at hwritten
  refine hwritten (hwhole.trusted ?_)
  rw [h.image]

/-- A whole append needs no trust. -/
theorem Commit.Appends.written (h : commit.Appends g revision cs rc r.appended)
    (hkept : Kept g (blockAt g c b) revision cs) (hwritten : Written g b c)
    (hread : MetadataReader.new (blockAt g c b) = .ok reader) (hcan : r.canAppend g reader = true)
    (hbuild : r.buildAppend g reader = .ok commit) :
    Written g b (c.program b reader.committedEnd (commit.programmed reader.committedEnd)) := by
  have hmore := Written.appended (commit.programmed reader.committedEnd).length hwritten hread hcan
    hbuild
  rw [List.take_length] at hmore
  refine hmore ((h.whole hkept hread (erased_of_canAppend hcan)).trusted ?_)
  rw [hkept.committedEnd hread, h.image, logImage_snoc, List.length_append]

theorem NoCommits.not_canAppend (h : NoCommits (blockAt g c b))
    (hread : MetadataReader.new (blockAt g c b) = .ok reader) : r.canAppend g reader = false := by
  rw [PairCommit.canAppend, (h.reads hread).2]
  rfl

/-- A written block has no commit, or it is a log with what stands behind it known. -/
theorem Written.kept (hg : g.Admitted) (h : Written g b c) :
    NoCommits (blockAt g c b) ∨ ∃ revision cs, Kept g (blockAt g c b) revision cs := by
  induction h with
  | compacted n hbuild htrust =>
      obtain ⟨rc, hcompacts⟩ := compacts_of_build hg hbuild
      rcases hcompacts.torn n htrust with hnone | hkept
      · exact .inl hnone
      · exact .inr ⟨_, _, hkept⟩
  | appended n h hread hcan hbuild htrust ih =>
      rcases ih with hnone | ⟨revision, cs, hkept⟩
      · rw [hnone.not_canAppend hread] at hcan
        cases hcan
      · have herased := erased_of_canAppend hcan
        obtain ⟨rc, happends⟩ := appends_of_build hg hkept hread herased hbuild
        rcases happends.torn hkept hread herased n htrust with hkept' | hkept'
        · exact .inr ⟨_, _, hkept'⟩
        · exact .inr ⟨_, _, hkept'⟩
  | elsewhere h hsame ih =>
      rw [blockAt_congr hsame]
      exact ih

end Written

end LittlefsPure.Codec
