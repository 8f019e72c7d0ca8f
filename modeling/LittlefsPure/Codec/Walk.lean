import LittlefsPure.Codec.Reader

/-!
# Reading what was encoded

The three tag loops on a block that holds the image of a run of entries.  Each turn of a
loop meets the next entry, so each loop is an induction on the entries: `nextTag_encode`
is the step they share.  The loop of the reader is taken commit by commit, through
`Walk.commit`, and `walk_log` is its run over a whole log.

## Why the loops share a step

The source has three loops over tags, for the constructor and for the two iterators, and each
decodes the next tag in the same way.  What they do with it differs.  With the decoding as one
lemma the three inductions are short, and none of them mentions the exclusive or.
-/

namespace LittlefsPure.Codec

/-- An entry as it may stand in a log: valid, with a body of its tag's length. -/
structure RawEntry.Sized (e : RawEntry) : Prop where
  valid : e.tag.isValid = true
  body : e.body.length = e.tag.bodyLen

theorem RawEntry.Plain.sized {e : RawEntry} (h : e.Plain) : e.Sized := ⟨h.valid, h.body⟩

theorem RawEntry.Sized.size {e : RawEntry} (h : e.Sized) : e.size = e.tag.dsize := by
  rw [RawEntry.size, h.body, Tag.dsize]

section NextTag

variable {block rest : List Byte} {limit off : ℕ} {ptag : Tag} {e : RawEntry} {es : List RawEntry}

/-- The bytes of the first entry end inside the block. -/
theorem size_le_of_drop (h : block.drop off = encode ptag (e :: es) ++ rest) :
    off + e.size ≤ block.length := by
  have hlen := congrArg List.length h
  simp only [List.length_drop, List.length_append, length_encode, runSize_cons] at hlen
  have hpos : 0 < e.size := by
    rw [RawEntry.size]
    omega
  omega

theorem drop_word (h : block.drop off = encode ptag (e :: es) ++ rest) :
    (block.drop off).take 4 = toBe (e.tag.bits ^^^ ptag.bits) := by
  rw [h, encode, List.append_assoc, List.append_assoc]
  exact List.take_left' rfl

theorem drop_body (h : block.drop off = encode ptag (e :: es) ++ rest) :
    block.drop (off + 4) = e.body ++ (encode e.tag.perturb es ++ rest) := by
  rw [← List.drop_drop, h, encode, List.append_assoc, List.append_assoc]
  exact List.drop_left' rfl

/-- Behind the first entry come the others. -/
theorem drop_entry (h : block.drop off = encode ptag (e :: es) ++ rest) :
    block.drop (off + e.size) = encode e.tag.perturb es ++ rest := by
  have hsplit : off + e.size = off + 4 + e.body.length := by
    rw [RawEntry.size, Nat.add_assoc]
  rw [hsplit, ← List.drop_drop, drop_body h]
  exact List.drop_left' rfl

theorem bodyAt_encode (he : e.Sized) (h : block.drop off = encode ptag (e :: es) ++ rest) :
    bodyAt block off e.tag = e.body := by
  rw [bodyAt, drop_body h]
  exact List.take_left' he.body

/-- The next tag of an encoded run is its first. -/
theorem nextTag_encode (he : e.Sized)
    (h : block.drop (off + ptag.dsize) = encode ptag (e :: es) ++ rest)
    (hlimit : off + ptag.dsize + e.size ≤ limit) :
    nextTag block limit off ptag = some (off + ptag.dsize, e.tag) := by
  have hword : beWord (block.drop (off + ptag.dsize)) = e.tag.bits ^^^ ptag.bits := by
    rw [h, encode, List.append_assoc, List.append_assoc]
    exact beWord_toBe_append _ _
  have hdecode : (Tag.mk (beWord (block.drop (off + ptag.dsize)) ^^^ ptag.bits)) = e.tag := by
    rw [hword, BitVec.xor_assoc, BitVec.xor_self, BitVec.xor_zero]
  have hroom : ¬ limit < off + ptag.dsize + 4 := by
    rw [RawEntry.size] at hlimit
    omega
  rw [he.size] at hlimit
  simp only [nextTag, hdecode, he.valid, if_true, if_neg hroom, if_neg (Nat.not_lt_of_le hlimit)]

/-- The tag behind the first entry stands where the others start. -/
theorem drop_next (he : e.Sized)
    (h : block.drop (off + ptag.dsize) = encode ptag (e :: es) ++ rest) :
    block.drop (off + ptag.dsize + e.tag.perturb.dsize) = encode e.tag.perturb es ++ rest := by
  rw [Tag.dsize_perturb he.valid, ← he.size]
  exact drop_entry h

theorem end_next (he : e.Sized) :
    off + ptag.dsize + runSize (e :: es) =
      off + ptag.dsize + e.tag.perturb.dsize + runSize es := by
  rw [Tag.dsize_perturb he.valid, ← he.size, runSize_cons]
  omega

theorem length_cons_add (fuel : ℕ) : (e :: es).length + fuel = es.length + fuel + 1 := by
  rw [List.length_cons, Nat.add_right_comm]

/-- There is no next tag at the limit. -/
theorem nextTag_end (h : limit < off + ptag.dsize + 4) : nextTag block limit off ptag = none := by
  simp only [nextTag, if_pos h]

end NextTag

/-! ## The tails and the tags of a log -/

section Loops

variable {block rest : List Byte}

/-- A tail tag of eight bytes: the pair it names, and whether it is a hard tail. -/
def RawEntry.asTail (e : RawEntry) : Option (BlockPair × Bool) :=
  if e.tag.tagType.isTail ∧ e.tag.bodyLen = 8 then
    some (⟨ofLe32 e.body, ofLe32 (e.body.drop 4)⟩, decide (e.tag.tagType = .hardTail))
  else none

/-- The last tail tag of a run. -/
def lastTail (es : List RawEntry) : Option (BlockPair × Bool) :=
  (es.filterMap RawEntry.asTail).getLast?

theorem lastTail_cons (e : RawEntry) (es : List RawEntry) :
    lastTail (e :: es) = (lastTail es).or e.asTail := by
  rw [lastTail, List.filterMap_cons]
  cases e.asTail with
  | none => rw [Option.or_none, lastTail]
  | some t =>
      show (t :: es.filterMap RawEntry.asTail).getLast? = _
      rw [List.getLast?_cons, lastTail]
      cases (es.filterMap RawEntry.asTail).getLast? <;> rfl

theorem ofLe32_append {bytes : List Byte} (h : 4 ≤ bytes.length) (rest : List Byte) :
    ofLe32 (bytes ++ rest) = ofLe32 bytes := by
  simp only [ofLe32, List.getD_eq_getElem?_getD]
  rw [List.getElem?_append_left (by omega), List.getElem?_append_left (by omega),
    List.getElem?_append_left (by omega), List.getElem?_append_left (by omega)]

/-- A tail tag reads from the block as from its entry. -/
theorem tail_encode {off : ℕ} {ptag : Tag} {e : RawEntry} {es : List RawEntry} (he : e.Sized)
    (h : block.drop off = encode ptag (e :: es) ++ rest) (hlen : e.tag.bodyLen = 8) :
    (⟨ofLe32 (block.drop (off + 4)), ofLe32 (block.drop (off + 8))⟩ : BlockPair) =
      ⟨ofLe32 e.body, ofLe32 (e.body.drop 4)⟩ := by
  have hbody : e.body.length = 8 := he.body.trans hlen
  have hdrop := drop_body h
  have hdrop' : block.drop (off + 8) = e.body.drop 4 ++ (encode e.tag.perturb es ++ rest) := by
    rw [show off + 8 = off + 4 + 4 from rfl, ← List.drop_drop, hdrop,
      List.drop_append_of_le_length (by omega)]
  rw [hdrop, hdrop', ofLe32_append (by omega), ofLe32_append (by rw [List.length_drop]; omega)]

theorem latestTail_encode {es : List RawEntry} (hes : ∀ e ∈ es, e.Sized) (fuel : ℕ) {off : ℕ}
    {ptag : Tag} (latest : Option (BlockPair × Bool))
    (h : block.drop (off + ptag.dsize) = encode ptag es ++ rest) :
    latestTail block (off + ptag.dsize + runSize es) (es.length + fuel) off ptag latest =
      (lastTail es).or latest := by
  induction es generalizing off ptag latest with
  | nil =>
      have hend : nextTag block (off + ptag.dsize + runSize []) off ptag = none :=
        nextTag_end (by rw [runSize_nil]; omega)
      cases hfuel : ([] : List RawEntry).length + fuel with
      | zero => rfl
      | succ n =>
          rw [latestTail, hend]
          rfl
  | cons e es ih =>
      have he := hes e (List.mem_cons_self ..)
      have hnext : nextTag block (off + ptag.dsize + runSize (e :: es)) off ptag =
          some (off + ptag.dsize, e.tag) :=
        nextTag_encode he h (by rw [runSize_cons]; omega)
      rw [length_cons_add, latestTail, hnext]
      show latestTail block _ (es.length + fuel) (off + ptag.dsize) e.tag.perturb _ = _
      rw [end_next he, ih (fun e' he' => hes e' (List.mem_cons_of_mem _ he')) _ (drop_next he h),
        lastTail_cons, Option.or_assoc, RawEntry.asTail]
      by_cases htail : e.tag.tagType.isTail = true ∧ e.tag.bodyLen = 8
      · rw [if_pos htail, if_pos htail, tail_encode he h htail.2]
        rfl
      · rw [if_neg htail, if_neg htail]
        rfl

theorem collect_encode {es : List RawEntry} (hes : ∀ e ∈ es, e.Sized) (fuel : ℕ) {off : ℕ}
    {ptag : Tag} (h : block.drop (off + ptag.dsize) = encode ptag es ++ rest) :
    TagIter.collect (es.length + fuel) ⟨block, off, off + ptag.dsize + runSize es, ptag⟩ = es := by
  induction es generalizing off ptag with
  | nil =>
      have hend : nextTag block (off + ptag.dsize + runSize []) off ptag = none :=
        nextTag_end (by rw [runSize_nil]; omega)
      cases hfuel : ([] : List RawEntry).length + fuel with
      | zero => rfl
      | succ n =>
          rw [TagIter.collect, TagIter.next, hend]
          rfl
  | cons e es ih =>
      have he := hes e (List.mem_cons_self ..)
      have hnext : nextTag block (off + ptag.dsize + runSize (e :: es)) off ptag =
          some (off + ptag.dsize, e.tag) :=
        nextTag_encode he h (by rw [runSize_cons]; omega)
      rw [length_cons_add, TagIter.collect, TagIter.next, hnext]
      simp only [Option.map_some, bodyAt_encode he h]
      rw [end_next he, ih (fun e' he' => hes e' (List.mem_cons_of_mem _ he')) (drop_next he h)]

end Loops

/-! ## Commits -/

/-- A commit as it lies on the flash: its entries, and the commit CRC that closes it. -/
structure RawCommit where
  entries : List RawEntry
  ccrc : RawEntry
  deriving DecidableEq

namespace RawCommit

/-- The entries of a commit with its commit CRC. -/
def all (c : RawCommit) : List RawEntry := c.entries ++ [c.ccrc]

/-- The bytes the checksum of a commit covers. -/
def covered (c : RawCommit) (ptag : Tag) : List Byte :=
  encode ptag c.entries ++ toBe (c.ccrc.tag.bits ^^^ (baseAfter ptag c.entries).bits)

/-- A commit that verifies behind a base and a checksum. -/
structure Sound (c : RawCommit) (ptag : Tag) (crc : BitVec 32) : Prop where
  plain : ∀ e ∈ c.entries, e.Plain
  sized : c.ccrc.Sized
  isCcrc : c.ccrc.tag.isCcrc = true
  room : 4 ≤ c.ccrc.tag.bodyLen
  checks : leWord c.ccrc.body = Crc.update crc (c.covered ptag)

/-- The window the entries of a commit describe. -/
def fcrc (c : RawCommit) : Option (ℕ × BitVec 32) :=
  c.entries.foldl (fun pending e => fcrcWindow e.tag e.body pending) none

theorem Sound.all_sized {c : RawCommit} {ptag : Tag} {crc : BitVec 32} (h : c.Sound ptag crc) :
    ∀ e ∈ c.all, e.Sized := by
  intro e he
  rcases List.mem_append.1 he with he | he
  · exact (h.plain e he).sized
  · rw [List.mem_singleton.1 he]
    exact h.sized

end RawCommit

/-- The entries of a run of commits. -/
def logEntries (cs : List RawCommit) : List RawEntry := cs.flatMap RawCommit.all

@[simp] theorem logEntries_nil : logEntries [] = [] := rfl

@[simp] theorem logEntries_cons (c : RawCommit) (cs : List RawCommit) :
    logEntries (c :: cs) = c.all ++ logEntries cs := rfl

@[simp] theorem logEntries_append (cs ds : List RawCommit) :
    logEntries (cs ++ ds) = logEntries cs ++ logEntries ds := List.flatMap_append ..

/-- A run of commits that verify one behind the other. -/
def SoundLog (ptag : Tag) (crc : BitVec 32) : List RawCommit → Prop
  | [] => True
  | c :: cs => c.Sound ptag crc ∧ SoundLog (baseAfter ptag c.all) Crc.init cs

theorem SoundLog.sized {ptag : Tag} {crc : BitVec 32} {cs : List RawCommit}
    (h : SoundLog ptag crc cs) : ∀ e ∈ logEntries cs, e.Sized := by
  induction cs generalizing ptag crc with
  | nil => exact fun e he => absurd he List.not_mem_nil
  | cons c cs ih =>
      intro e he
      rcases List.mem_append.1 he with he | he
      · exact h.1.all_sized e he
      · exact ih h.2 e he

theorem soundLog_append {ptag : Tag} {crc : BitVec 32} {cs ds : List RawCommit} (hne : cs ≠ []) :
    SoundLog ptag crc (cs ++ ds) ↔
      SoundLog ptag crc cs ∧ SoundLog (baseAfter ptag (logEntries cs)) Crc.init ds := by
  induction cs generalizing ptag crc with
  | nil => exact absurd rfl hne
  | cons c cs ih =>
      cases cs with
      | nil =>
          rw [logEntries_cons, logEntries_nil, List.append_nil]
          exact ⟨fun h => ⟨⟨h.1, trivial⟩, h.2⟩, fun h => ⟨h.1.1, h.2⟩⟩
      | cons d cs =>
          have hrest : SoundLog (baseAfter ptag c.all) Crc.init (d :: cs ++ ds) ↔ _ :=
            ih (List.cons_ne_nil _ _)
          rw [logEntries_cons, baseAfter_append]
          exact ⟨fun h => ⟨⟨h.1, (hrest.1 h.2).1⟩, (hrest.1 h.2).2⟩,
            fun h => ⟨h.1.1, hrest.2 ⟨h.1.2, h.2⟩⟩⟩

/-! ## The loop of the reader -/

namespace Walk

/-- Where the next tag stands. -/
def pos (w : Walk) : ℕ := w.off + w.ptag.dsize

/-- The loop over a run of plain entries. -/
def run (w : Walk) : List RawEntry → Walk
  | [] => w
  | e :: es =>
      (w.pass w.pos e.tag (Crc.update w.runningCrc (toBe (e.tag.bits ^^^ w.ptag.bits)))
        e.body).run es

/-- The loop over a commit. -/
def commit (w : Walk) (c : RawCommit) : Walk :=
  (w.run c.entries).verify (w.run c.entries).pos c.ccrc.tag

/-- The next tag of the loop is a commit CRC at an offset, and its check passes. -/
structure Verifies (block : List Byte) (w : Walk) (k : ℕ) (tag : Tag) : Prop where
  next : nextTag block block.length w.off w.ptag = some (k, tag)
  isCcrc : tag.isCcrc = true
  room : 4 ≤ tag.bodyLen
  checks : Crc.update w.runningCrc ((block.drop k).take 4) = leWord (block.drop (k + 4))

/-- What the loop has verified. -/
structure SameEnd (w w' : Walk) : Prop where
  committedEnd : w'.committedEnd = w.committedEnd
  nextPtag : w'.nextPtag = w.nextPtag
  lastFcrc : w'.lastFcrc = w.lastFcrc

theorem SameEnd.refl {w : Walk} : SameEnd w w := ⟨rfl, rfl, rfl⟩

theorem SameEnd.trans {w w' w'' : Walk} (h : SameEnd w w') (h' : SameEnd w' w'') :
    SameEnd w w'' :=
  ⟨h'.1.trans h.1, h'.2.trans h.2, h'.3.trans h.3⟩

theorem SameEnd.pass {w : Walk} {off : ℕ} {tag : Tag} {crc : BitVec 32} {body : List Byte} :
    SameEnd w (w.pass off tag crc body) := ⟨rfl, rfl, rfl⟩

section Run

variable {w : Walk} {es : List RawEntry}

theorem run_ptag (hes : ∀ e ∈ es, e.Plain) : (w.run es).ptag = baseAfter w.ptag es := by
  induction es generalizing w with
  | nil => rfl
  | cons e es ih =>
      have he := hes e (List.mem_cons_self ..)
      rw [run, ih fun e' he' => hes e' (List.mem_cons_of_mem _ he'), baseAfter,
        Tag.perturb_plain he.notCcrc]
      rfl

theorem run_pos (hes : ∀ e ∈ es, e.Plain) : (w.run es).pos = w.pos + runSize es := by
  induction es generalizing w with
  | nil => rfl
  | cons e es ih =>
      have he := hes e (List.mem_cons_self ..)
      rw [run, ih fun e' he' => hes e' (List.mem_cons_of_mem _ he'), runSize_cons, he.size,
        ← Nat.add_assoc]
      rfl

theorem run_crc (hes : ∀ e ∈ es, e.Plain) :
    (w.run es).runningCrc = Crc.update w.runningCrc (encode w.ptag es) := by
  induction es generalizing w with
  | nil => rfl
  | cons e es ih =>
      have he := hes e (List.mem_cons_self ..)
      rw [run, ih fun e' he' => hes e' (List.mem_cons_of_mem _ he'), encode, Crc.update_append,
        Crc.update_append, Tag.perturb_plain he.notCcrc]
      rfl

theorem run_fcrc : (w.run es).pendingFcrc =
    es.foldl (fun pending e => fcrcWindow e.tag e.body pending) w.pendingFcrc := by
  induction es generalizing w with
  | nil => rfl
  | cons e es ih =>
      rw [run, ih]
      rfl

end Run

end Walk

section Log

variable {block rest : List Byte} {w : Walk}

/-- Plain entries are passed one by one. -/
theorem walk_run {es : List RawEntry} (hes : ∀ e ∈ es, e.Plain)
    (h : block.drop w.pos = encode w.ptag es ++ rest) (fuel : ℕ) :
    walk block (es.length + fuel) w = walk block fuel (w.run es) := by
  induction es generalizing w with
  | nil => rw [List.length_nil, Nat.zero_add, Walk.run]
  | cons e es ih =>
      have he := hes e (List.mem_cons_self ..)
      have hnext : nextTag block block.length w.off w.ptag = some (w.pos, e.tag) :=
        nextTag_encode he.sized h (size_le_of_drop h)
      have hrest := drop_next he.sized h
      rw [Tag.perturb_plain he.notCcrc] at hrest
      rw [length_cons_add, walk, hnext]
      simp only [he.notCcrc, Bool.false_eq_true, if_false, drop_word h,
        bodyAt_encode he.sized h]
      exact ih (fun e' he' => hes e' (List.mem_cons_of_mem _ he')) hrest

/-- The check of a sound commit passes. -/
theorem RawCommit.Sound.verifies {c : RawCommit} (hc : c.Sound w.ptag w.runningCrc)
    (h : block.drop w.pos = encode w.ptag c.all ++ rest) :
    (w.run c.entries).Verifies block (w.run c.entries).pos c.ccrc.tag := by
  have hccrc : block.drop (w.run c.entries).pos =
      encode (w.run c.entries).ptag [c.ccrc] ++ rest := by
    rw [Walk.run_pos hc.plain, Walk.run_ptag hc.plain, ← List.drop_drop, h, RawCommit.all,
      encode_append, List.append_assoc]
    exact List.drop_left' (length_encode _ _)
  have hword : leWord (block.drop ((w.run c.entries).pos + 4)) = leWord c.ccrc.body := by
    have hroom : 4 ≤ c.ccrc.body.length := by
      rw [hc.sized.body]
      exact hc.room
    rw [drop_body hccrc, leWord, leWord, ofLe32_append hroom]
  refine ⟨nextTag_encode hc.sized hccrc (size_le_of_drop hccrc), hc.isCcrc, hc.room, ?_⟩
  rw [hword, hc.checks, drop_word hccrc, Walk.run_crc hc.plain, Walk.run_ptag hc.plain,
    RawCommit.covered, Crc.update_append]

/-- A sound commit is verified. -/
theorem walk_commit {c : RawCommit} (hc : c.Sound w.ptag w.runningCrc)
    (h : block.drop w.pos = encode w.ptag c.all ++ rest) (fuel : ℕ) :
    walk block (c.all.length + fuel) w = walk block fuel (w.commit c) := by
  have hlen : c.all.length + fuel = c.entries.length + (fuel + 1) := by
    rw [RawCommit.all, List.length_append, List.length_singleton, Nat.add_assoc, Nat.add_comm 1]
  have hsplit : block.drop w.pos =
      encode w.ptag c.entries ++ (encode (baseAfter w.ptag c.entries) [c.ccrc] ++ rest) := by
    rw [h, RawCommit.all, encode_append, List.append_assoc]
  have hverifies := hc.verifies h
  rw [hlen, walk_run hc.plain hsplit, walk, hverifies.next]
  simp only [hc.isCcrc, if_true, if_neg (Nat.not_lt_of_le hc.room), hverifies.checks, ne_eq,
    not_true_eq_false, if_false]
  rfl

theorem Walk.commit_ptag (c : RawCommit) :
    (w.commit c).ptag = baseAfter w.ptag c.all := by
  rw [RawCommit.all, baseAfter_append]
  rfl

theorem Walk.commit_pos {c : RawCommit} (hc : c.Sound w.ptag w.runningCrc) :
    (w.commit c).pos = w.pos + runSize c.all := by
  have hpos := Walk.run_pos (w := w) hc.plain
  rw [RawCommit.all, runSize_append, ← Nat.add_assoc, ← hpos, runSize_cons, runSize_nil,
    Nat.add_zero, hc.sized.size]
  show (w.run c.entries).pos + c.ccrc.tag.perturb.dsize = _
  rw [Tag.dsize_perturb hc.sized.valid]

/-- The loop over a run of commits. -/
def Walk.commits (w : Walk) (cs : List RawCommit) : Walk := cs.foldl Walk.commit w

theorem Walk.commits_ptag (w : Walk) (cs : List RawCommit) :
    (w.commits cs).ptag = baseAfter w.ptag (logEntries cs) := by
  induction cs generalizing w with
  | nil => rfl
  | cons c cs ih =>
      rw [logEntries_cons, baseAfter_append, ← Walk.commit_ptag]
      exact ih _

theorem Walk.commits_pos {cs : List RawCommit} (hcs : SoundLog w.ptag w.runningCrc cs) :
    (w.commits cs).pos = w.pos + runSize (logEntries cs) := by
  induction cs generalizing w with
  | nil => rfl
  | cons c cs ih =>
      have hrest : SoundLog (w.commit c).ptag (w.commit c).runningCrc cs := by
        rw [Walk.commit_ptag]
        exact hcs.2
      rw [logEntries_cons, runSize_append, ← Nat.add_assoc, ← Walk.commit_pos hcs.1]
      exact ih hrest

/-- What verifies behind a run of commits verifies where the loop stands behind them. -/
theorem soundLog_commits {cs ds : List RawCommit} : SoundLog w.ptag w.runningCrc (cs ++ ds) ↔
    SoundLog w.ptag w.runningCrc cs ∧
      SoundLog (w.commits cs).ptag (w.commits cs).runningCrc ds := by
  induction cs generalizing w with
  | nil => exact (iff_of_eq (true_and _)).symm
  | cons c cs ih =>
      have hrest := @ih (w.commit c)
      rw [Walk.commit_ptag] at hrest
      exact (and_congr_right' hrest).trans and_assoc.symm

/-- A sound log is verified commit by commit. -/
theorem walk_log {cs : List RawCommit} (hcs : SoundLog w.ptag w.runningCrc cs)
    (h : block.drop w.pos = encode w.ptag (logEntries cs) ++ rest) (fuel : ℕ) :
    walk block ((logEntries cs).length + fuel) w = walk block fuel (w.commits cs) := by
  induction cs generalizing w with
  | nil =>
      rw [logEntries_nil, List.length_nil, Nat.zero_add]
      rfl
  | cons c cs ih =>
      have hlen : (logEntries (c :: cs)).length + fuel =
          c.all.length + ((logEntries cs).length + fuel) := by
        rw [logEntries_cons, List.length_append, Nat.add_assoc]
      have hfirst : block.drop w.pos =
          encode w.ptag c.all ++ (encode (baseAfter w.ptag c.all) (logEntries cs) ++ rest) := by
        rw [h, logEntries_cons, encode_append, List.append_assoc]
      have hnext : block.drop (w.commit c).pos =
          encode (w.commit c).ptag (logEntries cs) ++ rest := by
        rw [Walk.commit_pos hcs.1, Walk.commit_ptag, ← List.drop_drop, hfirst]
        exact List.drop_left' (length_encode _ _)
      have hrest : SoundLog (w.commit c).ptag (w.commit c).runningCrc cs := by
        rw [Walk.commit_ptag]
        exact hcs.2
      rw [hlen, walk_commit hcs.1 hfirst]
      exact ih hrest hnext

/-- The end of a run of commits is behind its last. -/
theorem Walk.commits_end {cs : List RawCommit} {c : RawCommit} (hlast : cs.getLast? = some c)
    (hcs : SoundLog w.ptag w.runningCrc cs) (hpending : w.pendingFcrc = none) :
    (w.commits cs).committedEnd = (w.commits cs).pos ∧
      (w.commits cs).nextPtag = (w.commits cs).ptag ∧ (w.commits cs).lastFcrc = c.fcrc ∧
      (w.commits cs).runningCrc = Crc.init := by
  induction cs generalizing w with
  | nil => cases hlast
  | cons c' cs ih =>
      have hrest : SoundLog (w.commit c').ptag (w.commit c').runningCrc cs := by
        rw [Walk.commit_ptag]
        exact hcs.2
      cases cs with
      | nil =>
          obtain rfl : c' = c := Option.some.inj hlast
          have hend : (w.run c'.entries).pos + c'.ccrc.tag.dsize =
              (w.run c'.entries).pos + c'.ccrc.tag.perturb.dsize := by
            rw [Tag.dsize_perturb hcs.1.sized.valid]
          have hfcrc : (w.run c'.entries).pendingFcrc = _ := Walk.run_fcrc
          rw [hpending] at hfcrc
          exact ⟨hend, rfl, hfcrc, rfl⟩
      | cons d cs =>
          rw [List.getLast?_cons_cons] at hlast
          exact ih hlast hrest rfl

end Log

/-! ## Behind the log -/

section Erased

variable {block : List Byte} {w : Walk}

theorem beWord_erased {n : ℕ} (h : 4 ≤ n) : beWord (List.replicate n 0xFF) = 0xFFFFFFFF := by
  obtain ⟨m, rfl⟩ : ∃ m, n = m + 4 := ⟨n - 4, by omega⟩
  simp [beWord, ofBe32, List.replicate_succ]

/-- A tag read from erased cells is valid only behind a base with the valid bit set. -/
theorem nextTag_erased {n off : ℕ} {ptag : Tag}
    (h : block.drop (off + ptag.dsize) = List.replicate n 0xFF) :
    nextTag block block.length off ptag = none ∨
      ptag.isValid = false ∧ (Tag.mk (0xFFFFFFFF ^^^ ptag.bits)).isValid = true ∧
        nextTag block block.length off ptag =
          some (off + ptag.dsize, ⟨0xFFFFFFFF ^^^ ptag.bits⟩) := by
  have hlen := congrArg List.length h
  rw [List.length_drop, List.length_replicate] at hlen
  by_cases hroom : block.length < off + ptag.dsize + 4
  · exact .inl (nextTag_end hroom)
  · have hword : beWord (block.drop (off + ptag.dsize)) = 0xFFFFFFFF := by
      rw [h]
      exact beWord_erased (by omega)
    by_cases hvalid : (Tag.mk (0xFFFFFFFF ^^^ ptag.bits)).isValid = true
    · by_cases hbody : block.length <
          off + ptag.dsize + (Tag.mk (0xFFFFFFFF ^^^ ptag.bits)).dsize
      · exact .inl (by simp only [nextTag, hword, if_neg hroom, hvalid, if_true, if_pos hbody])
      · refine .inr ⟨?_, hvalid, ?_⟩
        · by_contra hbase
          rw [Tag.isValid_erased_of_valid (Bool.not_eq_false _ ▸ hbase)] at hvalid
          cases hvalid
        · simp only [nextTag, hword, if_neg hroom, hvalid, if_true, if_neg hbody]
    · exact .inl (by simp only [nextTag, hword, if_neg hroom, if_neg hvalid])

/-- Behind a valid base erased cells end the loop. -/
theorem walk_erased_of_valid {n : ℕ} (h : block.drop w.pos = List.replicate n 0xFF)
    (hvalid : w.ptag.isValid = true) (fuel : ℕ) : walk block fuel w = w := by
  cases fuel with
  | zero => rfl
  | succ fuel =>
      rcases nextTag_erased h with hnext | ⟨hbase, -, -⟩
      · rw [walk, hnext]
      · rw [hbase] at hvalid
        cases hvalid

/-- Behind a commit CRC, and behind the revision, erased cells verify nothing: one tag of
no meaning may be passed, and then the loop ends. -/
theorem walk_erased {n : ℕ} (h : block.drop w.pos = List.replicate n 0xFF)
    (htype : 0x300 ≤ w.ptag.typeBits) (fuel : ℕ) : Walk.SameEnd w (walk block fuel w) := by
  cases fuel with
  | zero => exact .refl
  | succ fuel =>
      rcases nextTag_erased h with hnext | ⟨-, hvalid, hnext⟩
      · rw [walk, hnext]
        exact .refl
      · have hccrc := Tag.isCcrc_erased (t := w.ptag) (.inr htype)
        rw [walk, hnext]
        simp only [hccrc, Bool.false_eq_true, if_false]
        have hbehind : block.drop (w.pos + (Tag.mk (0xFFFFFFFF ^^^ w.ptag.bits)).dsize) =
            List.replicate (n - (Tag.mk (0xFFFFFFFF ^^^ w.ptag.bits)).dsize) 0xFF := by
          rw [← List.drop_drop, h, List.drop_replicate]
        rw [walk_erased_of_valid (w := w.pass _ _ _ _) hbehind hvalid]
        exact .pass

end Erased
end LittlefsPure.Codec
