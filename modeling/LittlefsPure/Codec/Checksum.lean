import LittlefsPure.Codec.Torn

/-!
# One checksum

The builder adds each tag it writes to a running checksum, the reader each tag it meets,
and `verify_programmed` takes the checksum of a whole region.  All three are the bit by bit
checksum of the same bytes: `between` is a range of a block, and what has been accumulated
is the checksum of the range from where the commit begins.

## Why one range

The checksum of a commit covers the bytes from where the commit before it ended up to the word that
stores it.  The builder never sees that range as a whole, it adds tag by tag; the reader adds tag
by tag as well, cut from the block; and the check behind a program takes the checksum of what it
reads back in one call.  That all of them come to the checksum of the range is one fact about
concatenation, used with the three ways of cutting.
-/

namespace LittlefsPure.Codec

open Logic

/-- `verify_programmed`: a region that was programmed, against what the device reads back;
none when the read fails. -/
def verifyProgrammed (readDevice : Option (List Byte)) (region : List Byte) : Bool :=
  let expected := Crc.update Crc.init region
  match readDevice with
  | some bytes => decide (Crc.update Crc.init bytes = expected)
  | none => false

/-- The bytes of a block from one offset to another. -/
def between (block : List Byte) (i j : ℕ) : List Byte := (block.take j).drop i

section Between

variable {block block' : List Byte} {i j k : ℕ}

@[simp] theorem between_self (block : List Byte) (i : ℕ) : between block i i = [] :=
  List.drop_eq_nil_iff.2 (List.length_take_le i block)

theorem between_congr (h : block'.take k = block.take k) (hj : j ≤ k) :
    between block' i j = between block i j := by
  have htake : ∀ bytes : List Byte, bytes.take j = (bytes.take k).take j := by
    intro bytes
    rw [List.take_take, Nat.min_eq_left hj]
  rw [between, between, htake block', htake block, h]

theorem between_append (hi : i ≤ j) (hj : j ≤ k) :
    between block i j ++ between block j k = between block i k := by
  have hfirst : (block.take k).take j = block.take j := by
    rw [List.take_take, Nat.min_eq_left hj]
  have hsplit := List.take_append_drop j (block.take k)
  rw [hfirst] at hsplit
  have hrest : ((block.take k).drop j).drop (i - (block.take j).length) =
      (block.take k).drop j := by
    rcases Nat.lt_or_ge block.length j with hshort | hlong
    · have hnil : (block.take k).drop j = [] := by
        rw [List.drop_eq_nil_iff, List.length_take]
        omega
      rw [hnil, List.drop_nil]
    · have hzero : i - (block.take j).length = 0 := by
        rw [List.length_take]
        omega
      rw [hzero, List.drop_zero]
  have hdrop : (block.take j ++ (block.take k).drop j).drop i = _ := List.drop_append
  rw [hsplit, hrest] at hdrop
  exact hdrop.symm

/-- A range as the reader takes it. -/
theorem between_add (n : ℕ) : between block i (i + n) = (block.drop i).take n := by
  rw [between, List.drop_take, Nat.add_sub_cancel_left]

/-- A tag word and its body are the range of the tag. -/
theorem word_append_bodyAt (tag : Tag) :
    (block.drop k).take 4 ++ bodyAt block k tag = between block k (k + tag.dsize) := by
  have hword : between block k (k + 4) = (block.drop k).take 4 := between_add 4
  have hbody : between block (k + 4) (k + 4 + tag.bodyLen) = bodyAt block k tag :=
    between_add tag.bodyLen
  rw [← hword, ← hbody, between_append (Nat.le_add_right k 4) (Nat.le_add_right _ _), Tag.dsize,
    Nat.add_assoc]

/-! ### Writing -/

theorem take_put {bytes : List Byte} (h : i ≤ block.length) :
    (put block i bytes).take i = block.take i := by
  rw [put, List.append_assoc]
  exact List.take_left' (by rw [List.length_take]; omega)

theorem between_put {bytes : List Byte} (h : i ≤ block.length) :
    between (put block i bytes) i (i + bytes.length) = bytes := by
  have hlen : (block.take i).length = i := by
    rw [List.length_take]
    omega
  rw [between_add, put, List.append_assoc, List.drop_left' hlen]
  exact List.take_left' rfl

theorem length_put {bytes : List Byte} (h : i + bytes.length ≤ block.length) :
    (put block i bytes).length = block.length := by
  rw [put, List.length_append, List.length_append, List.length_take, List.length_drop]
  omega

end Between

/-! ## The builder -/

namespace Commit

/-- What a builder has written since another state of it is in its checksum, and nothing
before that has changed. -/
structure Accumulates (c c' : Commit) : Prop where
  offset : c.offset ≤ c'.offset
  kept : c'.buf.take c.offset = c.buf.take c.offset
  crc : c'.crc = Crc.update c.crc (between c'.buf c.offset c'.offset)

section Accumulates

variable {c c' c'' : Commit}

theorem Accumulates.refl (c : Commit) : c.Accumulates c where
  offset := Nat.le_refl _
  kept := rfl
  crc := by rw [between_self, Crc.update]

theorem Accumulates.trans (h : c.Accumulates c') (h' : c'.Accumulates c'') : c.Accumulates c'' where
  offset := h.offset.trans h'.offset
  kept := by
    have hkept := congrArg (List.take c.offset) h'.kept
    rw [List.take_take, List.take_take, Nat.min_eq_left h.offset] at hkept
    exact hkept.trans h.kept
  crc := by
    rw [h'.crc, h.crc, ← between_congr h'.kept (Nat.le_refl _), ← Crc.update_append,
      between_append h.offset h'.offset]

/-- A word and a body behind it are written in one range. -/
theorem between_put_put {buf : List Byte} {off : ℕ} {raw body : List Byte} (hraw : raw.length = 4)
    (hroom : off + 4 ≤ buf.length) :
    (put (put buf off raw) (off + 4) body).take off = buf.take off ∧
      between (put (put buf off raw) (off + 4) body) off (off + 4) = raw ∧
      between (put (put buf off raw) (off + 4) body) (off + 4) (off + 4 + body.length) = body := by
  have hlen : (put buf off raw).length = buf.length := length_put (by omega)
  have hkept : (put (put buf off raw) (off + 4) body).take (off + 4) =
      (put buf off raw).take (off + 4) := take_put (by omega)
  refine ⟨?_, ?_, between_put (by omega)⟩
  · have hfirst := congrArg (List.take off) hkept
    rw [List.take_take, List.take_take, Nat.min_eq_left (Nat.le_add_right off 4)] at hfirst
    rw [hfirst, take_put (by omega)]
  · have hword : between (put buf off raw) off (off + raw.length) = raw := between_put (by omega)
    rw [hraw] at hword
    rw [between_congr hkept (Nat.le_refl _), hword]

theorem tag_accumulates {e : RawEntry} (h : c.tag e = .ok c') : c.Accumulates c' := by
  rw [tag] at h
  split_ifs at h with hccrc hbody hroom
  cases h
  rw [Tag.dsize] at hroom
  obtain ⟨hkept, hword, hrest⟩ := @between_put_put c.buf c.offset
    (toBe (e.tag.bits ^^^ c.ptag.bits)) e.body rfl (by omega)
  refine ⟨Nat.le_add_right _ _, hkept, ?_⟩
  have hend : c.offset + e.tag.dsize = c.offset + 4 + e.body.length := by
    rw [Tag.dsize, not_not.1 hbody, Nat.add_assoc]
  show Crc.update (Crc.update c.crc _) e.body = Crc.update c.crc (between _ c.offset (_ + _))
  rw [hend, ← between_append (Nat.le_add_right c.offset 4) (Nat.le_add_right _ _), hword, hrest,
    Crc.update_append]

theorem addTags_accumulates {es : List RawEntry} (h : c.addTags es = .ok c') :
    c.Accumulates c' := by
  induction es generalizing c with
  | nil =>
      cases h
      exact .refl _
  | cons e es ih =>
      rw [addTags] at h
      cases htag : c.tag e with
      | error err =>
          rw [htag] at h
          cases h
      | ok c₁ =>
          rw [htag] at h
          exact (tag_accumulates htag).trans (ih h)

/-- A commit CRC is stored behind what it covers. -/
structure Seals (c c' : Commit) (k : ℕ) : Prop where
  begins : c.offset ≤ k
  ends : k + 8 ≤ c'.offset
  kept : c'.buf.take c.offset = c.buf.take c.offset
  stored : leWord (c'.buf.drop (k + 4)) = Crc.update c.crc (between c'.buf c.offset (k + 4))
  restarts : c'.crc = Crc.init

theorem putCcrc_seals {chunk bodyLen stop : ℕ} (hroom : c.offset + 8 ≤ c.buf.length)
    (hstop : c.offset + 8 ≤ stop) : c.Seals (c.putCcrc chunk bodyLen stop) c.offset := by
  obtain ⟨hkept, hword, hbody⟩ := @between_put_put c.buf c.offset
    (toBe ((ccrcTag chunk bodyLen).bits ^^^ c.ptag.bits))
    (toLe (Crc.update c.crc (toBe ((ccrcTag chunk bodyLen).bits ^^^ c.ptag.bits)))) rfl (by omega)
  refine ⟨Nat.le_refl _, hstop, hkept, ?_, rfl⟩
  show leWord (List.drop (c.offset + 4) (put _ _ _)) = Crc.update c.crc (between (put _ _ _) _ _)
  rw [hword]
  rw [length_toLe, between_add] at hbody
  rw [← leWord_take _ (Nat.le_refl 4), hbody]
  have hback := leWord_toLe_append
    (Crc.update c.crc (toBe ((ccrcTag chunk bodyLen).bits ^^^ c.ptag.bits))) []
  rw [List.append_nil] at hback
  exact hback

theorem Accumulates.seals (h : c.Accumulates c') {k : ℕ} (h' : c'.Seals c'' k) :
    c.Seals c'' k := by
  refine ⟨h.offset.trans h'.begins, h'.ends, ?_, ?_, h'.restarts⟩
  · have hkept := congrArg (List.take c.offset) h'.kept
    rw [List.take_take, List.take_take, Nat.min_eq_left h.offset] at hkept
    exact hkept.trans h.kept
  · have hk : c'.offset ≤ k + 4 := h'.begins.trans (Nat.le_add_right k 4)
    rw [h'.stored, h.crc, ← between_congr h'.kept (Nat.le_refl _), ← Crc.update_append,
      between_append h.offset hk]

/-- The forward CRC leaves room for the commit CRC before the padded end. -/
theorem addTags_fcrc_offset {off stop progSize blockSize : ℕ} (hoff : c.offset = off)
    (hroom : off + 8 ≤ stop) (h : c.addTags (fcrcEntries off stop progSize blockSize) = .ok c') :
    c'.offset + 8 ≤ stop := by
  subst hoff
  unfold fcrcEntries at h
  split_ifs at h with hemit
  · rw [addTags] at h
    cases htag : c.tag (fcrcEntry progSize) with
    | error e =>
        rw [htag] at h
        cases h
    | ok c₁ =>
        rw [htag] at h
        cases h
        rw [tag] at htag
        split_ifs at htag
        cases htag
        have hsize : (Tag.new .forwardCrc idNone 8).dsize = 12 := by decide
        show c.offset + (Tag.new .forwardCrc idNone 8).dsize + 8 ≤ stop
        omega
  · cases h
    exact hroom

theorem close_seals {closing : Closing} (h : c.close closing = .ok c') : ∃ k, c.Seals c' k := by
  cases closing with
  | finish chunk =>
      rw [close, finish] at h
      split_ifs at h with hroom
      cases h
      exact ⟨_, putCcrc_seals (Nat.le_of_not_lt hroom) (Nat.le_refl _)⟩
  | finishPadded chunk progSize blockSize =>
      simp only [close, finishPadded] at h
      split_ifs at h with hprog hstop hshort
      · rw [finish] at h
        split_ifs at h with hroom
        cases h
        exact ⟨_, putCcrc_seals (Nat.le_of_not_lt hroom) (Nat.le_refl _)⟩
      · obtain ⟨c₁, hfcrc, h⟩ := bind_eq_ok.1 h
        split_ifs at h with hlong hroom
        cases h
        have hoffset := addTags_fcrc_offset rfl (Nat.le_of_not_lt hshort) hfcrc
        exact ⟨_, (addTags_accumulates hfcrc).seals (putCcrc_seals (by omega) hoffset)⟩

/-- A commit, from its first tag to its close. -/
theorem write_seals {r : Recipe} (h : c.write r = .ok c') : ∃ k, c.Seals c' k := by
  obtain ⟨c₁, htags, h⟩ := bind_eq_ok.1 h
  obtain ⟨k, hk⟩ := close_seals h
  exact ⟨k, (addTags_accumulates htags).seals hk⟩

end Accumulates

end Commit

/-! ## The reader -/

/-- The reader's checksum is that of the range from the end of the last commit on. -/
structure Walk.Accumulated (block : List Byte) (w : Walk) : Prop where
  committedEnd : w.committedEnd ≤ w.pos
  crc : w.runningCrc = Crc.update Crc.init (between block w.committedEnd w.pos)

section Reader

variable {block : List Byte} {w : Walk}

theorem start_accumulated (block : List Byte) : (Walk.start block).Accumulated block where
  committedEnd := Nat.zero_le _
  crc := by
    rw [start_pos]
    rfl

theorem walk_accumulated (h : w.Accumulated block) (fuel : ℕ) :
    (walk block fuel w).Accumulated block := by
  induction fuel generalizing w with
  | zero => exact h
  | succ fuel ih =>
      rw [walk_succ]
      cases hturn : w.turn block with
      | none => exact h
      | some w' =>
          refine ih ?_
          rcases turn_cases hturn with ⟨tag, hverifies, rfl⟩ | ⟨tag, hnext, hccrc, rfl⟩
          · have hvalid := (nextTag_eq_some hverifies.next).2.1
            have hpos : (w.verify w.pos tag).pos = (w.verify w.pos tag).committedEnd := by
              show w.pos + tag.perturb.dsize = w.pos + tag.dsize
              rw [Tag.dsize_perturb hvalid]
            refine ⟨Nat.le_of_eq hpos.symm, ?_⟩
            rw [hpos, between_self]
            rfl
          · refine ⟨h.committedEnd.trans (Nat.le_add_right _ _), ?_⟩
            show Crc.update (Crc.update w.runningCrc _) (bodyAt block w.pos tag) =
              Crc.update Crc.init (between block w.committedEnd (w.pos + tag.dsize))
            rw [h.crc, ← Crc.update_append, ← Crc.update_append, word_append_bodyAt,
              between_append h.committedEnd (Nat.le_add_right _ _)]

end Reader

/-! ## The same bytes -/

/-- The builder's checksum is that of its bytes from an offset on. -/
structure Commit.Covers (c : Commit) (b : ℕ) : Prop where
  begins : b ≤ c.offset
  crc : c.crc = Crc.update Crc.init (between c.buf b c.offset)

section Covers

variable {c c' : Commit} {b : ℕ}

theorem new_covers {buf : List Byte} {revision : BitVec 32} (h : Commit.new buf revision = .ok c) :
    c.Covers 0 := by
  rw [Commit.new] at h
  split_ifs at h
  cases h
  exact ⟨Nat.zero_le 4, rfl⟩

theorem Commit.Accumulates.covers (h : c.Accumulates c') (hc : c.Covers b) : c'.Covers b := by
  refine ⟨hc.begins.trans h.offset, ?_⟩
  rw [h.crc, hc.crc, ← between_congr h.kept (Nat.le_refl _), ← Crc.update_append,
    between_append hc.begins h.offset]

theorem Commit.Seals.covers {k : ℕ} (h : c.Seals c' k) : c'.Covers c'.offset := by
  refine ⟨Nat.le_refl _, ?_⟩
  rw [h.restarts, between_self, Crc.update]

theorem Commit.Seals.stored_eq {k : ℕ} (h : c.Seals c' k) (hc : c.Covers b) :
    leWord (c'.buf.drop (k + 4)) = Crc.update Crc.init (between c'.buf b (k + 4)) := by
  rw [h.stored, hc.crc, ← between_congr h.kept (Nat.le_refl _), ← Crc.update_append,
    between_append hc.begins (h.begins.trans (Nat.le_add_right k 4))]

end Covers

/-- The table driven checksum is the bit by bit one and accumulates over parts.  So what a
builder accumulates tag by tag from where a commit begins, and stores when it closes the
commit, is what the reader accumulates over the same bytes and `verify_programmed` computes
over them at once. -/
theorem checksums_agree :
    (∀ crc data, Crc.update crc data = Crc.updateBitwise crc data) ∧
    (∀ crc a b, Crc.update crc (a ++ b) = Crc.update (Crc.update crc a) b) ∧
    (∀ buf revision c, Commit.new buf revision = .ok c → c.Covers 0) ∧
    (∀ (c c' : Commit) es b, c.Covers b → c.addTags es = .ok c' → c'.Covers b) ∧
    (∀ (c c' : Commit) r b, c.Covers b → c.write r = .ok c' → c'.Covers c'.offset ∧
      ∃ k, c.Seals c' k ∧
        leWord (c'.buf.drop (k + 4)) = Crc.update Crc.init (between c'.buf b (k + 4))) ∧
    (∀ block fuel, (walk block fuel (.start block)).Accumulated block) ∧
    ∀ (c : Commit) b, c.Covers b →
      (∀ block fuel, (walk block fuel (.start block)).committedEnd = b →
        (walk block fuel (.start block)).pos = c.offset →
        between block b c.offset = between c.buf b c.offset →
        (walk block fuel (.start block)).runningCrc = c.crc) ∧
      ∀ bytes, verifyProgrammed (some bytes) (between c.buf b c.offset) =
        decide (Crc.update Crc.init bytes = c.crc) := by
  have hreader : ∀ block fuel, (walk block fuel (.start block)).Accumulated block :=
    fun block fuel => walk_accumulated (start_accumulated block) fuel
  refine ⟨Crc.update_eq_updateBitwise, Crc.update_append, fun _ _ _ h => new_covers h,
    fun c c' es b hc h => (Commit.addTags_accumulates h).covers hc, fun c c' r b hc h => ?_,
    hreader, fun c b hc => ⟨fun block fuel hend hpos hsame => ?_, fun bytes => ?_⟩⟩
  · obtain ⟨k, hk⟩ := Commit.write_seals h
    exact ⟨hk.covers, k, hk, hk.stored_eq hc⟩
  · rw [(hreader block fuel).crc, hend, hpos, hsame, hc.crc]
  · rw [verifyProgrammed, hc.crc]

/-- A commit of one tag in an erased buffer, as the builder, the reader and
`verify_programmed` see it. -/
theorem checksums_agree_small : ∃ c' c'' : Commit, c'.Covers 0 ∧
    (∃ k, leWord (c''.buf.drop (k + 4)) = Crc.update Crc.init (between c''.buf 0 (k + 4))) ∧
      (walk c''.buf 1 (.start c''.buf)).runningCrc = c'.crc ∧
      verifyProgrammed (some (between c''.buf 0 8)) (between c'.buf 0 8) = true := by
  have hnew : Commit.new (List.replicate 20 0xFF) 1 = .ok _ := rfl
  have hcovers := checksums_agree.2.2.1 _ _ _ hnew
  have htags := checksums_agree.2.2.2.1 _ _ [⟨.new .create 0 0, []⟩] 0 hcovers rfl
  have hwrite := checksums_agree.2.2.2.2.1 _ _ ⟨[⟨.new .create 0 0, []⟩], .finish 0⟩ 0 hcovers rfl
  have hsame := checksums_agree.2.2.2.2.2.2 _ 0 htags
  obtain ⟨k, -, hk⟩ := hwrite.2
  refine ⟨_, _, htags, ⟨k, hk⟩, hsame.1 _ 1 (by decide +kernel) (by decide +kernel)
    (by decide +kernel), (hsame.2 _).trans (by decide +kernel)⟩

end LittlefsPure.Codec
