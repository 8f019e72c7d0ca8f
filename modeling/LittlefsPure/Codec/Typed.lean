import LittlefsPure.Codec.Passed
import LittlefsPure.Disk.Reader

/-!
# The two readers

`MetadataLog.ofBytes` reads a block into the tags that the filesystem works on, and
`MetadataReader.new` reads it byte for byte.  They find the same: turn by turn the loop
of the first is that of the second, with each entry as the filesystem has it.

## Why both are kept

The filesystem is modelled over typed tags, since nothing in it depends on how they lie on the
flash; the results about bytes are about the byte level reader.  This module is where they meet,
and it is needed for blocks that hold file content and are read as metadata all the same.
-/

namespace LittlefsPure.Codec

/-- An entry as the filesystem has it. -/
def RawEntry.typed (e : RawEntry) : TagEntry where
  tagType := e.tag.tagType
  id := e.tag.id
  body :=
    if e.tag.isCcrc then .checksum e.tag.bodyLen
    else if e.tag.length = lenSpecial then .removed
    else .bytes e.body

/-- A window with its checksum as a number. -/
def windowNat (w : ℕ × BitVec 32) : ℕ × ℕ := (w.1, w.2.toNat)

theorem ofBe32_lt (bytes : List Byte) : ofBe32 bytes < 2 ^ 32 := by
  have hbyte : ∀ b : Byte, b.toNat < 256 := fun b => b.isLt
  have h0 := hbyte (bytes.getD 0 0)
  have h1 := hbyte (bytes.getD 1 0)
  have h2 := hbyte (bytes.getD 2 0)
  have h3 := hbyte (bytes.getD 3 0)
  rw [ofBe32]
  omega

theorem ofLe32_lt (bytes : List Byte) : ofLe32 bytes < 2 ^ 32 := by
  have hbyte : ∀ b : Byte, b.toNat < 256 := fun b => b.isLt
  have h0 := hbyte (bytes.getD 0 0)
  have h1 := hbyte (bytes.getD 1 0)
  have h2 := hbyte (bytes.getD 2 0)
  have h3 := hbyte (bytes.getD 3 0)
  rw [ofLe32]
  omega

theorem toNat_leWord (bytes : List Byte) : (leWord bytes).toNat = ofLe32 bytes := by
  rw [leWord, BitVec.toNat_ofNat, Nat.mod_eq_of_lt (ofLe32_lt bytes)]

/-- The decoded word of the loop. -/
theorem decoded_eq (bytes : List Byte) (ptag : Tag) :
    Nat.xor (ofBe32 bytes) ptag.bits.toNat = (beWord bytes ^^^ ptag.bits).toNat := by
  rw [BitVec.toNat_xor, beWord, BitVec.toNat_ofNat, Nat.mod_eq_of_lt (ofBe32_lt bytes)]
  rfl

section Turn

variable {block : List Byte} {w w' : Walk} {done pending : List RawEntry}

theorem typed_plain {e : RawEntry} (h : e.tag.isCcrc = false) :
    e.typed = ⟨e.tag.tagType, e.tag.id,
      if e.tag.length = lenSpecial then .removed else .bytes e.body⟩ := by
  rw [RawEntry.typed, h]
  rfl

/-- The window of a forward CRC, in both readers. -/
theorem fcrcOf_eq (tag : Tag) (body : List Byte) (hbody : body.length = tag.bodyLen)
    (pendingFcrc : Option (ℕ × BitVec 32)) (rest : List Byte) :
    fcrcOf tag.bits.toNat (body ++ rest) (pendingFcrc.map windowNat) =
      (fcrcWindow tag body pendingFcrc).map windowNat := by
  have htake : (body ++ rest).take (bodyLenOf tag.bits.toNat) = body := List.take_left' hbody
  rw [fcrcOf, fcrcWindow, htake]
  show (if tag.tagType = .forwardCrc ∧ 8 ≤ tag.bodyLen then _ else _) = _
  split_ifs
  · rw [Option.map_some, windowNat, toNat_leWord]
  · rfl

/-- What has been read when the loop stands somewhere. -/
def Walk.soFar (block : List Byte) (w : Walk) (done : List RawEntry) : ReadSoFar where
  tags := done.map RawEntry.typed
  fcrc := w.lastFcrc.map windowNat
  rest := block.drop (max 4 w.committedEnd)
  restLength := block.length - max 4 w.committedEnd

/-- The loop of the typed reader from where the other stands. -/
def Walk.readOn (block : List Byte) (fuel : ℕ) (w : Walk) (done pending : List RawEntry) :
    ReadSoFar :=
  readTags fuel (block.drop w.pos) (block.length - w.pos) w.ptag.bits.toNat w.runningCrc
    (pending.map RawEntry.typed) (w.pendingFcrc.map windowNat) (w.soFar block done)

/-- The word that the typed reader decodes next. -/
theorem decoded_next {tag : Tag} {k : ℕ}
    (h : nextTag block block.length w.off w.ptag = some (k, tag)) :
    k = w.pos ∧ Nat.xor (ofBe32 (block.drop w.pos)) w.ptag.bits.toNat = tag.bits.toNat ∧
      4 + tag.bodyLen ≤ block.length - w.pos ∧ tag.bits.toNat < 0x80000000 := by
  obtain ⟨rfl, hvalid, hroom, hword⟩ := nextTag_eq_some h
  refine ⟨rfl, ?_, ?_, Tag.isValid_iff.1 hvalid⟩
  · rw [decoded_eq]
    show (beWord (block.drop (w.off + w.ptag.dsize)) ^^^ w.ptag.bits).toNat = _
    rw [← hword, BitVec.xor_assoc, BitVec.xor_self, BitVec.xor_zero]
  · have hsize : tag.dsize = 4 + tag.bodyLen := rfl
    show 4 + tag.bodyLen ≤ block.length - (w.off + w.ptag.dsize)
    omega

/-- Where there is no next tag, the typed reader ends. -/
theorem readOn_of_nextTag_none (h : nextTag block block.length w.off w.ptag = none) (fuel : ℕ) :
    w.readOn block fuel done pending = w.soFar block done := by
  by_cases hshort : block.length - w.pos < 4
  · exact readTags_short hshort
  have hroom : ¬ block.length < w.off + w.ptag.dsize + 4 := by
    have hpos : w.pos = w.off + w.ptag.dsize := rfl
    omega
  simp only [nextTag, if_neg hroom] at h
  split_ifs at h with hvalid hbody
  · have hend : block.length <
        w.pos + (4 + bodyLenOf (beWord (block.drop w.pos) ^^^ w.ptag.bits).toNat) := hbody
    exact readTags_overrun (decoded_eq _ _) (by omega)
  · refine readTags_invalid (decoded_eq _ _) (Nat.le_of_not_lt fun hlt => ?_)
    exact hvalid (Tag.isValid_iff.2 hlt)

/-- Where the one loop ends, so does the other. -/
theorem readOn_of_turn_none (h : w.turn block = none) (fuel : ℕ) :
    w.readOn block fuel done pending = w.soFar block done := by
  cases hnext : nextTag block block.length w.off w.ptag with
  | none => exact readOn_of_nextTag_none hnext fuel
  | some x =>
      obtain ⟨k, tag⟩ := x
      obtain ⟨rfl, hword, hroom, hvalid⟩ := decoded_next hnext
      rw [Walk.turn, hnext, Option.bind_some] at h
      simp only at h
      split_ifs at h with hccrc hshort hcrc
      · obtain ⟨chunk, hchunk⟩ := Tag.isCcrc_iff.1 hccrc
        exact readTags_shortBody hword (Tag.tagType_of_ccrcChunk hchunk) hshort
      · obtain ⟨chunk, hchunk⟩ := Tag.isCcrc_iff.1 hccrc
        refine readTags_mismatch hword (Tag.tagType_of_ccrcChunk hchunk) fun heq => hcrc ?_
        apply BitVec.eq_of_toNat_eq
        rw [heq, toNat_leWord, List.drop_drop]
        exact ofLe32_take _ (Nat.le_of_not_lt hshort)

/-- The bytes behind the next tag word: its body, and what follows. -/
theorem drop_next_body {tag : Tag} :
    (block.drop w.pos).drop 4 = bodyAt block w.pos tag ++ block.drop (w.pos + tag.dsize) := by
  rw [bodyAt, Tag.dsize, ← Nat.add_assoc, ← List.drop_drop (j := w.pos + 4), List.take_append_drop,
    List.drop_drop]

/-- A tag that is taken in. -/
theorem readOn_pass {tag : Tag}
    (hnext : nextTag block block.length w.off w.ptag = some (w.pos, tag))
    (hccrc : tag.isCcrc = false) (fuel : ℕ) :
    w.readOn block (fuel + 1) done pending =
      (w.pass w.pos tag (Crc.update w.runningCrc ((block.drop w.pos).take 4))
        (bodyAt block w.pos tag)).readOn block fuel done
          (pending ++ [⟨tag, bodyAt block w.pos tag⟩]) := by
  obtain ⟨-, hword, hroom, hvalid⟩ := decoded_next hnext
  have hbody : (bodyAt block w.pos tag).length = tag.bodyLen := (drop_of_nextTag hnext).2.1.body
  have hsplit : (block.drop w.pos).drop 4 =
      bodyAt block w.pos tag ++ block.drop (w.pos + tag.dsize) := drop_next_body
  have htake : ((block.drop w.pos).drop 4).take tag.bodyLen = bodyAt block w.pos tag := by
    rw [hsplit]
    exact List.take_left' hbody
  have hentry : entryOf tag.bits.toNat ((block.drop w.pos).drop 4) =
      RawEntry.typed ⟨tag, bodyAt block w.pos tag⟩ := by
    rw [typed_plain (e := ⟨tag, bodyAt block w.pos tag⟩) hccrc]
    show TagEntry.mk tag.tagType tag.id (if tag.length = lenSpecial then .removed
      else .bytes (((block.drop w.pos).drop 4).take tag.bodyLen)) = _
    rw [htake]
  rw [Walk.readOn, readTags_tag hword (Nat.le_of_add_right_le hroom) hvalid hroom hccrc, hentry]
  show readTags fuel ((block.drop w.pos).drop (4 + tag.bodyLen)) _ tag.bits.toNat
    (Crc.update _ (((block.drop w.pos).drop 4).take tag.bodyLen)) _ _ _ = _
  rw [htake, hsplit, fcrcOf_eq tag _ hbody, List.drop_drop, Nat.sub_sub,
    Walk.readOn, List.map_append]
  rfl

/-- A commit that is verified. -/
theorem readOn_verify {tag : Tag} (h : w.Verifies block w.pos tag) (fuel : ℕ) :
    w.readOn block (fuel + 1) done pending =
      (w.verify w.pos tag).readOn block fuel
        (done ++ pending ++ [⟨tag, bodyAt block w.pos tag⟩]) [] := by
  obtain ⟨-, hword, hroom, hvalid⟩ := decoded_next h.next
  obtain ⟨chunk, hchunk⟩ := Tag.isCcrc_iff.1 h.isCcrc
  have hcrc : (Crc.update w.runningCrc ((block.drop w.pos).take 4)).toNat =
      ofLe32 (((block.drop w.pos).drop 4).take (bodyLenOf tag.bits.toNat)) := by
    rw [h.checks, toNat_leWord, List.drop_drop]
    exact (ofLe32_take _ h.room).symm
  have hbase : Nat.xor tag.bits.toNat (chunk % 2 * 0x80000000) = tag.perturb.bits.toNat := by
    have hlt : chunk % 2 * 0x80000000 < 2 ^ 32 := by omega
    rw [Tag.perturb, hchunk, BitVec.toNat_xor, BitVec.toNat_ofNat, Nat.mod_eq_of_lt hlt]
    rfl
  have hentry : (⟨.commitCrc chunk, tag.bits.toNat / 0x400 % 0x400,
      .checksum (bodyLenOf tag.bits.toNat)⟩ : TagEntry) =
        RawEntry.typed ⟨tag, bodyAt block w.pos tag⟩ := by
    rw [RawEntry.typed, if_pos h.isCcrc, Tag.tagType_of_ccrcChunk hchunk]
    rfl
  have hend : max 4 (w.verify w.pos tag).committedEnd = w.pos + (4 + bodyLenOf tag.bits.toNat) := by
    show max 4 (w.pos + (4 + tag.bodyLen)) = w.pos + (4 + tag.bodyLen)
    omega
  have hpos : (w.verify w.pos tag).pos = w.pos + (4 + bodyLenOf tag.bits.toNat) := by
    show w.pos + tag.perturb.dsize = _
    rw [Tag.dsize_perturb (Tag.isValid_iff.2 hvalid)]
    rfl
  have hsofar : (w.verify w.pos tag).soFar block
      (done ++ pending ++ [⟨tag, bodyAt block w.pos tag⟩]) =
        ⟨done.map RawEntry.typed ++ pending.map RawEntry.typed ++
            [RawEntry.typed ⟨tag, bodyAt block w.pos tag⟩], w.pendingFcrc.map windowNat,
          block.drop (w.pos + (4 + bodyLenOf tag.bits.toNat)),
          block.length - (w.pos + (4 + bodyLenOf tag.bits.toNat))⟩ := by
    rw [Walk.soFar, hend, List.map_append, List.map_append]
    rfl
  rw [Walk.readOn, readTags_ccrc hword (Nat.le_of_add_right_le hroom) hvalid hroom
    (Tag.tagType_of_ccrcChunk hchunk) h.room hcrc, hentry, hbase, List.drop_drop, Nat.sub_sub,
    Walk.readOn, hpos, hsofar]
  rfl

/-- The typed reader follows the loop. -/
theorem readOn_walk (fuel : ℕ) (w : Walk) {done pending : List RawEntry}
    (h : w.Passed block done pending) :
    ∃ done' pending', (walk block fuel w).Passed block done' pending' ∧
      w.readOn block fuel done pending = (walk block fuel w).soFar block done' := by
  induction fuel generalizing w done pending with
  | zero => exact ⟨done, pending, h, rfl⟩
  | succ fuel ih =>
      rw [walk_succ]
      cases hturn : w.turn block with
      | none => exact ⟨done, pending, h, readOn_of_turn_none hturn _⟩
      | some w' =>
          rcases turn_cases hturn with ⟨tag, hverifies, rfl⟩ | ⟨tag, hnext, hccrc, rfl⟩
          · rw [readOn_verify hverifies]
            exact ih _ (h.verify hverifies)
          · rw [readOn_pass hnext hccrc]
            exact ih _ (h.pass hnext hccrc _)

end Turn

/-- The two readers find the same in a block. -/
theorem ofBytes_eq {block : List Byte} {r : MetadataReader} (h : MetadataReader.new block = .ok r) :
    MetadataLog.ofBytes block.length block =
      ⟨r.revision.toNat, r.iterTags.map RawEntry.typed, r.erased⟩ := by
  rw [MetadataReader.new] at h
  split_ifs at h with hlen
  cases h
  obtain ⟨done, pending, hpassed, hread⟩ := readOn_walk block.length _ (start_passed block)
  rw [Walk.readOn, start_pos] at hread
  have hstart : readTags block.length (block.drop 4) (block.length - 4) 0xFFFFFFFF
      (Crc.update Crc.init (block.take 4)) [] none ⟨[], none, block.drop 4, block.length - 4⟩ =
        (walk block block.length (.start block)).soFar block done := hread
  set w := walk block block.length (.start block) with hw
  have htags : MetadataReader.iterTags ⟨block, leWord block, w.committedEnd, w.nextPtag,
      (scanForTail block w.committedEnd).1, (scanForTail block w.committedEnd).2,
      MetadataReader.windowErased block w⟩ = done :=
    (hpassed.decodes rfl rfl rfl).iterTags
  show MetadataLog.mk _ _ _ = MetadataLog.mk _ _ _
  rw [hstart, htags, toNat_leWord]
  congr 1
  cases hfcrc : w.lastFcrc with
  | none =>
      rw [Walk.soFar, MetadataReader.windowErased, hfcrc]
      rfl
  | some window =>
      have hne : done ≠ [] := by
        intro hnil
        rw [hpassed.lastFcrc hnil] at hfcrc
        cases hfcrc
      have hend : w.committedEnd = 4 + runSize done := by rw [hpassed.committedEnd, if_neg hne]
      have hle : w.committedEnd ≤ block.length := by
        have hbytes := congrArg List.length hpassed.image
        rw [encode_append, List.length_append, List.length_append, length_encode,
          List.length_drop] at hbytes
        omega
      rw [Walk.soFar, MetadataReader.windowErased, hfcrc]
      show (decide (window.1 ≤ block.length - max 4 w.committedEnd) &&
        decide ((Crc.update Crc.init ((block.drop (max 4 w.committedEnd)).take window.1)).toNat =
          window.2.toNat)) = (decide (w.committedEnd + window.1 ≤ block.length) &&
        decide (Crc.update Crc.init ((block.drop w.committedEnd).take window.1) = window.2))
      have hmax : max 4 w.committedEnd = w.committedEnd := by omega
      have hroom : window.1 ≤ block.length - w.committedEnd ↔
          w.committedEnd + window.1 ≤ block.length := by omega
      rw [hmax]
      congr 1
      · exact decide_eq_decide.2 hroom
      · exact decide_eq_decide.2 BitVec.toNat_inj

end LittlefsPure.Codec
