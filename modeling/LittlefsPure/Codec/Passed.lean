import LittlefsPure.Codec.Torn
import Mathlib.Data.List.Induction

/-!
# What the reader has passed

Whatever a block holds, the part that the loop of the reader has passed is the image of
the entries it has met, and the part that it has verified is the image of the first of
them.  So `iter_tags` yields these, and `iter_tags_rev` yields them from the end on.

## Why the loop carries two lists

The reader verifies a commit at its end, so at any moment some entries are verified and others
have been met but not verified.  Both are images of a part of the block, one behind the other, and
the loop moves entries from the second list to the first whenever a checksum agrees.  That is the
invariant, and what the iterators yield is the first list when the loop has ended.
-/

namespace LittlefsPure.Codec

theorem toBe_beWord {bytes : List Byte} (h : 4 ≤ bytes.length) :
    toBe (beWord bytes) = bytes.take 4 := by
  obtain ⟨b0, b1, b2, b3, rest, rfl⟩ := four_bytes h
  have hbyte : ∀ b : Byte, b.toNat < 256 := fun b => b.isLt
  have h0 := hbyte b0
  have h1 := hbyte b1
  have h2 := hbyte b2
  have h3 := hbyte b3
  have hword : (beWord (b0 :: b1 :: b2 :: b3 :: rest)).toNat =
      b3.toNat + 0x100 * b2.toNat + 0x10000 * b1.toNat + 0x1000000 * b0.toNat := by
    simp only [beWord, ofBe32, List.getD_cons_zero, List.getD_cons_succ, BitVec.toNat_ofNat]
    omega
  simp only [toBe, be32, le32, hword, List.reverse_cons, List.reverse_nil, List.nil_append,
    List.cons_append, List.take_succ_cons, List.take_zero, List.cons.injEq, and_true]
  refine ⟨?_, ?_, ?_, ?_⟩
  · apply BitVec.eq_of_toNat_eq
    simp only [BitVec.toNat_ofNat]
    omega
  · apply BitVec.eq_of_toNat_eq
    simp only [BitVec.toNat_ofNat]
    omega
  · apply BitVec.eq_of_toNat_eq
    simp only [BitVec.toNat_ofNat]
    omega
  · apply BitVec.eq_of_toNat_eq
    simp only [BitVec.toNat_ofNat]
    omega

/-- The next tag of a loop, with its body, is an entry that stands in the block. -/
theorem drop_of_nextTag {block : List Byte} {off k : ℕ} {ptag tag : Tag}
    (h : nextTag block block.length off ptag = some (k, tag)) :
    k = off + ptag.dsize ∧ RawEntry.Sized ⟨tag, bodyAt block k tag⟩ ∧
      block.drop k = encode ptag [⟨tag, bodyAt block k tag⟩] ++ block.drop (k + tag.dsize) := by
  obtain ⟨hk, hvalid, hbody, hword⟩ := nextTag_eq_some h
  rw [Tag.dsize] at hbody
  have hlen : 4 ≤ (block.drop k).length := by
    rw [List.length_drop]
    omega
  have hsized : (bodyAt block k tag).length = tag.bodyLen := by
    rw [bodyAt, List.length_take, List.length_drop]
    omega
  refine ⟨hk, ⟨hvalid, hsized⟩, ?_⟩
  have hrest : bodyAt block k tag ++ block.drop (k + tag.dsize) = block.drop (k + 4) := by
    rw [bodyAt, Tag.dsize, ← Nat.add_assoc, ← List.drop_drop (j := k + 4), List.take_append_drop]
  rw [encode, encode, hword, toBe_beWord hlen, List.append_nil, List.append_assoc, hrest,
    ← List.drop_drop, List.take_append_drop]

/-! ## The loop of the reader -/

/-- The loop has verified some entries and met some more behind them. -/
structure Walk.Passed (block : List Byte) (w : Walk) (done pending : List RawEntry) : Prop where
  sized : ∀ e ∈ done ++ pending, e.Sized
  image : block.drop 4 = encode .erased (done ++ pending) ++ block.drop w.pos
  pos : w.pos = 4 + runSize (done ++ pending)
  ptag : w.ptag = baseAfter .erased (done ++ pending)
  committedEnd : w.committedEnd = if done = [] then 0 else 4 + runSize done
  nextPtag : w.nextPtag = baseAfter .erased done
  lastFcrc : done = [] → w.lastFcrc = none

section Passed

variable {block : List Byte} {w w' : Walk} {done pending : List RawEntry}

theorem start_passed (block : List Byte) : (Walk.start block).Passed block [] [] where
  sized := by simp
  image := by
    rw [start_pos]
    rfl
  pos := start_pos
  ptag := rfl
  committedEnd := rfl
  nextPtag := rfl
  lastFcrc _ := rfl

/-- An entry more, whatever the turn makes of it. -/
theorem Walk.Passed.snoc (h : w.Passed block done pending) {tag : Tag}
    (hnext : nextTag block block.length w.off w.ptag = some (w.pos, tag)) (hoff : w'.off = w.pos)
    (hptag : w'.ptag = tag.perturb) {done' pending' : List RawEntry}
    (hparts : done' ++ pending' = done ++ pending ++ [⟨tag, bodyAt block w.pos tag⟩])
    (hend : w'.committedEnd = if done' = [] then 0 else 4 + runSize done')
    (hbase : w'.nextPtag = baseAfter .erased done') (hfcrc : done' = [] → w'.lastFcrc = none) :
    w'.Passed block done' pending' := by
  obtain ⟨-, hsized, hdrop⟩ := drop_of_nextTag hnext
  have hsize : runSize [⟨tag, bodyAt block w.pos tag⟩] = tag.dsize := by
    rw [runSize_cons, runSize_nil, Nat.add_zero, hsized.size]
  have hpos : w'.pos = w.pos + tag.dsize := by
    show w'.off + w'.ptag.dsize = _
    rw [hoff, hptag, Tag.dsize_perturb hsized.valid]
  constructor
  · intro e he
    rw [hparts] at he
    rcases List.mem_append.1 he with he | he
    · exact h.sized e he
    · rw [List.mem_singleton.1 he]
      exact hsized
  · rw [hparts, encode_append, ← h.ptag, List.append_assoc, hpos, ← hdrop]
    exact h.image
  · rw [hparts, runSize_append, hsize, hpos, h.pos, Nat.add_assoc]
  · rw [hparts, baseAfter_append, hptag]
    rfl
  · exact hend
  · exact hbase
  · exact hfcrc

/-- A commit that is verified takes in what was pending. -/
theorem Walk.Passed.verify (h : w.Passed block done pending) {tag : Tag}
    (hverifies : w.Verifies block w.pos tag) : (w.verify w.pos tag).Passed block
      (done ++ pending ++ [⟨tag, bodyAt block w.pos tag⟩]) [] := by
  have hsized := (drop_of_nextTag hverifies.next).2.1
  refine h.snoc hverifies.next rfl rfl (List.append_nil _) ?_ ?_ fun hnil => ?_
  · rw [if_neg (by simp), runSize_append, runSize_cons, runSize_nil, hsized.size, Nat.add_zero,
      ← Nat.add_assoc, ← h.pos]
    rfl
  · rw [baseAfter_append, ← h.ptag]
    rfl
  · exact absurd hnil (by simp)

/-- A tag that is taken in is pending. -/
theorem Walk.Passed.pass (h : w.Passed block done pending) {tag : Tag}
    (hnext : nextTag block block.length w.off w.ptag = some (w.pos, tag))
    (hccrc : tag.isCcrc = false) (crc : BitVec 32) :
    (w.pass w.pos tag crc (bodyAt block w.pos tag)).Passed block done
      (pending ++ [⟨tag, bodyAt block w.pos tag⟩]) :=
  h.snoc hnext rfl (Tag.perturb_plain hccrc).symm (List.append_assoc ..).symm h.committedEnd
    h.nextPtag h.lastFcrc

theorem walk_passed (h : w.Passed block done pending) (fuel : ℕ) :
    ∃ done' pending', (walk block fuel w).Passed block done' pending' := by
  induction fuel generalizing w done pending with
  | zero => exact ⟨done, pending, h⟩
  | succ fuel ih =>
      rw [walk_succ]
      cases hturn : w.turn block with
      | none => exact ⟨done, pending, h⟩
      | some w' =>
          rcases turn_cases hturn with ⟨tag, hverifies, rfl⟩ | ⟨tag, hnext, hccrc, rfl⟩
          · exact ih (h.verify hverifies)
          · exact ih (h.pass hnext hccrc _)

end Passed

/-! ## The tags of a block -/

/-- A block is up to its end the image of its tags. -/
structure MetadataReader.Decodes (r : MetadataReader) (block : List Byte) (es : List RawEntry) :
    Prop where
  bytes : r.block = block
  sized : ∀ e ∈ es, e.Sized
  image : ∃ rest, block.drop 4 = encode .erased es ++ rest
  committedEnd : r.committedEnd = if es = [] then 0 else 4 + runSize es
  nextPtag : r.nextPtag = baseAfter .erased es

section Decodes

variable {block : List Byte} {r : MetadataReader} {es : List RawEntry}

/-- What the loop has verified when it ends. -/
theorem Walk.Passed.decodes {w : Walk} {done pending : List RawEntry}
    (h : w.Passed block done pending)
    (hblock : r.block = block) (hend : r.committedEnd = w.committedEnd)
    (hbase : r.nextPtag = w.nextPtag) : r.Decodes block done := by
  have himage := h.image
  rw [encode_append, List.append_assoc] at himage
  exact ⟨hblock, fun e he => h.sized e (List.mem_append_left _ he), ⟨_, himage⟩,
    hend.trans h.committedEnd, hbase.trans h.nextPtag⟩

/-- Whatever a block holds. -/
theorem new_decodes (h : MetadataReader.new block = .ok r) : ∃ es, r.Decodes block es := by
  rw [MetadataReader.new] at h
  split_ifs at h
  cases h
  obtain ⟨done, pending, hpassed⟩ := walk_passed (start_passed block) block.length
  exact ⟨done, hpassed.decodes rfl rfl rfl⟩

/-- There are no more tags than bytes. -/
theorem MetadataReader.Decodes.length_le (h : r.Decodes block es) : es.length ≤ block.length := by
  obtain ⟨rest, himage⟩ := h.image
  have hlen := congrArg List.length himage
  rw [List.length_drop, List.length_append, length_encode] at hlen
  have hle := length_le_runSize es
  omega

/-- Without a commit there are no tags. -/
theorem collect_no_commits (fuel : ℕ) : TagIter.collect fuel ⟨block, 0, 0, .erased⟩ = [] := by
  have hend : nextTag block 0 0 .erased = none := nextTag_end (by decide)
  cases fuel with
  | zero => rfl
  | succ n =>
      rw [TagIter.collect, TagIter.next, hend]
      rfl

/-- `iter_tags` yields the tags. -/
theorem MetadataReader.Decodes.iterTags (h : r.Decodes block es) : r.iterTags = es := by
  obtain ⟨rest, himage⟩ := h.image
  rw [MetadataReader.iterTags, h.bytes, h.committedEnd]
  by_cases hne : es = []
  · subst hne
    exact collect_no_commits block.length
  · obtain ⟨more, hmore⟩ := Nat.exists_eq_add_of_le h.length_le
    have hstart : block.drop (0 + Tag.erased.dsize) = encode .erased es ++ rest := himage
    have hread := collect_encode h.sized more hstart
    rw [dsize_erased] at hread
    rw [hmore, if_neg hne]
    exact hread

/-! ### From the end on -/

theorem and_mask_xor (x y : BitVec 32) :
    (x ^^^ y) &&& TagIterRev.mask = (x &&& TagIterRev.mask) ^^^ (y &&& TagIterRev.mask) := by
  apply BitVec.eq_of_getLsbD_eq
  intro i hi
  simp only [BitVec.getLsbD_and, BitVec.getLsbD_xor]
  cases x.getLsbD i <;> cases y.getLsbD i <;> cases TagIterRev.mask.getLsbD i <;> rfl

theorem toNat_and_mask (x : BitVec 32) : (x &&& TagIterRev.mask).toNat = x.toNat % 2 ^ 31 := by
  rw [BitVec.toNat_and, show TagIterRev.mask.toNat = 2 ^ 31 - 1 from rfl,
    Nat.and_two_pow_sub_one_eq_mod]

/-- The base behind a tag is the tag, but for the valid bit. -/
theorem perturb_and_mask {t : Tag} (h : t.isValid = true) :
    t.perturb.bits &&& TagIterRev.mask = t.bits := by
  have hlt := Tag.isValid_iff.1 h
  apply BitVec.eq_of_toNat_eq
  rw [toNat_and_mask]
  cases hchunk : t.ccrcChunk with
  | none =>
      rw [Tag.perturb, hchunk]
      exact Nat.mod_eq_of_lt hlt
  | some chunk =>
      rw [Tag.toNat_perturb h hchunk]
      omega

theorem and_mask_of_valid {t : Tag} (h : t.isValid = true) :
    t.bits &&& TagIterRev.mask = t.bits := by
  apply BitVec.eq_of_toNat_eq
  rw [toNat_and_mask]
  exact Nat.mod_eq_of_lt (Tag.isValid_iff.1 h)

theorem collect_rev_encode {rest : List Byte} (hes : ∀ e ∈ es, e.Sized)
    (h : block.drop 4 = encode .erased es ++ rest) {ntag : Tag}
    (hntag : ntag.bits &&& TagIterRev.mask = (baseAfter .erased es).bits &&& TagIterRev.mask)
    (fuel : ℕ) :
    TagIterRev.collect (es.length + fuel) ⟨block, 4 + runSize es, ntag⟩ = es.reverse := by
  induction es using List.reverseRecOn generalizing rest ntag fuel with
  | nil =>
      have hcur : (⟨ntag.bits &&& TagIterRev.mask⟩ : Tag).dsize = 4 := by
        rw [hntag]
        decide
      have hend : TagIterRev.next ⟨block, 4 + runSize [], ntag⟩ = none :=
        if_pos (by
          show 4 + 0 < 4 + (⟨ntag.bits &&& TagIterRev.mask⟩ : Tag).dsize
          omega)
      cases hfuel : ([] : List RawEntry).length + fuel with
      | zero => rfl
      | succ n =>
          rw [TagIterRev.collect, hend]
          rfl
  | append_singleton es e ih =>
      have he := hes e (List.mem_append_right _ (List.mem_singleton_self e))
      have hfirst : block.drop 4 = encode .erased es ++
          (encode (baseAfter .erased es) [e] ++ rest) := by
        rw [h, encode_append, List.append_assoc]
      have hdrop : block.drop (4 + runSize es) = encode (baseAfter .erased es) [e] ++ rest := by
        rw [← List.drop_drop, hfirst]
        exact List.drop_left' (length_encode _ _)
      -- the masked word is the tag
      have hcur : (⟨ntag.bits &&& TagIterRev.mask⟩ : Tag) = e.tag := by
        rw [hntag, baseAfter_append]
        show (⟨e.tag.perturb.bits &&& TagIterRev.mask⟩ : Tag) = e.tag
        rw [perturb_and_mask he.valid]
      have hsize : runSize (es ++ [e]) = runSize es + e.tag.dsize := by
        rw [runSize_append, runSize_cons, runSize_nil, he.size, Nat.add_zero]
      have hoff : 4 + runSize (es ++ [e]) - e.tag.dsize = 4 + runSize es := by
        rw [hsize]
        omega
      have hword : beWord (block.drop (4 + runSize es)) =
          e.tag.bits ^^^ (baseAfter .erased es).bits := by
        rw [hdrop, encode, List.append_assoc, List.append_assoc]
        exact beWord_toBe_append _ _
      have hnext : TagIterRev.next ⟨block, 4 + runSize (es ++ [e]), ntag⟩ =
          some (e, ⟨block, 4 + runSize es, ⟨(baseAfter .erased es).bits &&& TagIterRev.mask⟩⟩) := by
        have hroom : ¬ 4 + runSize (es ++ [e]) < 4 + e.tag.dsize := by
          rw [hsize]
          omega
        have hbase : (beWord (block.drop (4 + runSize es)) ^^^ ntag.bits) &&& TagIterRev.mask =
            (baseAfter .erased es).bits &&& TagIterRev.mask := by
          rw [hword, and_mask_xor, and_mask_xor, Tag.mk.inj hcur, and_mask_of_valid he.valid,
            BitVec.xor_comm e.tag.bits, BitVec.xor_assoc, BitVec.xor_self, BitVec.xor_zero]
        simp only [TagIterRev.next, hcur, if_neg hroom, hoff, bodyAt_encode he hdrop, hbase]
      have hlen : (es ++ [e]).length + fuel = es.length + fuel + 1 := by
        rw [List.length_append, List.length_singleton]
        omega
      have hmask : ((baseAfter .erased es).bits &&& TagIterRev.mask) &&& TagIterRev.mask =
          (baseAfter .erased es).bits &&& TagIterRev.mask := by
        rw [BitVec.and_assoc, BitVec.and_self]
      rw [hlen, TagIterRev.collect, hnext, List.reverse_append, List.reverse_singleton]
      show e :: TagIterRev.collect _ _ = e :: es.reverse
      rw [ih (fun e' he' => hes e' (List.mem_append_left _ he')) hfirst hmask fuel]

theorem collect_rev_no_commits (fuel : ℕ) :
    TagIterRev.collect fuel ⟨block, 0, .erased⟩ = [] := by
  have hend : TagIterRev.next ⟨block, 0, .erased⟩ = none :=
    if_pos (Nat.lt_add_right _ (by decide : 0 < 4))
  cases fuel with
  | zero => rfl
  | succ n => rw [TagIterRev.collect, hend]

/-- `iter_tags_rev` yields the tags from the end on. -/
theorem MetadataReader.Decodes.iterTagsRev (h : r.Decodes block es) :
    r.iterTagsRev = es.reverse := by
  obtain ⟨rest, himage⟩ := h.image
  rw [MetadataReader.iterTagsRev, h.bytes, h.committedEnd, h.nextPtag]
  by_cases hne : es = []
  · subst hne
    exact collect_rev_no_commits block.length
  · obtain ⟨more, hmore⟩ := Nat.exists_eq_add_of_le h.length_le
    rw [hmore, if_neg hne]
    exact collect_rev_encode h.sized himage rfl more

end Decodes

end LittlefsPure.Codec
