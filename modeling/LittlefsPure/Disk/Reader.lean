import LittlefsPure.Disk.Device

/-!
# The tag loop of the reader

How `readTags` goes on from one tag word, one lemma for each way the loop can turn:
it stops, it takes in a tag, it closes a commit.  Erased cells make it stop before the
first commit.

## Why three lemmas and no more

The loop of the reader has a branch for every way a block may be damaged, and most proofs
concern blocks that are not.  These lemmas are the turns that a whole log takes; a proof about a
log is an induction on its commits that uses them by name and never unfolds the loop.
-/

namespace LittlefsPure

/-- The body length of a decoded tag word. -/
def bodyLenOf (decoded : ℕ) : ℕ :=
  if decoded % 0x400 = lenSpecial then 0 else decoded % 0x400

/-- The type of a decoded tag word. -/
def typeOf (decoded : ℕ) : TagType := TagType.fromBits (decoded / 0x100000 % 0x800)

/-- The tag that a decoded word and the bytes behind it make. -/
def entryOf (decoded : ℕ) (behind : List Byte) : TagEntry :=
  ⟨typeOf decoded, decoded / 0x400 % 0x400,
    if decoded % 0x400 = lenSpecial then .removed else .bytes (behind.take (bodyLenOf decoded))⟩

/-- The window a tag describes, if it is a forward CRC. -/
def fcrcOf (decoded : ℕ) (behind : List Byte) (fcrc : Option (ℕ × ℕ)) : Option (ℕ × ℕ) :=
  if typeOf decoded = .forwardCrc ∧ 8 ≤ bodyLenOf decoded then
    some (ofLe32 (behind.take (bodyLenOf decoded)),
      ofLe32 ((behind.take (bodyLenOf decoded)).drop 4))
  else fcrc

section Loop

variable {fuel len ptag w : ℕ} {rest : List Byte} {crc : BitVec 32} {pending : List TagEntry}
  {fcrc : Option (ℕ × ℕ)} {acc : ReadSoFar}

theorem readTags_short (h : len < 4) :
    readTags fuel rest len ptag crc pending fcrc acc = acc := by
  cases fuel with
  | zero => rfl
  | succ fuel => rw [readTags, if_pos h]

theorem readTags_invalid (hw : Nat.xor (ofBe32 rest) ptag = w) (h : 0x80000000 ≤ w) :
    readTags fuel rest len ptag crc pending fcrc acc = acc := by
  cases fuel with
  | zero => rfl
  | succ fuel =>
      rw [readTags]
      simp only [hw, h, if_true, ite_self]

theorem readTags_overrun (hw : Nat.xor (ofBe32 rest) ptag = w) (h : len < 4 + bodyLenOf w) :
    readTags fuel rest len ptag crc pending fcrc acc = acc := by
  cases fuel with
  | zero => rfl
  | succ fuel =>
      unfold bodyLenOf at h
      rw [readTags]
      simp only [hw, h, if_true, ite_self]

/-- A tag that is not a commit CRC is taken in. -/
theorem readTags_tag (hw : Nat.xor (ofBe32 rest) ptag = w) (h4 : 4 ≤ len) (hvalid : w < 0x80000000)
    (hlen : 4 + bodyLenOf w ≤ len) (htype : (typeOf w).isCcrc = false) :
    readTags (fuel + 1) rest len ptag crc pending fcrc acc =
      readTags fuel (rest.drop (4 + bodyLenOf w)) (len - (4 + bodyLenOf w)) w
        (Crc.update (Crc.update crc (rest.take 4)) ((rest.drop 4).take (bodyLenOf w)))
        (pending ++ [entryOf w (rest.drop 4)]) (fcrcOf w (rest.drop 4) fcrc) acc := by
  rw [readTags]
  simp only [hw, if_neg (Nat.not_lt_of_le h4), if_neg (Nat.not_le_of_lt hvalid)]
  have hlen' : ¬ len < 4 + if w % 0x400 = lenSpecial then 0 else w % 0x400 := Nat.not_lt_of_le hlen
  rw [if_neg hlen']
  unfold typeOf at htype
  cases ht : TagType.fromBits (w / 0x100000 % 0x800) with
  | commitCrc chunk =>
      rw [ht] at htype
      cases htype
  | _ => simp only [entryOf, fcrcOf, typeOf, bodyLenOf, ht]

/-- A commit CRC that agrees closes the commit. -/
theorem readTags_ccrc {chunk : ℕ} (hw : Nat.xor (ofBe32 rest) ptag = w) (h4 : 4 ≤ len)
    (hvalid : w < 0x80000000) (hlen : 4 + bodyLenOf w ≤ len) (htype : typeOf w = .commitCrc chunk)
    (hbody : 4 ≤ bodyLenOf w)
    (hcrc : (Crc.update crc (rest.take 4)).toNat = ofLe32 ((rest.drop 4).take (bodyLenOf w))) :
    readTags (fuel + 1) rest len ptag crc pending fcrc acc =
      readTags fuel (rest.drop (4 + bodyLenOf w)) (len - (4 + bodyLenOf w))
        (Nat.xor w (chunk % 2 * 0x80000000)) Crc.init [] none
        ⟨acc.tags ++ pending ++ [⟨.commitCrc chunk, w / 0x400 % 0x400, .checksum (bodyLenOf w)⟩],
          fcrc, rest.drop (4 + bodyLenOf w), len - (4 + bodyLenOf w)⟩ := by
  unfold typeOf at htype
  unfold bodyLenOf at hlen hbody hcrc ⊢
  rw [readTags]
  simp only [hw, if_neg (Nat.not_lt_of_le h4), if_neg (Nat.not_le_of_lt hvalid),
    if_neg (Nat.not_lt_of_le hlen), htype, if_neg (Nat.not_lt_of_le hbody), hcrc, ne_eq,
    not_true_eq_false, if_false]

/-- A commit CRC without room for a checksum ends the log. -/
theorem readTags_shortBody {chunk : ℕ} (hw : Nat.xor (ofBe32 rest) ptag = w)
    (htype : typeOf w = .commitCrc chunk) (hbody : bodyLenOf w < 4) :
    readTags fuel rest len ptag crc pending fcrc acc = acc := by
  cases fuel with
  | zero => rfl
  | succ fuel =>
      unfold typeOf at htype
      unfold bodyLenOf at hbody
      rw [readTags]
      simp only [hw, htype, if_pos hbody, ite_self]

/-- A commit CRC that does not agree ends the log. -/
theorem readTags_mismatch {chunk : ℕ} (hw : Nat.xor (ofBe32 rest) ptag = w)
    (htype : typeOf w = .commitCrc chunk)
    (hcrc : (Crc.update crc (rest.take 4)).toNat ≠ ofLe32 ((rest.drop 4).take (bodyLenOf w))) :
    readTags fuel rest len ptag crc pending fcrc acc = acc := by
  cases fuel with
  | zero => rfl
  | succ fuel =>
      unfold typeOf at htype
      unfold bodyLenOf at hcrc
      rw [readTags]
      simp only [hw, htype, if_pos hcrc, ite_self]

end Loop

/-! ## Erased cells -/

theorem ofBe32_erased (n : ℕ) : ofBe32 (List.replicate (n + 4) 0xFF) = 0xFFFFFFFF := by
  simp [ofBe32, List.replicate_succ]

/-- Erased cells hold no commit: the first word reads as a tag of no type, and under it the
second is not one. -/
theorem readTags_erased (fuel : ℕ) {n len : ℕ} (hlen : len ≤ n) (crc : BitVec 32)
    (acc : ReadSoFar) :
    readTags fuel (List.replicate n 0xFF) len 0xFFFFFFFF crc [] none acc = acc := by
  have hsecond : ∀ fuel n len crc pending fcrc, len ≤ n →
      readTags fuel (List.replicate n 0xFF) len 0 crc pending fcrc acc = acc := by
    intro fuel n len crc pending fcrc hlen
    by_cases h4 : len < 4
    · exact readTags_short h4
    · obtain ⟨m, rfl⟩ : ∃ m, n = m + 4 := ⟨n - 4, by omega⟩
      refine readTags_invalid (w := 0xFFFFFFFF) ?_ (by omega)
      rw [ofBe32_erased]
      exact Nat.xor_zero _
  cases fuel with
  | zero => rfl
  | succ fuel =>
      by_cases h4 : len < 4
      · exact readTags_short h4
      · obtain ⟨m, rfl⟩ : ∃ m, n = m + 4 := ⟨n - 4, by omega⟩
        have hw : Nat.xor (ofBe32 (List.replicate (m + 4) 0xFF)) 0xFFFFFFFF = 0 := by
          rw [ofBe32_erased]
          exact Nat.xor_self _
        rw [readTags_tag hw (by omega) (by omega) (by show 4 + 0 ≤ len; omega) rfl]
        have hdrop : (List.replicate (m + 4) (0xFF : Byte)).drop (4 + bodyLenOf 0) =
            List.replicate m 0xFF := by
          show (List.replicate (m + 4) (0xFF : Byte)).drop 4 = _
          rw [List.drop_replicate, Nat.add_sub_cancel]
        rw [hdrop]
        exact hsecond _ _ _ _ _ _ (by show len - 4 ≤ m; omega)

/-- A block with no more than four bytes before the erased cells has no commit. -/
theorem Block.reader_short (g : Geometry) {bs : List Byte} (h : bs.length ≤ 4) :
    ((Block.raw bs).reader g).hasCommits = false := by
  have hdrop : (bs ++ List.replicate (g.blockSize - bs.length) 0xFF).drop 4 =
      List.replicate (g.blockSize - bs.length - (4 - bs.length)) (0xFF : Byte) := by
    rw [List.drop_append, List.drop_eq_nil_of_le h, List.nil_append, List.drop_replicate]
  have htags : ((Block.raw bs).reader g).tags = [] := by
    simp only [Block.reader, MetadataLog.ofBytes, hdrop]
    rw [readTags_erased _ (by omega)]
  rw [MetadataLog.hasCommits, htags]
  rfl

end LittlefsPure
