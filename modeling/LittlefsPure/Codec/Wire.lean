import LittlefsPure.Disk.Meta

/-!
# Tags on the wire

`tag.rs` and the word level of `meta.rs`, byte for byte.  `Tag` is the 32 bit word with
the fields the source reads from it; on the flash a tag is stored as the exclusive or
with the tag before it, most significant byte first, and its body follows.  `encode` is
the image of a run of tags.

The chain of exclusive ors restarts from the tag before, with one exception: behind a
commit CRC whose chunk is odd the valid bit is flipped, which is `Tag.perturb`.

## Why words are bit vectors here

The filesystem above reads fields, and a tag is three numbers there.  On the wire it is a word
that is combined with another one, and the fields of the combination are not combinations of the
fields that anyone would want to reason about.  So here a tag is its word, the fields are read from
it, and the two views meet in the lemmas about the fields of a word.
-/

namespace LittlefsPure.Codec

/-! ## Words -/

/-- `u32::to_be_bytes`. -/
def toBe (w : BitVec 32) : List Byte := be32 w.toNat

/-- `u32::from_be_bytes` on the first four bytes of a list. -/
def beWord (bytes : List Byte) : BitVec 32 := BitVec.ofNat 32 (ofBe32 bytes)

/-- `u32::to_le_bytes`. -/
def toLe (w : BitVec 32) : List Byte := le32 w.toNat

/-- `u32::from_le_bytes` on the first four bytes of a list. -/
def leWord (bytes : List Byte) : BitVec 32 := BitVec.ofNat 32 (ofLe32 bytes)

@[simp] theorem length_toBe (w : BitVec 32) : (toBe w).length = 4 := rfl

@[simp] theorem length_toLe (w : BitVec 32) : (toLe w).length = 4 := rfl

theorem ofBe32_be32_append {n : ℕ} (h : n < 2 ^ 32) (rest : List Byte) :
    ofBe32 (be32 n ++ rest) = n := by
  simp only [ofBe32, be32, le32, List.reverse_cons, List.reverse_nil, List.nil_append,
    List.cons_append, List.getD_cons_zero, List.getD_cons_succ, BitVec.toNat_ofNat]
  omega

theorem beWord_toBe_append (w : BitVec 32) (rest : List Byte) : beWord (toBe w ++ rest) = w := by
  rw [beWord, toBe, ofBe32_be32_append w.isLt, BitVec.ofNat_toNat, BitVec.setWidth_eq]

theorem leWord_toLe_append (w : BitVec 32) (rest : List Byte) : leWord (toLe w ++ rest) = w := by
  rw [leWord, toLe, ofLe32_le32_append w.isLt, BitVec.ofNat_toNat, BitVec.setWidth_eq]

theorem ofLe32_take (bytes : List Byte) {n : ℕ} (h : 4 ≤ n) :
    ofLe32 (bytes.take n) = ofLe32 bytes := by
  simp only [ofLe32, List.getD_eq_getElem?_getD, List.getElem?_take]
  rw [if_pos (by omega), if_pos (by omega), if_pos (by omega), if_pos (by omega)]

theorem leWord_take (bytes : List Byte) {n : ℕ} (h : 4 ≤ n) :
    leWord (bytes.take n) = leWord bytes := by
  rw [leWord, ofLe32_take bytes h, leWord]

/-! ## Tags -/

/-- `Tag`: the decoded word. -/
structure Tag where
  bits : BitVec 32
  deriving DecidableEq, Repr

/-- The bits of a type fill eleven bits. -/
theorem intoBits_lt {t : TagType} (h : t.InDomain) : t.intoBits < 0x800 := by
  cases t with
  | userAttr c =>
      have hc : c < 0x100 := h
      show 0x300 + c < 0x800
      omega
  | commitCrc c =>
      have hc : c < 0x80 := h
      show 0x500 + c < 0x800
      omega
  | unknown a c => exact h.elim
  | _ => decide

/-- Commit CRCs have the type bits from `0x500` to `0x57f`. -/
theorem fromBits_isCcrc {n : ℕ} (h : n < 0x500 ∨ 0x580 ≤ n ∧ n < 0x800) :
    (TagType.fromBits n).isCcrc = false := by
  have htype : n / 0x100 % 8 ≠ 5 ∨ ¬ n % 0x100 < 0x80 := by omega
  simp only [TagType.fromBits]
  split
  case h_6 h5 =>
    rcases htype with htype | htype
    · exact absurd h5 htype
    · rw [if_neg htype]
      split_ifs <;> rfl
  all_goals first | rfl | (split_ifs <;> rfl)

namespace Tag

/-- `Tag::new(true, ..)`. -/
def new (tagType : TagType) (id length : ℕ) : Tag :=
  ⟨BitVec.ofNat 32 (tagType.intoBits * 0x100000 + id % 0x400 * 0x400 + length % 0x400)⟩

/-- The word behind which a block starts: erased cells. -/
def erased : Tag := ⟨0xFFFFFFFF⟩

/-- `is_valid`. -/
def isValid (t : Tag) : Bool := decide (t.bits.toNat < 0x80000000)

/-- `type_bits`. -/
def typeBits (t : Tag) : ℕ := t.bits.toNat / 0x100000 % 0x800

/-- `tag_type`. -/
def tagType (t : Tag) : TagType := TagType.fromBits t.typeBits

/-- `id`. -/
def id (t : Tag) : ℕ := t.bits.toNat / 0x400 % 0x400

/-- `length`. -/
def length (t : Tag) : ℕ := t.bits.toNat % 0x400

/-- `body_len`. -/
def bodyLen (t : Tag) : ℕ := if t.length = lenSpecial then 0 else t.length

/-- `dsize`. -/
def dsize (t : Tag) : ℕ := 4 + t.bodyLen

/-- `is_ccrc`. -/
def isCcrc (t : Tag) : Bool := t.tagType.isCcrc

/-- `ccrc_chunk`. -/
def ccrcChunk (t : Tag) : Option ℕ :=
  match t.tagType with
  | .commitCrc c => some c
  | _ => none

/-- The base of the next tag: the tag itself, with the parity flip of a commit CRC. -/
def perturb (t : Tag) : Tag :=
  match t.ccrcChunk with
  | some chunk => ⟨t.bits ^^^ BitVec.ofNat 32 (chunk % 2 * 0x80000000)⟩
  | none => t

theorem isCcrc_iff {t : Tag} : t.isCcrc = true ↔ ∃ c, t.ccrcChunk = some c := by
  unfold isCcrc ccrcChunk
  cases t.tagType with
  | commitCrc c => exact ⟨fun _ => ⟨c, rfl⟩, fun _ => rfl⟩
  | _ => exact ⟨nofun, nofun⟩

theorem ccrcChunk_eq_none {t : Tag} (h : t.isCcrc = false) : t.ccrcChunk = none := by
  cases hc : t.ccrcChunk with
  | none => rfl
  | some c =>
      have hccrc := isCcrc_iff.2 ⟨c, hc⟩
      rw [h] at hccrc
      cases hccrc

theorem tagType_of_ccrcChunk {t : Tag} {c : ℕ} (h : t.ccrcChunk = some c) :
    t.tagType = .commitCrc c := by
  unfold ccrcChunk at h
  cases htype : t.tagType with
  | commitCrc c' =>
      rw [htype] at h
      cases h
      rfl
  | _ =>
      rw [htype] at h
      cases h

@[simp] theorem perturb_plain {t : Tag} (h : t.isCcrc = false) : t.perturb = t := by
  rw [perturb, ccrcChunk_eq_none h]

/-- Flipping the valid bit of a word that has it clear. -/
theorem xor_two_pow_31 {n : ℕ} (h : n < 2 ^ 31) : n ^^^ 2 ^ 31 = n + 2 ^ 31 := by
  have hor := Nat.two_pow_add_eq_or_of_lt h 1
  rw [Nat.mul_one] at hor
  rw [Nat.add_comm, hor]
  apply Nat.eq_of_testBit_eq
  intro i
  rw [Nat.testBit_xor, Nat.testBit_or, Nat.testBit_two_pow]
  by_cases hi : 31 = i
  · subst hi
    rw [Nat.testBit_lt_two_pow h]
    rfl
  · simp [hi]

theorem isValid_iff {t : Tag} : t.isValid = true ↔ t.bits.toNat < 0x80000000 := decide_eq_true_iff

/-- The base behind a commit CRC, as a number. -/
theorem toNat_perturb {t : Tag} (hvalid : t.isValid = true) {chunk : ℕ}
    (hchunk : t.ccrcChunk = some chunk) :
    t.perturb.bits.toNat = t.bits.toNat + chunk % 2 * 0x80000000 := by
  have hlt : t.bits.toNat < 2 ^ 31 := isValid_iff.1 hvalid
  rw [perturb, hchunk]
  show (t.bits ^^^ BitVec.ofNat 32 (chunk % 2 * 0x80000000)).toNat = _
  rw [BitVec.toNat_xor]
  rcases Nat.mod_two_eq_zero_or_one chunk with hc | hc
  · rw [hc]
    exact Nat.xor_zero _
  · rw [hc]
    exact xor_two_pow_31 hlt

theorem length_perturb {t : Tag} (hvalid : t.isValid = true) : t.perturb.length = t.length := by
  cases hchunk : t.ccrcChunk with
  | none => rw [perturb, hchunk]
  | some chunk =>
      have hnat := toNat_perturb hvalid hchunk
      rw [length, length, hnat]
      omega

theorem dsize_perturb {t : Tag} (hvalid : t.isValid = true) : t.perturb.dsize = t.dsize := by
  rw [dsize, dsize, bodyLen, bodyLen, length_perturb hvalid]

/-! ## The fields of a built tag -/

section New

variable {tagType : TagType} {id length : ℕ}

theorem toNat_new (h : tagType.InDomain) :
    (new tagType id length).bits.toNat =
      tagType.intoBits * 0x100000 + id % 0x400 * 0x400 + length % 0x400 := by
  have hbits := intoBits_lt h
  rw [new, BitVec.toNat_ofNat]
  omega

theorem isValid_new (h : tagType.InDomain) : (new tagType id length).isValid = true := by
  have hbits := intoBits_lt h
  rw [isValid_iff, toNat_new h]
  omega

theorem tagType_new (h : tagType.InDomain) : (new tagType id length).tagType = tagType := by
  have hbits := intoBits_lt h
  have htype : (new tagType id length).typeBits = tagType.intoBits := by
    rw [typeBits, toNat_new h]
    omega
  rw [Tag.tagType, htype, TagType.fromBits_intoBits h]

theorem bodyLen_new (h : tagType.InDomain) (hlen : length ≤ 0x3FE) :
    (new tagType id length).bodyLen = length := by
  have hlength : (new tagType id length).length = length := by
    rw [Tag.length, toNat_new h]
    omega
  have hne : length ≠ lenSpecial := by
    rw [lenSpecial]
    omega
  rw [bodyLen, hlength, if_neg hne]

end New

/-! ## Behind the last tag -/

/-- Behind a base with the valid bit clear, erased cells decode to an invalid tag. -/
theorem isValid_erased_of_valid {t : Tag} (h : t.isValid = true) :
    (Tag.mk (0xFFFFFFFF ^^^ t.bits)).isValid = false := by
  have hlt := isValid_iff.1 h
  have hnot : (0xFFFFFFFF ^^^ t.bits).toNat = 2 ^ 32 - 1 - t.bits.toNat := by
    rw [show (0xFFFFFFFF : BitVec 32) = BitVec.allOnes 32 from rfl, BitVec.allOnes_xor,
      BitVec.toNat_not]
  rw [isValid, hnot]
  exact decide_eq_false (by omega)

/-- Behind a base with the valid bit set, erased cells decode to a tag that closes no commit,
if the type bits of the base are not the complement of a commit CRC's. -/
theorem isCcrc_erased {t : Tag} (h : t.typeBits < 0x280 ∨ 0x300 ≤ t.typeBits) :
    (Tag.mk (0xFFFFFFFF ^^^ t.bits)).isCcrc = false := by
  have hnot : (0xFFFFFFFF ^^^ t.bits).toNat = 2 ^ 32 - 1 - t.bits.toNat := by
    rw [show (0xFFFFFFFF : BitVec 32) = BitVec.allOnes 32 from rfl, BitVec.allOnes_xor,
      BitVec.toNat_not]
  have hlt := t.bits.isLt
  have htype : (Tag.mk (0xFFFFFFFF ^^^ t.bits)).typeBits = 0x7FF - t.typeBits := by
    rw [typeBits, typeBits, hnot]
    omega
  rw [isCcrc, tagType, htype]
  refine fromBits_isCcrc ?_
  have hbits : t.typeBits < 0x800 := Nat.mod_lt _ (by decide)
  omega

/-- The base behind a commit CRC has the type bits of the commit CRC. -/
theorem typeBits_perturb {t : Tag} (hvalid : t.isValid = true) :
    t.perturb.typeBits = t.typeBits := by
  cases hchunk : t.ccrcChunk with
  | none => rw [perturb, hchunk]
  | some chunk =>
      have hnat := toNat_perturb hvalid hchunk
      rw [typeBits, typeBits, hnat]
      omega

end Tag

/-! ## Runs of tags -/

/-- A tag with the bytes of its body: the `TagEntry` of `meta.rs`. -/
structure RawEntry where
  tag : Tag
  body : List Byte
  deriving DecidableEq, Repr

namespace RawEntry

/-- The bytes an entry takes. -/
def size (e : RawEntry) : ℕ := 4 + e.body.length

/-- A tag that a builder takes: valid, not a commit CRC, with a body of its length. -/
structure Plain (e : RawEntry) : Prop where
  valid : e.tag.isValid = true
  notCcrc : e.tag.isCcrc = false
  body : e.body.length = e.tag.bodyLen

theorem Plain.size {e : RawEntry} (h : e.Plain) : e.size = e.tag.dsize := by
  rw [RawEntry.size, h.body, Tag.dsize]

end RawEntry

/-- The bytes a run of entries takes. -/
def runSize (es : List RawEntry) : ℕ := (es.map RawEntry.size).sum

@[simp] theorem runSize_nil : runSize [] = 0 := rfl

@[simp] theorem runSize_cons (e : RawEntry) (es : List RawEntry) :
    runSize (e :: es) = e.size + runSize es := by
  simp [runSize]

@[simp] theorem runSize_append (es fs : List RawEntry) :
    runSize (es ++ fs) = runSize es + runSize fs := by
  simp [runSize]

/-- The base behind a run of entries. -/
def baseAfter (ptag : Tag) : List RawEntry → Tag
  | [] => ptag
  | e :: es => baseAfter e.tag.perturb es

/-- The image of a run of entries. -/
def encode (ptag : Tag) : List RawEntry → List Byte
  | [] => []
  | e :: es => toBe (e.tag.bits ^^^ ptag.bits) ++ e.body ++ encode e.tag.perturb es

theorem baseAfter_append (ptag : Tag) (es fs : List RawEntry) :
    baseAfter ptag (es ++ fs) = baseAfter (baseAfter ptag es) fs := by
  induction es generalizing ptag with
  | nil => rfl
  | cons e es ih => exact ih _

theorem encode_append (ptag : Tag) (es fs : List RawEntry) :
    encode ptag (es ++ fs) = encode ptag es ++ encode (baseAfter ptag es) fs := by
  induction es generalizing ptag with
  | nil => rfl
  | cons e es ih => simp only [List.cons_append, encode, baseAfter, ih, List.append_assoc]

@[simp] theorem length_encode (ptag : Tag) (es : List RawEntry) :
    (encode ptag es).length = runSize es := by
  induction es generalizing ptag with
  | nil => rfl
  | cons e es ih =>
      simp only [encode, List.length_append, length_toBe, ih, runSize_cons, RawEntry.size]

end LittlefsPure.Codec
