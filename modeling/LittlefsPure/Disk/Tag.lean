import LittlefsPure.Disk.Basic

/-!
# Metadata tags

`tag.rs`.  A tag is a 32 bit word: a valid bit, an eleven bit type, a ten bit id
and a ten bit length.  `TagType` is the type field, and `Tag` the decoded word
with its three fields apart; `Tag.word` is the 32 bit value.

A length of `0x3ff` is the deletion sentinel and carries no body.  A tag's
body is kept as it was built, in whole words or in bytes, because the code that
reads a pair address or a file head back reads it in words; `Body.bytes` is what
lies on the device.
-/

namespace LittlefsPure

/-- One byte of a block. -/
abbrev Byte := BitVec 8

/-- The four bytes of a `u32`, least significant first. -/
def le32 (n : ℕ) : List Byte :=
  [BitVec.ofNat 8 n, BitVec.ofNat 8 (n / 0x100), BitVec.ofNat 8 (n / 0x10000),
    BitVec.ofNat 8 (n / 0x1000000)]

/-- `u32::from_le_bytes` on the first four bytes of a list; a missing byte reads
as zero, and every caller checks the length first. -/
def ofLe32 (bytes : List Byte) : ℕ :=
  (bytes.getD 0 0).toNat + 0x100 * (bytes.getD 1 0).toNat +
    0x10000 * (bytes.getD 2 0).toNat + 0x1000000 * (bytes.getD 3 0).toNat

theorem ofLe32_le32_append {n : ℕ} (h : n < 2 ^ 32) (rest : List Byte) :
    ofLe32 (le32 n ++ rest) = n := by
  simp only [ofLe32, le32, List.cons_append, List.getD_cons_zero, List.getD_cons_succ,
    BitVec.toNat_ofNat]
  omega

/-! ## Tag types -/

/-- The tag types of the on-disk format. -/
inductive TagType where
  | regularFile
  | directory
  | superblock
  | fromMove
  | fromUserAttrs
  | dirStruct
  | inlineStruct
  | ctzStruct
  | userAttr (chunk : ℕ)
  | create
  | delete
  | commitCrc (chunk : ℕ)
  | forwardCrc
  | softTail
  | hardTail
  | moveState
  | relocateState
  | unknown (abstractType chunk : ℕ)
  deriving DecidableEq, Repr

namespace TagType

/-- `from_bits`: decode the eleven bit type field. -/
def fromBits (typeField : ℕ) : TagType :=
  let chunk := typeField % 0x100
  match typeField / 0x100 % 8 with
  | 0 =>
      if chunk = 0x01 then .regularFile else if chunk = 0x02 then .directory
      else if chunk = 0xff then .superblock else .unknown 0 chunk
  | 1 =>
      if chunk = 0x01 then .fromMove else if chunk = 0x02 then .fromUserAttrs
      else .unknown 1 chunk
  | 2 =>
      if chunk = 0x00 then .dirStruct else if chunk = 0x01 then .inlineStruct
      else if chunk = 0x02 then .ctzStruct else .unknown 2 chunk
  | 3 => .userAttr chunk
  | 4 =>
      if chunk = 0x01 then .create else if chunk = 0xff then .delete else .unknown 4 chunk
  | 5 =>
      if chunk < 0x80 then .commitCrc chunk else if chunk = 0xff then .forwardCrc
      else .unknown 5 chunk
  | 6 =>
      if chunk = 0x00 then .softTail else if chunk = 0x01 then .hardTail else .unknown 6 chunk
  | a =>
      if chunk = 0xff then .moveState else if chunk = 0xfe then .relocateState
      else .unknown a chunk

/-- `into_bits`: the eleven bit type field. -/
def intoBits : TagType → ℕ
  | .regularFile => 0x001
  | .directory => 0x002
  | .superblock => 0x0ff
  | .fromMove => 0x101
  | .fromUserAttrs => 0x102
  | .dirStruct => 0x200
  | .inlineStruct => 0x201
  | .ctzStruct => 0x202
  | .userAttr c => 0x300 + c
  | .create => 0x401
  | .delete => 0x4ff
  | .commitCrc c => 0x500 + c
  | .forwardCrc => 0x5ff
  | .softTail => 0x600
  | .hardTail => 0x601
  | .moveState => 0x7ff
  | .relocateState => 0x7fe
  | .unknown a c => 0x100 * a + c

/-- The chunk of a parametrised type lies in the range its bits can hold. -/
def InDomain : TagType → Prop
  | .userAttr c => c < 0x100
  | .commitCrc c => c < 0x80
  | .unknown _ _ => False
  | _ => True

/-- Decoding undoes encoding on the types the writer uses. -/
theorem fromBits_intoBits {t : TagType} (h : t.InDomain) : fromBits t.intoBits = t := by
  cases t with
  | userAttr c =>
      have hc : c < 0x100 := h
      have h1 : (0x300 + c) / 0x100 % 8 = 3 := by omega
      have h2 : (0x300 + c) % 0x100 = c := by omega
      simp only [intoBits, fromBits, h1, h2]
  | commitCrc c =>
      have hc : c < 0x80 := h
      have h1 : (0x500 + c) / 0x100 % 8 = 5 := by omega
      have h2 : (0x500 + c) % 0x100 = c := by omega
      simp only [intoBits, fromBits, h1, h2, if_pos hc]
  | unknown a c => exact h.elim
  | _ => rfl

/-- A NAME tag: the three types that give an entry its name. -/
def isName : TagType → Bool
  | .regularFile | .directory | .superblock => true
  | _ => false

/-- A STRUCT tag: the three types that give an entry its content. -/
def isStruct : TagType → Bool
  | .dirStruct | .inlineStruct | .ctzStruct => true
  | _ => false

/-- A tail tag. -/
def isTail : TagType → Bool
  | .softTail | .hardTail => true
  | _ => false

/-- `is_ccrc`. -/
def isCcrc : TagType → Bool
  | .commitCrc _ => true
  | _ => false

end TagType

/-- `ID_NONE`, the id of a tag that belongs to no entry. -/
def idNone : ℕ := 0x3ff

/-- `LEN_SPECIAL`, the length of a deletion marker. -/
def lenSpecial : ℕ := 0x3ff

/-! ## Bodies -/

/-- The body of a tag, as it was built. -/
inductive Body where
  /-- A byte string: a name, a file's inline content, an attribute value. -/
  | bytes (bytes : List Byte)
  /-- Little endian words: a pair, a chain head and size, a state delta. -/
  | words (words : List ℕ)
  /-- No body, under the deletion length. -/
  | removed
  /-- The checksum a commit ends with, padded to a length. -/
  | checksum (length : ℕ)
  deriving DecidableEq, Repr

namespace Body

/-- `body_len`. -/
def length : Body → ℕ
  | .bytes bs => bs.length
  | .words ws => 4 * ws.length
  | .removed => 0
  | .checksum n => n

/-- The bytes a name is compared by. -/
def content : Body → List Byte
  | .bytes bs => bs
  | .words ws => ws.flatMap le32
  | .removed => []
  | .checksum _ => []

/-- The little endian word that starts at byte `4 * i`. -/
def word (body : Body) (i : ℕ) : ℕ :=
  match body with
  | .bytes bs => ofLe32 (bs.drop (4 * i))
  | .words ws => ws.getD i 0
  | .removed => 0
  | .checksum _ => 0

/-- A body of eight bytes read as a pair address. -/
def pair (body : Body) : BlockPair := ⟨body.word 0, body.word 1⟩

/-- The body of a tag that names a pair. -/
def ofPair (p : BlockPair) : Body := .words [p.a, p.b]

@[simp] theorem length_ofPair (p : BlockPair) : (ofPair p).length = 8 := rfl

@[simp] theorem pair_ofPair (p : BlockPair) : (ofPair p).pair = p := rfl

end Body

/-! ## Tags -/

/-- A decoded tag with its body: the `TagEntry` of `meta.rs`. -/
structure TagEntry where
  tagType : TagType
  id : ℕ
  body : Body
  deriving DecidableEq, Repr

namespace TagEntry

/-- `dsize`: the tag word and the body. -/
def dsize (t : TagEntry) : ℕ := 4 + t.body.length

/-- The ten bit length field. -/
def lengthField (t : TagEntry) : ℕ :=
  match t.body with
  | .removed => lenSpecial
  | body => body.length % 0x400

/-- The 32 bit tag word, `Tag::new(true, ..)`. -/
def word (t : TagEntry) : ℕ :=
  t.tagType.intoBits * 0x100000 + t.id % 0x400 * 0x400 + t.lengthField

end TagEntry

end LittlefsPure
