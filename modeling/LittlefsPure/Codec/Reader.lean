import LittlefsPure.Codec.Wire

/-!
# The reader

`MetadataReader::new`, `iter_tags` and `iter_tags_rev`, on the bytes of a block.  The three
tag loops of the source read the next tag alike, from the offset of the tag before and the
running base; `nextTag` is that common start, and each loop has its own body.  The loops run on
a bound that no block exceeds, as each turn moves on by at least four bytes.
-/

namespace LittlefsPure.Codec

/-- The start of a tag loop: the offset of the next tag and the decoded tag.  There is none
where less than a word is left, behind the log, and where the body runs past the limit. -/
def nextTag (block : List Byte) (limit off : ℕ) (ptag : Tag) : Option (ℕ × Tag) :=
  let off := off + ptag.dsize
  if limit < off + 4 then none
  else
    let tag : Tag := ⟨beWord (block.drop off) ^^^ ptag.bits⟩
    if tag.isValid then
      if limit < off + tag.dsize then none else some (off, tag)
    else none

/-- The body of a tag at an offset. -/
def bodyAt (block : List Byte) (off : ℕ) (tag : Tag) : List Byte :=
  (block.drop (off + 4)).take tag.bodyLen

/-- The window a forward CRC describes: its size and the checksum of its erased state. -/
def fcrcWindow (tag : Tag) (body : List Byte) (pending : Option (ℕ × BitVec 32)) :
    Option (ℕ × BitVec 32) :=
  if tag.tagType = .forwardCrc ∧ 8 ≤ tag.bodyLen then
    some (ofLe32 body, leWord (body.drop 4))
  else pending

/-- The variables of the loop of `MetadataReader::new`. -/
structure Walk where
  off : ℕ
  ptag : Tag
  runningCrc : BitVec 32
  committedEnd : ℕ
  nextPtag : Tag
  pendingFcrc : Option (ℕ × BitVec 32)
  lastFcrc : Option (ℕ × BitVec 32)
  deriving DecidableEq

namespace Walk

/-- The variables before the loop. -/
def start (block : List Byte) : Walk where
  off := 0
  ptag := .erased
  runningCrc := Crc.update Crc.init (block.take 4)
  committedEnd := 0
  nextPtag := .erased
  pendingFcrc := none
  lastFcrc := none

/-- A tag that is not a commit CRC. -/
def pass (w : Walk) (off : ℕ) (tag : Tag) (crc : BitVec 32) (body : List Byte) : Walk :=
  { w with
    off := off
    ptag := tag
    runningCrc := Crc.update crc body
    pendingFcrc := fcrcWindow tag body w.pendingFcrc }

/-- A commit CRC that verifies. -/
def verify (w : Walk) (off : ℕ) (tag : Tag) : Walk where
  off := off
  ptag := tag.perturb
  runningCrc := Crc.init
  committedEnd := off + tag.dsize
  nextPtag := tag.perturb
  pendingFcrc := none
  lastFcrc := w.pendingFcrc

end Walk

/-- The loop of `MetadataReader::new`. -/
def walk (block : List Byte) : ℕ → Walk → Walk
  | 0, w => w
  | fuel + 1, w =>
      match nextTag block block.length w.off w.ptag with
      | none => w
      | some (off, tag) =>
          let crc := Crc.update w.runningCrc ((block.drop off).take 4)
          if tag.isCcrc then
            if tag.bodyLen < 4 then w
            else if crc ≠ leWord (block.drop (off + 4)) then w
            else walk block fuel (w.verify off tag)
          else walk block fuel (w.pass off tag crc (bodyAt block off tag))

/-- `scan_for_tail`, up to its resolution: the latest tail tag of eight bytes. -/
def latestTail (block : List Byte) (committedEnd : ℕ) :
    ℕ → ℕ → Tag → Option (BlockPair × Bool) → Option (BlockPair × Bool)
  | 0, _, _, latest => latest
  | fuel + 1, off, ptag, latest =>
      match nextTag block committedEnd off ptag with
      | none => latest
      | some (off, tag) =>
          latestTail block committedEnd fuel off tag.perturb
            (if tag.tagType.isTail ∧ tag.bodyLen = 8 then
              some (⟨ofLe32 (block.drop (off + 4)), ofLe32 (block.drop (off + 8))⟩,
                decide (tag.tagType = .hardTail))
            else latest)

/-- The resolution of `scan_for_tail`: the null sentinel reads as no tail. -/
def resolveTail : Option (BlockPair × Bool) → Option BlockPair × Bool
  | some (p, hard) => if p.isNull then (none, false) else (some p, hard)
  | none => (none, false)

/-- `scan_for_tail`. -/
def scanForTail (block : List Byte) (committedEnd : ℕ) : Option BlockPair × Bool :=
  resolveTail (latestTail block committedEnd block.length 0 .erased none)

/-- `MetadataReader`. -/
structure MetadataReader where
  block : List Byte
  revision : BitVec 32
  committedEnd : ℕ
  nextPtag : Tag
  tail : Option BlockPair
  isHardTail : Bool
  erased : Bool
  deriving DecidableEq

namespace MetadataReader

/-- Whether the window behind the last commit is as its forward CRC says. -/
def windowErased (block : List Byte) (w : Walk) : Bool :=
  match w.lastFcrc with
  | some (size, expected) =>
      decide (w.committedEnd + size ≤ block.length) &&
        decide (Crc.update Crc.init ((block.drop w.committedEnd).take size) = expected)
  | none => false

/-- `MetadataReader::new`. -/
def new (block : List Byte) : Except Error MetadataReader :=
  if block.length < 4 then .error .corrupt
  else
    let w := walk block block.length (.start block)
    let tail := scanForTail block w.committedEnd
    .ok {
      block := block
      revision := leWord block
      committedEnd := w.committedEnd
      nextPtag := w.nextPtag
      tail := tail.1
      isHardTail := tail.2
      erased := windowErased block w }

/-- `has_commits`. -/
def hasCommits (r : MetadataReader) : Bool := decide (0 < r.committedEnd)

end MetadataReader

/-- `TagIter`. -/
structure TagIter where
  block : List Byte
  offset : ℕ
  stop : ℕ
  ptag : Tag

namespace TagIter

/-- `TagIter::next`. -/
def next (it : TagIter) : Option (RawEntry × TagIter) :=
  (nextTag it.block it.stop it.offset it.ptag).map fun (off, tag) =>
    (⟨tag, bodyAt it.block off tag⟩, { it with offset := off, ptag := tag.perturb })

/-- What the iterator yields, for at most `fuel` tags. -/
def collect : ℕ → TagIter → List RawEntry
  | 0, _ => []
  | fuel + 1, it =>
      match it.next with
      | none => []
      | some (e, it) => e :: collect fuel it

end TagIter

/-- `iter_tags`, to its end. -/
def MetadataReader.iterTags (r : MetadataReader) : List RawEntry :=
  TagIter.collect r.block.length ⟨r.block, 0, r.committedEnd, .erased⟩

/-- `TagIterRev`. -/
structure TagIterRev where
  block : List Byte
  off : ℕ
  ntag : Tag

namespace TagIterRev

/-- The mask that takes the valid bit off a word. -/
def mask : BitVec 32 := 0x7FFFFFFF

/-- `TagIterRev::next`. -/
def next (it : TagIterRev) : Option (RawEntry × TagIterRev) :=
  let cur : Tag := ⟨it.ntag.bits &&& mask⟩
  if it.off < 4 + cur.dsize then none
  else
    let off := it.off - cur.dsize
    some (⟨cur, bodyAt it.block off cur⟩,
      { it with off := off, ntag := ⟨(beWord (it.block.drop off) ^^^ it.ntag.bits) &&& mask⟩ })

/-- What the iterator yields, for at most `fuel` tags. -/
def collect : ℕ → TagIterRev → List RawEntry
  | 0, _ => []
  | fuel + 1, it =>
      match it.next with
      | none => []
      | some (e, it) => e :: collect fuel it

end TagIterRev

/-- `iter_tags_rev`, to its end. -/
def MetadataReader.iterTagsRev (r : MetadataReader) : List RawEntry :=
  TagIterRev.collect r.block.length ⟨r.block, r.committedEnd, r.nextPtag⟩

/-! ## Metadata pairs -/

/-- `MetadataPair`. -/
structure MetadataPair where
  activeBlock : ℕ
  alternateBlock : ℕ
  reader : MetadataReader
  alternateValid : Bool
  deriving DecidableEq

/-- `rev_scmp`. -/
def revScmp (a b : BitVec 32) : ℤ := (a - b).toInt

/-- `MetadataPair::parse`, behind the two readers. -/
def MetadataPair.choose (addrA : ℕ) (a : MetadataReader) (addrB : ℕ) (b : MetadataReader) :
    Except Error MetadataPair :=
  let aIsNewer := decide (0 ≤ revScmp a.revision b.revision)
  let (primary, primaryAddr, secondary, secondaryAddr) :=
    if aIsNewer then (a, addrA, b, addrB) else (b, addrB, a, addrA)
  if primary.hasCommits then .ok ⟨primaryAddr, secondaryAddr, primary, secondary.hasCommits⟩
  else if secondary.hasCommits then .ok ⟨secondaryAddr, primaryAddr, secondary, false⟩
  else .error .corrupt

/-- `MetadataPair::parse`. -/
def MetadataPair.parse (addrA : ℕ) (blockA : List Byte) (addrB : ℕ) (blockB : List Byte) :
    Except Error MetadataPair := do
  let a ← MetadataReader.new blockA
  let b ← MetadataReader.new blockB
  MetadataPair.choose addrA a addrB b

/-- The test of the log level is the one on words. -/
theorem revNotOlder_eq (a b : BitVec 32) :
    revNotOlder a.toNat b.toNat = decide (0 ≤ revScmp a b) := by
  have ha := a.isLt
  have hb := b.isLt
  have hsub : (a - b).toNat = (a.toNat % 2 ^ 32 + (2 ^ 32 - b.toNat % 2 ^ 32)) % 2 ^ 32 := by
    rw [BitVec.toNat_sub, Nat.mod_eq_of_lt ha, Nat.mod_eq_of_lt hb, Nat.add_comm]
  have hsign : 0 ≤ (a - b).toInt ↔ (a - b).toNat < 2 ^ 31 := by
    rw [BitVec.toInt_eq_toNat_cond]
    have hlt := (a - b).isLt
    split_ifs <;> omega
  rw [revNotOlder, revScmp, ← hsub]
  exact decide_eq_decide.2 hsign.symm

end LittlefsPure.Codec
