import LittlefsPure.Disk.Crc

/-!
# Metadata logs

`meta.rs`.  A metadata block is a revision word followed by commits, each a run
of tags closed by a checksum tag.  `MetadataLog` is what the reader makes of a
block: the revision, the tags of the verified commits in order, and whether the
window behind the last commit is still erased.

The filesystem above never sees the XOR chain, the checksums or the padding, so
the device of this development stores a metadata block as the log its writer
built, and `MetadataLog.bytes` is its image on the flash.  A block that holds
anything else, in particular file content that happens to spell a commit, is
stored as bytes and goes through `MetadataLog.ofBytes`, the byte level
reader.

The commit builder works on offsets and tags: `Commit.tag` refuses what the
source's builder refuses, and `Commit.finishPadded` closes the commit with the
padding the program size asks for.
-/

namespace LittlefsPure

/-- The parsed content of a metadata block. -/
structure MetadataLog where
  revision : ℕ
  /-- The tags of the verified commits, checksum tags included, oldest first. -/
  tags : List TagEntry
  /-- The window behind the last commit is still in its erased state. -/
  erased : Bool
  deriving DecidableEq, Repr

/-- The bytes a run of tags occupies. -/
def tagsSize (tags : List TagEntry) : ℕ := (tags.map TagEntry.dsize).sum

@[simp] theorem tagsSize_nil : tagsSize [] = 0 := rfl

@[simp] theorem tagsSize_cons (t : TagEntry) (ts : List TagEntry) :
    tagsSize (t :: ts) = t.dsize + tagsSize ts := by
  simp [tagsSize]

@[simp] theorem tagsSize_append (ts us : List TagEntry) :
    tagsSize (ts ++ us) = tagsSize ts + tagsSize us := by
  simp [tagsSize]

namespace MetadataLog

/-- `has_commits`. -/
def hasCommits (l : MetadataLog) : Bool := !l.tags.isEmpty

/-- `committed_end`: the offset behind the last verified commit, zero when there
is none. -/
def committedEnd (l : MetadataLog) : ℕ := if l.tags.isEmpty then 0 else 4 + tagsSize l.tags

/-- The latest tail tag, as `scan_for_tail` finds it: the pair and whether the tag
is a hard tail. -/
def scanForTail : List TagEntry → Option (BlockPair × Bool)
  | [] => none
  | t :: ts =>
      match scanForTail ts with
      | some later => some later
      | none =>
          if t.tagType.isTail && t.body.length == 8 then
            some (t.body.pair, t.tagType == .hardTail)
          else none

/-- `tail` and `is_hard_tail` together: the null sentinel is thread end. -/
def tailLink (l : MetadataLog) : Option (BlockPair × Bool) :=
  match scanForTail l.tags with
  | some (p, hard) => if p.isNull then none else some (p, hard)
  | none => none

/-- `tail`. -/
def tail (l : MetadataLog) : Option BlockPair := l.tailLink.map Prod.fst

/-- `is_hard_tail`. -/
def isHardTail (l : MetadataLog) : Bool :=
  match l.tailLink with
  | some (_, hard) => hard
  | none => false

end MetadataLog

/-! ## The byte level reader -/

/-- `u32::from_be_bytes` on the first four bytes of a list. -/
def ofBe32 (bytes : List Byte) : ℕ :=
  (bytes.getD 3 0).toNat + 0x100 * (bytes.getD 2 0).toNat +
    0x10000 * (bytes.getD 1 0).toNat + 0x1000000 * (bytes.getD 0 0).toNat

/-- What `MetadataReader::new` has verified so far. -/
structure ReadSoFar where
  /-- The tags of the verified commits. -/
  tags : List TagEntry
  /-- The window the last verified commit describes: its size and its checksum. -/
  fcrc : Option (ℕ × ℕ)
  /-- What follows the last verified commit: bytes, and how many there are. -/
  rest : List Byte
  restLength : ℕ

/-- The tag loop of `MetadataReader::new`, from the byte list `rest` of length
`len` on.  `pending` holds the tags of the commit in progress. -/
def readTags : ℕ → List Byte → ℕ → ℕ → BitVec 32 → List TagEntry → Option (ℕ × ℕ) →
    ReadSoFar → ReadSoFar
  | 0, _, _, _, _, _, _, acc => acc
  | fuel + 1, rest, len, ptag, crc, pending, pendingFcrc, acc =>
      if len < 4 then acc
      else
        let decoded := Nat.xor (ofBe32 rest) ptag
        let lengthField := decoded % 0x400
        let bodyLen := if lengthField = lenSpecial then 0 else lengthField
        let tagType := TagType.fromBits (decoded / 0x100000 % 0x800)
        let id := decoded / 0x400 % 0x400
        if 0x80000000 ≤ decoded then acc
        else if len < 4 + bodyLen then acc
        else
          let crc := Crc.update crc (rest.take 4)
          let body := (rest.drop 4).take bodyLen
          match tagType with
          | .commitCrc chunk =>
              if bodyLen < 4 then acc
              else if crc.toNat ≠ ofLe32 body then acc
              else
                let tags := acc.tags ++ pending ++ [⟨tagType, id, .checksum bodyLen⟩]
                let rest := rest.drop (4 + bodyLen)
                let len := len - (4 + bodyLen)
                readTags fuel rest len (Nat.xor decoded (chunk % 2 * 0x80000000)) Crc.init [] none
                  ⟨tags, pendingFcrc, rest, len⟩
          | _ =>
              let entry : TagEntry :=
                ⟨tagType, id, if lengthField = lenSpecial then .removed else .bytes body⟩
              let pendingFcrc :=
                if tagType = .forwardCrc ∧ 8 ≤ bodyLen then
                  some (ofLe32 body, ofLe32 (body.drop 4))
                else pendingFcrc
              readTags fuel (rest.drop (4 + bodyLen)) (len - (4 + bodyLen)) decoded
                (Crc.update crc body) (pending ++ [entry]) pendingFcrc acc

/-- `MetadataReader::new`, on the bytes of a block of size `blockSize`. -/
def MetadataLog.ofBytes (blockSize : ℕ) (block : List Byte) : MetadataLog :=
  let rest := block.drop 4
  let len := blockSize - 4
  let read := readTags blockSize rest len 0xFFFFFFFF (Crc.update Crc.init (block.take 4)) [] none
    ⟨[], none, rest, len⟩
  { revision := ofLe32 block
    tags := read.tags
    erased :=
      match read.fcrc with
      | some (size, expected) =>
          decide (size ≤ read.restLength) &&
            decide ((Crc.update Crc.init (read.rest.take size)).toNat = expected)
      | none => false }

/-! ## The byte level writer -/

/-- The four bytes of a `u32`, most significant first. -/
def be32 (n : ℕ) : List Byte := (le32 n).reverse

/-- The bytes of a body, given the checksum accumulated up to it. -/
def Body.toBytes (crc : BitVec 32) : Body → List Byte
  | .bytes bs => bs
  | .words ws => ws.flatMap le32
  | .removed => []
  | .checksum n => (le32 crc.toNat ++ List.replicate (n - 4) 0xFF).take n

/-- The image of a run of tags, from the running XOR base and checksum on. -/
def tagBytes (ptag : ℕ) (crc : BitVec 32) : List TagEntry → List Byte
  | [] => []
  | t :: ts =>
      let raw := be32 (Nat.xor t.word ptag)
      let crc := Crc.update crc raw
      let body := t.body.toBytes crc
      match t.tagType with
      | .commitCrc chunk =>
          raw ++ body ++ tagBytes (Nat.xor t.word (chunk % 2 * 0x80000000)) Crc.init ts
      | _ => raw ++ body ++ tagBytes t.word (Crc.update crc body) ts

/-- The image of a metadata block, up to the erased bytes behind it. -/
def MetadataLog.bytes (l : MetadataLog) : List Byte :=
  le32 l.revision ++ tagBytes 0xFFFFFFFF (Crc.update Crc.init (le32 l.revision)) l.tags

/-! ## The commit builder -/

/-- A commit under construction: the write offset and the tags emitted so far. -/
structure Commit where
  offset : ℕ
  tags : List TagEntry
  deriving DecidableEq, Repr

namespace Commit

/-- `Commit::new`, on an erased block: the revision word precedes the tags. -/
def new : Commit := ⟨4, []⟩

/-- `Commit::new_appending`. -/
def newAppending (blockSize offset : ℕ) : Except Error Commit :=
  if blockSize < offset + 8 then .error .outOfRange else .ok ⟨offset, []⟩

/-- `Commit::tag`. -/
def tag (blockSize : ℕ) (c : Commit) (t : TagEntry) : Except Error Commit :=
  if t.tagType.isCcrc then .error .invalidTag
  else if t.body ≠ .removed ∧ lenSpecial ≤ t.body.length then .error .invalidTag
  else if c.offset + t.dsize > blockSize then .error .outOfRange
  else .ok ⟨c.offset + t.dsize, c.tags ++ [t]⟩

/-- `Commit::tag`, over a run of tags. -/
def addTags (blockSize : ℕ) (c : Commit) : List TagEntry → Except Error Commit
  | [] => .ok c
  | t :: ts => (c.tag blockSize t).bind fun c => addTags blockSize c ts

theorem tag_eq_ok {blockSize : ℕ} {c c' : Commit} {t : TagEntry}
    (h : c.tag blockSize t = .ok c') :
    c' = ⟨c.offset + t.dsize, c.tags ++ [t]⟩ ∧ t.tagType.isCcrc = false ∧
      t.body.length ≤ 0x3FE ∧ c'.offset ≤ blockSize := by
  unfold tag at h
  split_ifs at h with h1 h2 h3
  cases h
  refine ⟨rfl, Bool.eq_false_iff.2 h1, ?_, Nat.le_of_not_lt h3⟩
  by_cases hb : t.body = .removed
  · rw [hb]; decide
  · have := mt (fun hle => And.intro hb hle) h2
    simp only [lenSpecial] at this
    omega

/-- What a run of accepted tags leaves: the tags in order, and an offset inside the
block. -/
theorem addTags_eq_ok {blockSize : ℕ} {c c' : Commit} {ts : List TagEntry}
    (h : c.addTags blockSize ts = .ok c') :
    c' = ⟨c.offset + tagsSize ts, c.tags ++ ts⟩ ∧
      ∀ t ∈ ts, t.tagType.isCcrc = false ∧ t.body.length ≤ 0x3FE := by
  induction ts generalizing c with
  | nil =>
      cases h
      exact ⟨by simp, fun t ht => absurd ht List.not_mem_nil⟩
  | cons t ts ih =>
      cases ht : c.tag blockSize t with
      | error e =>
          rw [addTags, ht] at h
          cases h
      | ok c₁ =>
          rw [addTags, ht] at h
          obtain ⟨rfl, hcrc, hlen, -⟩ := tag_eq_ok ht
          obtain ⟨rfl, hts⟩ := ih h
          refine ⟨by simp [Nat.add_assoc], ?_⟩
          rintro u (_ | ⟨_, hu⟩)
          · exact ⟨hcrc, hlen⟩
          · exact hts u hu

/-- The checksum a forward CRC records for the next window. -/
def fcrcValue (g : Geometry) : ℕ :=
  (Crc.update Crc.init (List.replicate g.progSize 0xFF)).toNat

/-- The forward CRC tag of `finish_padded`. -/
def fcrcTag (g : Geometry) : TagEntry :=
  ⟨.forwardCrc, idNone, .words [g.progSize, fcrcValue g]⟩

/-- `align_up`. -/
def alignUp (n unit : ℕ) : ℕ := (n + unit - 1) / unit * unit

/-- Whether a commit from `off` to `stop` has room for a forward CRC, and for the window
it describes. -/
def fcrcFits (g : Geometry) (off stop : ℕ) : Bool :=
  decide (off + 20 ≤ stop) && decide (stop + g.progSize ≤ g.blockSize)

/-- `finish_padded`: the closed commit, and whether it carries a forward CRC. -/
def finishPadded (g : Geometry) (c : Commit) : Except Error (Commit × Bool) :=
  let off := c.offset
  let stop := alignUp (min (off + 20) g.blockSize) g.progSize
  if stop > g.blockSize then .error .outOfRange
  else if stop < off + 8 then .error .outOfRange
  else
    let emitFcrc := fcrcFits g off stop
    let fcrc := if emitFcrc then [fcrcTag g] else []
    let bodyLen := stop - (off + tagsSize fcrc) - 4
    if bodyLen > 0x3FE then .error .outOfRange
    else
      .ok (⟨stop, c.tags ++ fcrc ++ [⟨.commitCrc 0, idNone, .checksum bodyLen⟩]⟩, emitFcrc)

/-- A closed commit carries its tags, then a forward CRC or none, then the checksum. -/
theorem finishPadded_eq_ok {g : Geometry} {c c' : Commit} {fcrc : Bool}
    (h : c.finishPadded g = .ok (c', fcrc)) :
    ∃ n, c'.tags = c.tags ++ ((if fcrc then [fcrcTag g] else []) ++
      [⟨.commitCrc 0, idNone, .checksum n⟩]) := by
  simp only [finishPadded] at h
  generalize fcrcFits g c.offset _ = emit at h
  cases emit with
  | true =>
      simp only [if_true] at h
      split_ifs at h
      cases h
      exact ⟨_, List.append_assoc ..⟩
  | false =>
      simp only [Bool.false_eq_true, if_false] at h
      split_ifs at h
      cases h
      exact ⟨_, List.append_assoc ..⟩

end Commit

/-! ## Metadata pairs -/

/-- `rev_scmp`, as the test for "at least as new": the wrapping difference is not
negative as a signed word. -/
def revNotOlder (a b : ℕ) : Bool :=
  decide ((a % 2 ^ 32 + (2 ^ 32 - b % 2 ^ 32)) % 2 ^ 32 < 2 ^ 31)

/-- A parsed pair: `MetadataPair` of `meta.rs`. -/
structure MetadataPair where
  activeBlock : ℕ
  alternateBlock : ℕ
  reader : MetadataLog
  deriving DecidableEq, Repr

/-- `MetadataPair::parse`. -/
def MetadataPair.parse (addr : BlockPair) (a b : MetadataLog) : Except Error MetadataPair :=
  let aIsNewer := revNotOlder a.revision b.revision
  let (primary, primaryAddr, secondary, secondaryAddr) :=
    if aIsNewer then (a, addr.a, b, addr.b) else (b, addr.b, a, addr.a)
  if primary.hasCommits then .ok ⟨primaryAddr, secondaryAddr, primary⟩
  else if secondary.hasCommits then .ok ⟨secondaryAddr, primaryAddr, secondary⟩
  else .error .corrupt

/-- A parsed pair has its log from one half, and the other half as the alternate. -/
theorem MetadataPair.parse_eq_ok {addr : BlockPair} {a b : MetadataLog} {p : MetadataPair}
    (h : MetadataPair.parse addr a b = .ok p) :
    p = ⟨addr.a, addr.b, a⟩ ∨ p = ⟨addr.b, addr.a, b⟩ := by
  unfold MetadataPair.parse at h
  cases hnewer : revNotOlder a.revision b.revision with
  | true =>
      simp only [hnewer, if_true] at h
      split_ifs at h
      · cases h
        exact .inl rfl
      · cases h
        exact .inr rfl
  | false =>
      simp only [hnewer, Bool.false_eq_true, if_false] at h
      split_ifs at h
      · cases h
        exact .inr rfl
      · cases h
        exact .inl rfl

theorem MetadataPair.parse_holds {addr : BlockPair} {a b : MetadataLog} {p : MetadataPair}
    (h : MetadataPair.parse addr a b = .ok p) (x : ℕ) :
    addr.Holds x ↔ x = p.activeBlock ∨ x = p.alternateBlock := by
  rcases MetadataPair.parse_eq_ok h with rfl | rfl
  · rfl
  · exact or_comm

end LittlefsPure
