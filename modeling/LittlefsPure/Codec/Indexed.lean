import LittlefsPure.Codec.Checksum
import LittlefsPure.Codec.Mirror

/-!
# Every index of the reader

`MetadataReader::new`, with the indexing and slicing expressions of the source as partial
operations: they have no value where an index is out of range, and a loop has none where
its bound runs out.  On every block the reader has a value, and it is `MetadataReader.new`;
so no index is out of range, and each loop ends by itself within as many turns as the block
has bytes.

## Why the bodies are repeated

The reader of `Codec.Reader` is total: where the source indexes out of range it takes whatever
the list functions give.  Whether it ever does cannot be asked of that definition.  So the reader
is written a second time with the partial operations, line by line, and the theorem compares the
two.  What it says of the source is that no index panics, on any block of any length.
-/

namespace LittlefsPure.Codec

/-- A slice expression. -/
def slice? (block : List Byte) (i j : ℕ) : Option (List Byte) :=
  if i ≤ j ∧ j ≤ block.length then some (between block i j) else none

/-- Four bytes, each by its index. -/
def bytes4? (block : List Byte) (off : ℕ) : Option (List Byte) := do
  let b0 ← block[off]?
  let b1 ← block[off + 1]?
  let b2 ← block[off + 2]?
  let b3 ← block[off + 3]?
  pure [b0, b1, b2, b3]

/-- The start of a tag loop. -/
def nextTag? (block : List Byte) (limit off : ℕ) (ptag : Tag) : Option (Option (ℕ × Tag)) :=
  let off := off + ptag.dsize
  if limit < off + 4 then some none
  else do
    let word ← bytes4? block off
    let tag : Tag := ⟨beWord word ^^^ ptag.bits⟩
    if tag.isValid then
      if limit < off + tag.dsize then pure none else pure (some (off, tag))
    else pure none

/-- The window a forward CRC describes. -/
def fcrcWindow? (block : List Byte) (off : ℕ) (tag : Tag) (pending : Option (ℕ × BitVec 32)) :
    Option (Option (ℕ × BitVec 32)) :=
  if tag.tagType = .forwardCrc ∧ 8 ≤ tag.bodyLen then do
    let size ← bytes4? block (off + 4)
    let expected ← bytes4? block (off + 8)
    pure (some (ofLe32 size, leWord expected))
  else pure pending

/-- The loop of `MetadataReader::new`. -/
def walk? (block : List Byte) : ℕ → Walk → Option Walk
  | 0, _ => none
  | fuel + 1, w => do
      match ← nextTag? block block.length w.off w.ptag with
      | none => pure w
      | some (off, tag) =>
          let word ← slice? block off (off + 4)
          let crc := Crc.update w.runningCrc word
          if tag.isCcrc then
            if tag.bodyLen < 4 then pure w
            else
              let stored ← bytes4? block (off + 4)
              if crc ≠ leWord stored then pure w
              else walk? block fuel (w.verify off tag)
          else
            let body ← slice? block (off + 4) (off + tag.dsize)
            let pending ← fcrcWindow? block off tag w.pendingFcrc
            walk? block fuel { w with
              off := off, ptag := tag, runningCrc := Crc.update crc body, pendingFcrc := pending }

/-- A tail tag of eight bytes. -/
def tailAt? (block : List Byte) (off : ℕ) (tag : Tag) (latest : Option (BlockPair × Bool)) :
    Option (Option (BlockPair × Bool)) :=
  if tag.tagType.isTail ∧ tag.bodyLen = 8 then do
    let a ← bytes4? block (off + 4)
    let b ← bytes4? block (off + 8)
    pure (some (⟨ofLe32 a, ofLe32 b⟩, decide (tag.tagType = .hardTail)))
  else pure latest

/-- The loop of `scan_for_tail`. -/
def latestTail? (block : List Byte) (committedEnd : ℕ) :
    ℕ → ℕ → Tag → Option (BlockPair × Bool) → Option (Option (BlockPair × Bool))
  | 0, _, _, _ => none
  | fuel + 1, off, ptag, latest => do
      match ← nextTag? block committedEnd off ptag with
      | none => pure latest
      | some (off, tag) =>
          let latest ← tailAt? block off tag latest
          latestTail? block committedEnd fuel off tag.perturb latest

/-- The forward CRC check on the last verified commit. -/
def windowErased? (block : List Byte) (w : Walk) : Option Bool :=
  match w.lastFcrc with
  | some (size, expected) =>
      if w.committedEnd + size ≤ block.length then do
        let window ← slice? block w.committedEnd (w.committedEnd + size)
        pure (decide (Crc.update Crc.init window = expected))
      else pure false
  | none => pure false

/-- `MetadataReader::new`. -/
def MetadataReader.new? (block : List Byte) : Option (Except Error MetadataReader) :=
  if block.length < 4 then pure (.error .corrupt)
  else do
    let revision ← bytes4? block 0
    let header ← slice? block 0 4
    let w ← walk? block block.length
      { Walk.start block with runningCrc := Crc.update Crc.init header }
    let erased ← windowErased? block w
    let latest ← latestTail? block w.committedEnd block.length 0 .erased none
    pure (.ok {
      block := block
      revision := leWord revision
      committedEnd := w.committedEnd
      nextPtag := w.nextPtag
      tail := (resolveTail latest).1
      isHardTail := (resolveTail latest).2
      erased := erased })

/-! ## Indices in range -/

section Ranges

variable {block : List Byte} {off i j limit fuel : ℕ} {tag ptag : Tag} {w : Walk}

theorem slice?_eq (hi : i ≤ j) (hj : j ≤ block.length) :
    slice? block i j = some (between block i j) :=
  if_pos ⟨hi, hj⟩

theorem bytes4?_eq (h : off + 4 ≤ block.length) :
    bytes4? block off = some ((block.drop off).take 4) := by
  have hat : ∀ k < 4, block[off + k]? = some ((block.drop off).getD k 0) := by
    intro k hk
    rw [List.getD_eq_getElem?_getD, List.getElem?_drop, List.getElem?_eq_getElem (by omega)]
    rfl
  obtain ⟨b0, b1, b2, b3, rest, hdrop⟩ := @four_bytes (block.drop off) (by
    rw [List.length_drop]
    omega)
  have h0 := hat 0 (by decide)
  have h1 := hat 1 (by decide)
  have h2 := hat 2 (by decide)
  have h3 := hat 3 (by decide)
  rw [hdrop] at h0 h1 h2 h3 ⊢
  rw [Nat.add_zero] at h0
  simp only [bytes4?, h0, h1, h2, h3, Option.bind_eq_bind, Option.bind_some]
  rfl

theorem nextTag?_eq (hlimit : limit ≤ block.length) :
    nextTag? block limit off ptag = some (nextTag block limit off ptag) := by
  by_cases hroom : limit < off + ptag.dsize + 4
  · simp only [nextTag?, nextTag, if_pos hroom]
  · have hword : beWord ((block.drop (off + ptag.dsize)).take 4) =
        beWord (block.drop (off + ptag.dsize)) := by
      simp only [beWord, ofBe32, List.getD_eq_getElem?_getD, List.getElem?_take]
      rfl
    simp only [nextTag?, nextTag, if_neg hroom,
      bytes4?_eq (Nat.le_trans (Nat.le_of_not_lt hroom) hlimit),
      Option.bind_eq_bind, Option.bind_some, hword]
    split_ifs <;> rfl

/-- The words of a body, as the source reads them from the block. -/
theorem drop_bodyAt (h : 8 ≤ tag.bodyLen) :
    ofLe32 ((block.drop (off + 4)).take 4) = ofLe32 (bodyAt block off tag) ∧
      leWord ((block.drop (off + 8)).take 4) = leWord ((bodyAt block off tag).drop 4) := by
  constructor
  · rw [bodyAt, ofLe32_take _ (Nat.le_refl 4), ofLe32_take _ (by omega)]
  · rw [bodyAt, List.drop_take, List.drop_drop, leWord_take _ (Nat.le_refl 4),
      leWord_take _ (by omega)]

theorem fcrcWindow?_eq (h : off + tag.dsize ≤ block.length) (pending : Option (ℕ × BitVec 32)) :
    fcrcWindow? block off tag pending = some (fcrcWindow tag (bodyAt block off tag) pending) := by
  rw [Tag.dsize] at h
  unfold fcrcWindow? fcrcWindow
  by_cases hfcrc : tag.tagType = .forwardCrc ∧ 8 ≤ tag.bodyLen
  · obtain ⟨hsize, hexpected⟩ := @drop_bodyAt block off tag hfcrc.2
    have hlen := hfcrc.2
    rw [if_pos hfcrc, if_pos hfcrc, bytes4?_eq (by omega), bytes4?_eq (by omega),
      ← hsize, ← hexpected]
    rfl
  · rw [if_neg hfcrc, if_neg hfcrc]
    rfl

theorem tailAt?_eq (h : off + tag.dsize ≤ block.length) (latest : Option (BlockPair × Bool)) :
    tailAt? block off tag latest = some (if tag.tagType.isTail ∧ tag.bodyLen = 8 then
      some (⟨ofLe32 (block.drop (off + 4)), ofLe32 (block.drop (off + 8))⟩,
        decide (tag.tagType = .hardTail)) else latest) := by
  rw [Tag.dsize] at h
  unfold tailAt?
  by_cases htail : tag.tagType.isTail = true ∧ tag.bodyLen = 8
  · have hlen := htail.2
    rw [if_pos htail, if_pos htail, bytes4?_eq (by omega), bytes4?_eq (by omega)]
    simp only [Option.bind_eq_bind, Option.bind_some, ofLe32_take _ (Nat.le_refl 4)]
    rfl
  · rw [if_neg htail, if_neg htail]
    rfl

/-! ## The loops -/

/-- A turn of a loop moves on by at least a word, inside the limit. -/
theorem nextTag_advances (h : nextTag block limit off ptag = some (j, tag)) :
    j = off + ptag.dsize ∧ tag.isValid = true ∧ j + tag.dsize ≤ limit ∧ j + 4 ≤ limit := by
  obtain ⟨hj, hvalid, hend, -⟩ := nextTag_eq_some h
  refine ⟨hj, hvalid, hend, ?_⟩
  rw [Tag.dsize] at hend
  omega

/-- The loop of the reader ends within a word for each turn. -/
theorem walk?_eq (hfuel : 0 < fuel) (h : block.length < w.pos + 4 * fuel) :
    walk? block fuel w = some (walk block fuel w) := by
  induction fuel generalizing w with
  | zero => exact absurd hfuel (Nat.lt_irrefl 0)
  | succ fuel ih =>
      rw [walk?, walk, nextTag?_eq (Nat.le_refl _)]
      cases hnext : nextTag block block.length w.off w.ptag with
      | none => rfl
      | some x =>
          obtain ⟨off, tag⟩ := x
          obtain ⟨hoff, hvalid, hend, hword⟩ := nextTag_advances hnext
          have hpos : w.pos = off := hoff.symm
          rw [hpos] at h
          have hrest : 0 < fuel := by omega
          simp only [Option.bind_eq_bind, Option.bind_some,
            slice?_eq (Nat.le_add_right off 4) hword, between_add]
          have hstored : tag.isCcrc = true → ¬ tag.bodyLen < 4 →
              bytes4? block (off + 4) = some ((block.drop (off + 4)).take 4) := by
            intro _ hlong
            refine bytes4?_eq ?_
            rw [Tag.dsize] at hend
            omega
          split_ifs with hccrc hshort hcrc
          · rfl
          · rw [hstored hccrc hshort]
            simp only [Option.bind_some, leWord_take _ (Nat.le_refl 4), if_pos hcrc]
            rfl
          · rw [hstored hccrc hshort]
            simp only [Option.bind_some, leWord_take _ (Nat.le_refl 4), if_neg hcrc]
            refine ih hrest ?_
            show block.length < off + tag.perturb.dsize + 4 * fuel
            rw [Tag.dsize_perturb hvalid, Tag.dsize]
            omega
          · have hslice : slice? block (off + 4) (off + tag.dsize) =
                some (bodyAt block off tag) := by
              have hle : off + 4 ≤ off + tag.dsize := Nat.add_le_add_left (Nat.le_add_right 4 _) off
              rw [slice?_eq hle hend, Tag.dsize, ← Nat.add_assoc, between_add, bodyAt]
            rw [hslice]
            simp only [Option.bind_some, fcrcWindow?_eq hend]
            refine ih (w := w.pass off tag _ _) hrest ?_
            show block.length < off + tag.dsize + 4 * fuel
            rw [Tag.dsize]
            omega

/-- The loop of the tail scan as well. -/
theorem latestTail?_eq (hlimit : limit ≤ block.length) (hfuel : 0 < fuel)
    (h : limit < off + ptag.dsize + 4 * fuel) (latest : Option (BlockPair × Bool)) :
    latestTail? block limit fuel off ptag latest =
      some (latestTail block limit fuel off ptag latest) := by
  induction fuel generalizing off ptag latest with
  | zero => exact absurd hfuel (Nat.lt_irrefl 0)
  | succ fuel ih =>
      rw [latestTail?, latestTail, nextTag?_eq hlimit]
      cases hnext : nextTag block limit off ptag with
      | none => rfl
      | some x =>
          obtain ⟨k, tag⟩ := x
          obtain ⟨hk, hvalid, hend, hword⟩ := nextTag_advances hnext
          rw [← hk] at h
          simp only [Option.bind_eq_bind, Option.bind_some, tailAt?_eq (hend.trans hlimit)]
          refine ih (by omega) ?_ _
          rw [Tag.dsize_perturb hvalid, Tag.dsize]
          omega

theorem windowErased?_eq (w : Walk) :
    windowErased? block w = some (MetadataReader.windowErased block w) := by
  unfold windowErased? MetadataReader.windowErased
  cases w.lastFcrc with
  | none => rfl
  | some x =>
      obtain ⟨size, expected⟩ := x
      dsimp only
      by_cases hroom : w.committedEnd + size ≤ block.length
      · rw [if_pos hroom, slice?_eq (Nat.le_add_right _ _) hroom, between_add, decide_eq_true hroom]
        rfl
      · rw [if_neg hroom, decide_eq_false hroom]
        rfl

end Ranges

/-- What the loop has verified lies in the block. -/
theorem committedEnd_le_length (block : List Byte) (h : ¬ block.length < 4) :
    (walk block block.length (.start block)).committedEnd ≤ block.length := by
  have hnew : MetadataReader.new block = .ok _ := if_neg h
  obtain ⟨es, hes⟩ := new_decodes hnew
  exact hes.inside

/-- The reader has a value on every block: no index of it is out of range, and its loops
end. -/
theorem MetadataReader.new?_eq (block : List Byte) :
    MetadataReader.new? block = some (MetadataReader.new block) := by
  by_cases hlen : block.length < 4
  · rw [MetadataReader.new?, MetadataReader.new, if_pos hlen, if_pos hlen]
    rfl
  have hend := committedEnd_le_length block hlen
  have hheader : slice? block 0 4 = some (block.take 4) := slice?_eq (Nat.zero_le 4) (by omega)
  have hwalk : walk? block block.length (.start block) =
      some (walk block block.length (.start block)) :=
    walk?_eq (by omega) (by rw [start_pos]; omega)
  rw [MetadataReader.new?, MetadataReader.new, if_neg hlen, if_neg hlen,
    bytes4?_eq (by omega), hheader]
  simp only [Option.bind_eq_bind, Option.bind_some]
  have hstart : ({ Walk.start block with runningCrc := Crc.update Crc.init (block.take 4) } :
      Walk) =
      .start block := rfl
  rw [hstart, hwalk]
  simp only [Option.bind_some, windowErased?_eq]
  rw [latestTail?_eq hend (by omega) (by rw [dsize_erased]; omega)]
  simp only [Option.bind_some, List.drop_zero, leWord_take _ (Nat.le_refl 4)]
  rfl

/-- `MetadataPair::parse`. -/
def MetadataPair.parse? (addrA : ℕ) (blockA : List Byte) (addrB : ℕ) (blockB : List Byte) :
    Option (Except Error MetadataPair) := do
  match ← MetadataReader.new? blockA with
  | .error e => pure (.error e)
  | .ok a =>
      match ← MetadataReader.new? blockB with
      | .error e => pure (.error e)
      | .ok b => pure (MetadataPair.choose addrA a addrB b)

end LittlefsPure.Codec
