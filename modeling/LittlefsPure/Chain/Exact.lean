import LittlefsPure.Handle.Chain
import LittlefsPure.Logic.Checked

/-!
# The index arithmetic in 32 bit words

`ctz.rs` computes with `u32`: a difference that would be negative and a product that does
not fit would both go wrong.  Here its functions are written with operations that have no
value in either case.  From a block size of 128 bytes on they have one for every offset and
every size, the one of `Disk.Ctz`, so the index is exact, and so are the end of the content
in the last block and the room behind it that `tail_room` and `stream_ctz_extend` derive.

## Why the differences are the danger

No sum in these functions exceeds the offset it starts from by much, and an offset is a word.  But
two of the differences would be negative for a block size that is too small: the bytes of the
pointers may be more than the offset, and the products of the corrected quotient more than what is
left.  In `u32` either would be a huge number, and the index with it.
-/

namespace LittlefsPure

open Logic

namespace Ctz

/-! ## The functions of the source -/

/-- The end of the content in the last block of a chain, as `tail_room` and
`stream_ctz_extend` name it. -/
structure TailUse where
  header : ℕ
  tailCap : ℕ
  bytesUsed : ℕ
  room : ℕ
  deriving DecidableEq, Repr

/-- The end of the content of a chain that is not empty. -/
def tailUse (size blockSize : ℕ) : TailUse :=
  let tailIdx := blockCount size blockSize - 1
  let header := 4 * skipPointersInBlock tailIdx
  let tailCap := contentBytesInBlock tailIdx blockSize
  let bytesUsed := (blockIndexAtOffset (size - 1) blockSize).2 + 1 - header
  ⟨header, tailCap, bytesUsed, tailCap - bytesUsed⟩

namespace U32

open Checked

/-- `skip_pointers_in_block`. -/
def skipPointersInBlock (index : ℕ) : Option ℕ :=
  if index = 0 then some 0 else add 32 (trailingZeros 32 index) 1

/-- `content_bytes_in_block`. -/
def contentBytesInBlock (index blockSize : ℕ) : Option ℕ := do
  let header ← mul 32 4 (← skipPointersInBlock index)
  sub blockSize header

/-- `block_index_at_offset`. -/
def blockIndexAtOffset (offset blockSize : ℕ) : Option (ℕ × ℕ) := do
  let b ← sub blockSize (2 * 4)
  let i ← div offset b
  if i = 0 then return (0, offset)
  let below ← add 32 (popcount 32 (← sub i 1)) 2
  let content ← sub offset (← mul 32 4 below)
  let i ← div content b
  let rest ← sub offset (← mul 32 b i)
  let absOff ← sub rest (← mul 32 4 (popcount 32 i))
  return (i, absOff)

/-- `block_count`. -/
def blockCount (size blockSize : ℕ) : Option ℕ :=
  if size = 0 then some 0
  else do
    let p ← blockIndexAtOffset (← sub size 1) blockSize
    add 32 p.1 1

/-- The end of the content of a chain that is not empty. -/
def tailUse (size blockSize : ℕ) : Option TailUse := do
  let n ← blockCount size blockSize
  let tailIdx ← sub n 1
  let header ← mul 32 4 (← skipPointersInBlock tailIdx)
  let tailCap ← contentBytesInBlock tailIdx blockSize
  let (_, absOff) ← blockIndexAtOffset (← sub size 1) blockSize
  let bytesUsed ← sub (← add 32 absOff 1) header
  let room ← sub tailCap bytesUsed
  return ⟨header, tailCap, bytesUsed, room⟩

end U32
end Ctz

/-- `tail_room`. -/
def tailRoom (g : Geometry) (d : Device) (root : BlockPair) (path : Path) : Except Error ℕ := do
  match ← layoutAt g d root path with
  | .inline _ => pure 0
  | .ctz _ size =>
      if size = 0 then pure 0 else pure (Ctz.tailUse size g.blockSize).room

namespace Ctz

variable {blockSize offset size i : ℕ}

/-! ## No operation goes wrong -/

/-- The first quotient of a 32 bit offset is small. -/
theorem quotient_lt (hB : 128 ≤ blockSize) (hoff : offset < 2 ^ 32) :
    offset / (blockSize - 8) < 2 ^ 26 := by
  rw [Nat.div_lt_iff_lt_mul (by omega)]
  have hmul : 2 ^ 26 * 120 ≤ 2 ^ 26 * (blockSize - 8) := Nat.mul_le_mul_left _ (by omega)
  omega

theorem sizeInRange_of_lt (hB : 128 ≤ blockSize) (hsize : size < 2 ^ 32) :
    SizeInRange blockSize size :=
  quotient_lt hB (by omega)

theorem skipPointers_exact (hi : i < 2 ^ 32) :
    U32.skipPointersInBlock i = some (skipPointersInBlock i) := by
  have hskip := skipPointers_le hi
  unfold U32.skipPointersInBlock
  unfold skipPointersInBlock at hskip ⊢
  by_cases hzero : i = 0
  · simp [hzero]
  · simp only [if_neg hzero] at hskip ⊢
    exact Checked.add_of_lt (by omega)

theorem contentBytes_exact (hB : 128 ≤ blockSize) (hi : i < 2 ^ 32) :
    U32.contentBytesInBlock i blockSize = some (contentBytesInBlock i blockSize) := by
  have hskip := skipPointers_le hi
  rw [U32.contentBytesInBlock, skipPointers_exact hi]
  simp only [Option.bind_eq_bind, Option.bind_some]
  rw [Checked.mul_of_lt (by omega), Option.bind_some, Checked.sub_of_le (by omega)]
  rfl

theorem popcount_succ_le {n : ℕ} (hn : n + 1 < 2 ^ 32) :
    popcount 32 (n + 1) ≤ popcount 32 n + 1 := by
  have hbits : trailingZeros 32 (n + 1) + popcount 32 (n + 1) = popcount 32 (n + 1 - 1) + 1 :=
    trailingZeros_add_popcount (by omega) hn
  rw [Nat.add_sub_cancel] at hbits
  omega

/-- The pointers counted by the correction leave the offset of the block. -/
theorem correction_le (hB : 128 ≤ blockSize) (hi : i < 2 ^ 32)
    (hlower : capacityBelow blockSize i ≤ offset) :
    (blockSize - 8) * i + 4 * popcount 32 i ≤ offset := by
  cases i with
  | zero =>
      rw [popcount_zero]
      omega
  | succ i =>
      have hnext := popcount_succ_le hi
      rw [capacityBelow_succ hB hi] at hlower
      rw [Nat.mul_comm]
      omega

/-- The second quotient is no more than the first. -/
theorem index_le_quotient (blockSize offset : ℕ) :
    (blockIndexAtOffset offset blockSize).1 ≤ offset / (blockSize - 8) := by
  simp only [blockIndexAtOffset]
  split_ifs with hzero
  · exact Nat.zero_le _
  · exact Nat.div_le_div_right (Nat.sub_le _ _)

theorem inner_le (blockSize offset : ℕ) : (blockIndexAtOffset offset blockSize).2 ≤ offset := by
  simp only [blockIndexAtOffset]
  split_ifs with hzero
  · exact Nat.le_refl _
  · exact Nat.le_trans (Nat.sub_le _ _) (Nat.sub_le _ _)

/-- Neither the two differences nor the products of the closed form go wrong. -/
theorem blockIndex_exact (hB : 128 ≤ blockSize) (hoff : offset < 2 ^ 32) :
    U32.blockIndexAtOffset offset blockSize = some (blockIndexAtOffset offset blockSize) := by
  have hquot := quotient_lt hB hoff
  have hlocates := blockIndexAtOffset_locates hB hquot
  have hbpos : 0 < blockSize - 8 := by omega
  rw [U32.blockIndexAtOffset, Checked.sub_of_le (by omega)]
  simp only [Option.bind_eq_bind, Option.bind_some]
  rw [Checked.div_of_pos (by omega)]
  simp only [Option.bind_some]
  by_cases hzero : offset / (blockSize - 2 * 4) = 0
  · rw [if_pos hzero, blockIndexAtOffset, if_pos hzero]
    rfl
  have hfirst : (blockSize - 8) * 1 ≤ offset := by
    rw [Nat.mul_comm, ← Nat.le_div_iff_mul_le hbpos]
    exact Nat.pos_of_ne_zero hzero
  have hbelow : popcount 32 (offset / (blockSize - 8) - 1) ≤ 26 := popcount_le (by omega)
  rw [blockIndexAtOffset, if_neg hzero] at hlocates ⊢
  set j := offset / (blockSize - 2 * 4) - 1 with hj
  set i := (offset - 4 * (popcount 32 j + 2)) / (blockSize - 2 * 4) with hi
  have hindex : i < 2 ^ 26 :=
    Nat.lt_of_le_of_lt (Nat.div_le_div_right (Nat.sub_le _ _)) hquot
  have hcorrect : (blockSize - 2 * 4) * i + 4 * popcount 32 i ≤ offset :=
    correction_le hB (by omega) hlocates.lower
  have hbits : popcount 32 i ≤ 26 := popcount_le hindex
  have hbelow' : popcount 32 j ≤ 26 := hbelow
  rw [if_neg hzero, Checked.sub_of_le (show 1 ≤ _ from Nat.pos_of_ne_zero hzero),
    Option.bind_some, ← hj, Checked.add_of_lt (by omega), Option.bind_some,
    Checked.mul_of_lt (by omega), Option.bind_some, Checked.sub_of_le (by omega), Option.bind_some,
    Checked.div_of_pos (by omega), Option.bind_some, ← hi, Checked.mul_of_lt (by omega),
    Option.bind_some, Checked.sub_of_le (by omega), Option.bind_some,
    Checked.mul_of_lt (by omega), Option.bind_some, Checked.sub_of_le (by omega)]
  rfl

/-- A 32 bit size needs few blocks. -/
theorem blockCount_le_of_lt (hB : 128 ≤ blockSize) (hsize : size < 2 ^ 32) :
    blockCount size blockSize ≤ 2 ^ 26 := by
  have hindex := index_le_quotient blockSize (size - 1)
  have hquot : (size - 1) / (blockSize - 8) < 2 ^ 26 := sizeInRange_of_lt hB hsize
  rw [blockCount]
  split_ifs <;> omega

theorem blockCount_exact (hB : 128 ≤ blockSize) (hsize : size < 2 ^ 32) :
    U32.blockCount size blockSize = some (blockCount size blockSize) := by
  by_cases hzero : size = 0
  · simp [U32.blockCount, blockCount, hzero]
  have hcount := blockCount_le_of_lt hB hsize
  rw [blockCount, if_neg hzero] at hcount ⊢
  rw [U32.blockCount, if_neg hzero, Checked.sub_of_le (show 1 ≤ _ from Nat.pos_of_ne_zero hzero)]
  simp only [Option.bind_eq_bind, Option.bind_some]
  rw [blockIndex_exact hB (by omega), Option.bind_some, Checked.add_of_lt (by omega)]

/-- The used bytes and the room are what the sums over the blocks say. -/
structure TailUse.Exact (blockSize size : ℕ) (t : TailUse) : Prop where
  used : t.bytesUsed + capacityBelow blockSize (blockCount size blockSize - 1) = size
  room : t.room + size = capacityBelow blockSize (blockCount size blockSize)
  positive : 0 < t.bytesUsed
  full : t.bytesUsed + t.room = t.tailCap
  block : t.header + t.tailCap = blockSize

theorem tailUse_spec (hB : 128 ≤ blockSize) (hpos : 0 < size) (hsize : size < 2 ^ 32) :
    (tailUse size blockSize).Exact blockSize size := by
  obtain ⟨hlower, hupper, -, hused⟩ := endsIn_of_blockCount hB hpos (sizeInRange_of_lt hB hsize)
  have hcount := blockCount_le_of_lt hB hsize
  have hblocks : 0 < blockCount size blockSize := blockCount_pos hpos
  obtain ⟨i, hi⟩ : ∃ i, blockCount size blockSize = i + 1 :=
    Nat.exists_eq_succ_of_ne_zero (Nat.ne_of_gt hblocks)
  have hskip : skipPointersInBlock i ≤ 32 := skipPointers_le (by omega)
  have hcap : capacityBelow blockSize (i + 1) =
    capacityBelow blockSize i + contentBytesInBlock i blockSize := rfl
  have hcontent : contentBytesInBlock i blockSize = blockSize - 4 * skipPointersInBlock i := rfl
  rw [headerSize] at hused
  rw [hi, Nat.add_sub_cancel] at hlower hused hupper
  constructor <;> simp only [tailUse, hi, Nat.add_sub_cancel, hused] <;> omega

theorem tailUse_exact (hB : 128 ≤ blockSize) (hpos : 0 < size) (hsize : size < 2 ^ 32) :
    U32.tailUse size blockSize = some (tailUse size blockSize) := by
  have hcount := blockCount_le_of_lt hB hsize
  have hblocks : 0 < blockCount size blockSize := blockCount_pos hpos
  have hskip : skipPointersInBlock (blockCount size blockSize - 1) ≤ 32 :=
    skipPointers_le (by omega)
  obtain ⟨hused, -, hpositive, hfull, -⟩ := tailUse_spec hB hpos hsize
  simp only [tailUse] at hused hpositive hfull
  have hoff := inner_le blockSize (size - 1)
  rw [U32.tailUse, blockCount_exact hB hsize]
  simp only [Option.bind_eq_bind, Option.bind_some]
  rw [Checked.sub_of_le (show 1 ≤ _ from hblocks), Option.bind_some, skipPointers_exact (by omega),
    Option.bind_some, Checked.mul_of_lt (by omega), Option.bind_some,
    contentBytes_exact hB (by omega), Option.bind_some,
    Checked.sub_of_le (show 1 ≤ _ from hpos), Option.bind_some, blockIndex_exact hB (by omega),
    Option.bind_some, Checked.add_of_lt (by omega), Option.bind_some,
    Checked.sub_of_le (by omega), Option.bind_some, Checked.sub_of_le (by omega)]
  rfl

/-- A byte lies in one block only, at one offset. -/
theorem Locates.unique {p q : ℕ × ℕ} (hp : Locates blockSize offset p)
    (hq : Locates blockSize offset q) : p = q := by
  have hindex : p.1 = q.1 := by
    refine Nat.le_antisymm ?_ ?_ <;> by_contra hlt
    · have hmono := @capacityBelow_mono blockSize _ _ (Nat.lt_of_not_le hlt)
      exact absurd hq.upper (Nat.not_lt.2 (hmono.trans hp.lower))
    · have hmono := @capacityBelow_mono blockSize _ _ (Nat.lt_of_not_le hlt)
      exact absurd hp.upper (Nat.not_lt.2 (hmono.trans hq.lower))
  ext
  · exact hindex
  · rw [hp.inner, hq.inner, hindex]

end Ctz

/-! ## Where the sizes are used -/

variable {g : Geometry}

/-- The plan fills the room that is left, right behind the used bytes. -/
structure PlanUses (t : Ctz.TailUse) (data : List Byte) (plan : ℕ × Option (ℕ × List Byte) × ℕ) :
    Prop where
  consumed : plan.2.2 = min t.room data.length
  deferred : ∀ off fill, plan.2.1 = some (off, fill) → off = t.header + t.bytesUsed ∧
    fill = data.take (min t.room data.length)

theorem yields_planTail_uses {head size : ℕ} (hpos : 0 < size) (data : List Byte) :
    Yields (planTail g head size data) (PlanUses (Ctz.tailUse size g.blockSize) data) := by
  have hblocks : Ctz.blockCount size g.blockSize ≠ 0 := Nat.ne_of_gt (Ctz.blockCount_pos hpos)
  set t := Ctz.tailUse size g.blockSize with ht
  rw [planTail]
  refine Keeps.ite (fun hzero => absurd hzero hblocks) fun _ => ?_
  refine Keeps.ite (fun hnone => Keeps.pure ⟨hnone.symm, fun _ _ h => (by cases h)⟩) fun _ => ?_
  refine Keeps.bind (yields_any _) fun tail _ => ?_
  refine Keeps.ite (fun _ => Keeps.pure ⟨rfl, fun _ _ h => ?_⟩) fun _ => ?_
  · cases h
    exact ⟨rfl, rfl⟩
  · refine Keeps.bind (yields_any _) fun fresh _ => Keeps.pure ?_
    exact ⟨rfl, fun _ _ h => (by cases h)⟩

theorem tailRoom_of_layout {d : Device} {root : BlockPair} {path : Path} {head size : ℕ}
    (h : layoutAt g d root path = .ok (.ctz head size)) (hpos : 0 < size) :
    tailRoom g d root path = .ok (Ctz.tailUse size g.blockSize).room := by
  rw [tailRoom, h]
  exact if_neg (Nat.ne_of_gt hpos)

/-- The index arithmetic is exact in 32 bit words: no operation goes wrong, an offset lies
in the block and at the place the sums over the blocks give, the block count is the least
one that covers the size, and the room in the last block is what they leave. -/
theorem ctz_index_exact (g : Geometry) (hB : 128 ≤ g.blockSize) :
    (∀ i < 2 ^ 32, Ctz.U32.contentBytesInBlock i g.blockSize =
      some (Ctz.contentBytesInBlock i g.blockSize)) ∧
    (∀ offset < 2 ^ 32, ∃ p, Ctz.U32.blockIndexAtOffset offset g.blockSize = some p ∧
      ∀ q, Ctz.Locates g.blockSize offset q ↔ q = p) ∧
    (∀ size < 2 ^ 32, ∃ n, Ctz.U32.blockCount size g.blockSize = some n ∧
      ∀ m, n ≤ m ↔ size ≤ Ctz.capacityBelow g.blockSize m) ∧
    ∀ size, 0 < size → size < 2 ^ 32 →
      ∃ t, Ctz.U32.tailUse size g.blockSize = some t ∧ t.Exact g.blockSize size ∧
        (∀ d root path head, layoutAt g d root path = .ok (.ctz head size) →
          tailRoom g d root path = .ok t.room) ∧
        ∀ s head data plan, (planTail g head size data s).result = .ok plan →
          PlanUses t data plan := by
  refine ⟨fun i hi => Ctz.contentBytes_exact hB hi, fun offset hoff => ?_, fun size hsize => ?_,
    fun size hpos hsize => ?_⟩
  · have hlocates := Ctz.blockIndexAtOffset_locates hB (Ctz.quotient_lt hB hoff)
    refine ⟨_, Ctz.blockIndex_exact hB hoff, fun q => ⟨fun hq => hq.unique hlocates, ?_⟩⟩
    rintro rfl
    exact hlocates
  · exact ⟨_, Ctz.blockCount_exact hB hsize,
      fun m => Ctz.blockCount_le_iff hB (Ctz.sizeInRange_of_lt hB hsize)⟩
  · exact ⟨_, Ctz.tailUse_exact hB hpos hsize, Ctz.tailUse_spec hB hpos hsize,
      fun d root path head h => tailRoom_of_layout h hpos,
      fun s head data plan h => (yields_planTail_uses hpos data).of_result h⟩

/-- The last offset of the largest file at the smallest block size. -/
theorem ctz_index_exact_at :
    128 ≤ 128 ∧ ∃ p, Ctz.U32.blockIndexAtOffset (2 ^ 32 - 1) 128 = some p ∧
      ∀ q, Ctz.Locates 128 (2 ^ 32 - 1) q ↔ q = p :=
  ⟨by decide, (ctz_index_exact ⟨1, 1, 128, 16, 1⟩ (by decide)).2.1 _ (by decide)⟩

end LittlefsPure
