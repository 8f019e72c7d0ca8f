import LittlefsPure.Disk.Ctz

/-!
# The index arithmetic of CTZ chains

A chain's block `i` begins with `skip_pointers_in_block(i)` pointers, so the content
before block `i` is a sum over the blocks below it.  `block_index_at_offset` inverts
that sum with a division and two bit counts.  It is exact as long as the quotient
stays below `2 ^ 26`, which every 32 bit offset does at the smallest block size.

The identity behind the closed form is that counting from `n - 1` to `n` clears the
trailing ones, one for each trailing zero of `n`, and sets one bit.

## Why twenty-six bits

The first quotient is too large, since it takes no account of the pointers, and the correction
takes away the bytes of the pointers that it stands for: four for each one bit below it, and
eight.  The corrected quotient is right as long as this is less than a block holds.  At the
smallest block size a block holds 120 bytes behind its two pointers, and a number below `2 ^ 26`
has no more than 26 one bits, which makes 112.  A 32 bit offset has a quotient below that.
-/

namespace LittlefsPure
namespace Ctz

/-! ## Bit counts -/

theorem popcount_zero (fuel : ℕ) : popcount fuel 0 = 0 := by
  induction fuel with
  | zero => rfl
  | succ fuel ih =>
      rw [popcount]
      simpa using ih

theorem popcount_le {fuel n k : ℕ} (h : n < 2 ^ k) : popcount fuel n ≤ k := by
  induction k generalizing fuel n with
  | zero =>
      have hn : n = 0 := by omega
      rw [hn, popcount_zero]
  | succ k ih =>
      cases fuel with
      | zero => exact Nat.zero_le _
      | succ fuel =>
          have hhalf : n / 2 < 2 ^ k := by omega
          have hrest : popcount fuel (n / 2) ≤ k := ih hhalf
          rw [popcount]
          omega

theorem popcount_fuel_le (fuel n : ℕ) : popcount fuel n ≤ fuel := by
  induction fuel generalizing n with
  | zero => exact Nat.le_refl _
  | succ fuel ih =>
      have hrest := ih (n / 2)
      rw [popcount]
      omega

theorem trailingZeros_add_popcount {fuel n : ℕ} (hpos : 0 < n) (hlt : n < 2 ^ fuel) :
    trailingZeros fuel n + popcount fuel n = popcount fuel (n - 1) + 1 := by
  induction fuel generalizing n with
  | zero => omega
  | succ fuel ih =>
      rw [trailingZeros, popcount, popcount]
      by_cases hodd : n % 2 = 1
      · have hhalf : (n - 1) / 2 = n / 2 := by omega
        rw [if_pos hodd, hhalf]
        omega
      · have hhalf : (n - 1) / 2 = n / 2 - 1 := by omega
        have hrest := ih (n := n / 2) (by omega) (by omega)
        rw [if_neg hodd, hhalf]
        omega

theorem trailingZeros_lt {fuel n : ℕ} (hpos : 0 < n) (hlt : n < 2 ^ fuel) :
    trailingZeros fuel n < fuel := by
  induction fuel generalizing n with
  | zero => omega
  | succ fuel ih =>
      rw [trailingZeros]
      by_cases hodd : n % 2 = 1
      · rw [if_pos hodd]
        exact Nat.succ_pos _
      · have hrest := ih (n := n / 2) (by omega) (by omega)
        rw [if_neg hodd]
        omega

theorem skipPointers_le {i : ℕ} (h : i < 2 ^ 32) : skipPointersInBlock i ≤ 32 := by
  unfold skipPointersInBlock
  split_ifs with hi
  · exact Nat.zero_le _
  · exact trailingZeros_lt (Nat.pos_of_ne_zero hi) h

theorem skipPointers_pos {i : ℕ} (h : i ≠ 0) : 1 ≤ skipPointersInBlock i := by
  rw [skipPointersInBlock, if_neg h]
  exact Nat.succ_pos _

theorem two_le_skipPointers {i : ℕ} (h : i ≠ 0) (heven : i % 2 = 0) :
    2 ≤ skipPointersInBlock i := by
  rw [skipPointersInBlock, if_neg h, trailingZeros, if_neg (by omega)]
  omega

/-! ## Content before a block -/

/-- The bytes of content that the blocks below `i` hold. -/
def capacityBelow (blockSize : ℕ) : ℕ → ℕ
  | 0 => 0
  | i + 1 => capacityBelow blockSize i + contentBytesInBlock i blockSize

theorem capacityBelow_mono {blockSize i j : ℕ} (h : i ≤ j) :
    capacityBelow blockSize i ≤ capacityBelow blockSize j := by
  induction j, h using Nat.le_induction with
  | base => exact Nat.le_refl _
  | succ j _ ih => exact Nat.le_trans ih (Nat.le_add_right _ _)

/-- The closed form of the sum. -/
theorem capacityBelow_succ {blockSize i : ℕ} (hB : 128 ≤ blockSize) (hi : i + 1 < 2 ^ 32) :
    capacityBelow blockSize (i + 1) = (i + 1) * (blockSize - 8) + 8 + 4 * popcount 32 i := by
  induction i with
  | zero =>
      rw [popcount_zero]
      simp only [capacityBelow, contentBytesInBlock, skipPointersInBlock, if_true]
      omega
  | succ i ih =>
      have hprev := ih (by omega)
      have hbits : trailingZeros 32 (i + 1) + popcount 32 (i + 1) = popcount 32 (i + 1 - 1) + 1 :=
        trailingZeros_add_popcount (by omega) (by omega)
      have htz : trailingZeros 32 (i + 1) < 32 := trailingZeros_lt (by omega) (by omega)
      rw [Nat.add_sub_cancel] at hbits
      rw [capacityBelow, hprev, contentBytesInBlock, skipPointersInBlock, if_neg (by omega),
        Nat.succ_mul (i + 1)]
      omega

/-! ## From an offset to a block -/

/-- A block index with the offset inside the block that holds byte `offset` of the
content. -/
structure Locates (blockSize offset : ℕ) (p : ℕ × ℕ) : Prop where
  lower : capacityBelow blockSize p.1 ≤ offset
  upper : offset < capacityBelow blockSize (p.1 + 1)
  inner : p.2 = 4 * skipPointersInBlock p.1 + (offset - capacityBelow blockSize p.1)

theorem blockIndexAtOffset_locates {blockSize offset : ℕ} (hB : 128 ≤ blockSize)
    (hoff : offset / (blockSize - 8) < 2 ^ 26) :
    Locates blockSize offset (blockIndexAtOffset offset blockSize) := by
  set b := blockSize - 8 with hb
  set i₀ := offset / b with hi₀
  have hbpos : 0 < b := by omega
  have hdiv : i₀ * b ≤ offset := Nat.div_mul_le_self _ _
  have hlt : offset < (i₀ + 1) * b := by
    rw [Nat.mul_comm]
    exact Nat.lt_mul_div_succ _ hbpos
  rw [Nat.succ_mul] at hlt
  by_cases hzero : i₀ = 0
  · have hval : blockIndexAtOffset offset blockSize = (0, offset) := by
      simp only [blockIndexAtOffset]
      rw [if_pos (by exact hzero)]
    rw [hval]
    refine ⟨Nat.zero_le _, ?_, ?_⟩
    · rw [capacityBelow_succ hB (by omega)]
      rw [hzero] at hlt
      omega
    · simp [skipPointersInBlock, capacityBelow]
  -- the first quotient is the index or one past it
  obtain ⟨j, hj⟩ : ∃ j, i₀ = j + 1 := Nat.exists_eq_succ_of_ne_zero hzero
  have hpop : popcount 32 j ≤ 26 := popcount_le (by omega)
  have hcap := capacityBelow_succ (i := j) hB (by omega)
  have hprod : (j + 1) * b = j * b + b := Nat.succ_mul _ _
  rw [← hb] at hcap
  rw [hj] at hdiv hlt
  have hval : blockIndexAtOffset offset blockSize =
      ((offset - 4 * (popcount 32 j + 2)) / b,
        offset - b * ((offset - 4 * (popcount 32 j + 2)) / b) -
          4 * popcount 32 ((offset - 4 * (popcount 32 j + 2)) / b)) := by
    simp only [blockIndexAtOffset]
    rw [if_neg (by exact hzero)]
    simp only [show offset / (blockSize - 2 * 4) = j + 1 from hj, Nat.add_sub_cancel]
    rfl
  rw [hval]
  by_cases hhigh : capacityBelow blockSize (j + 1) ≤ offset
  · have hquot : (offset - 4 * (popcount 32 j + 2)) / b = j + 1 := by
      rw [Nat.div_eq_iff hbpos]
      omega
    rw [hquot]
    have hnext := capacityBelow_succ (i := j + 1) hB (by omega)
    rw [← hb, Nat.succ_mul] at hnext
    refine ⟨hhigh, by simp only; omega, ?_⟩
    have hbits : trailingZeros 32 (j + 1) + popcount 32 (j + 1) = popcount 32 (j + 1 - 1) + 1 :=
      trailingZeros_add_popcount (by omega) (by omega)
    have hcomm : b * (j + 1) = j * b + b := by rw [Nat.mul_comm, hprod]
    rw [Nat.add_sub_cancel] at hbits
    simp only [skipPointersInBlock, if_neg (Nat.succ_ne_zero j), hcap, hcomm]
    omega
  · have hquot : (offset - 4 * (popcount 32 j + 2)) / b = j := by
      rw [Nat.div_eq_iff hbpos]
      omega
    rw [hquot]
    have hcomm : b * j = j * b := Nat.mul_comm _ _
    cases j with
    | zero =>
        refine ⟨Nat.zero_le _, Nat.lt_of_not_le hhigh, ?_⟩
        simp [skipPointersInBlock, capacityBelow, popcount_zero]
    | succ j =>
        have hprev := capacityBelow_succ (i := j) hB (by omega)
        have hpop' : popcount 32 j ≤ 26 := popcount_le (by omega)
        rw [← hb] at hprev
        refine ⟨by simp only; omega, Nat.lt_of_not_le hhigh, ?_⟩
        have hbits : trailingZeros 32 (j + 1) + popcount 32 (j + 1) = popcount 32 (j + 1 - 1) + 1 :=
          trailingZeros_add_popcount (by omega) (by omega)
        rw [Nat.add_sub_cancel] at hbits
        simp only [skipPointersInBlock, if_neg (Nat.succ_ne_zero j), hprev, hcomm]
        omega

/-- A quotient that is in range for the index arithmetic.  Every 32 bit offset has one, and
so has every offset whose computed index is small. -/
theorem inRange_of_index {blockSize offset n : ℕ} (hB : 128 ≤ blockSize) (hn : n ≤ 2 ^ 20)
    (h : (blockIndexAtOffset offset blockSize).1 < n) : offset / (blockSize - 8) < 2 ^ 26 := by
  have hbpos : 0 < blockSize - 8 := by omega
  by_cases hzero : offset / (blockSize - 8) = 0
  · omega
  have hval : (blockIndexAtOffset offset blockSize).1 =
      (offset - 4 * (popcount 32 (offset / (blockSize - 8) - 1) + 2)) / (blockSize - 8) := by
    simp only [blockIndexAtOffset]
    rw [if_neg (by exact hzero)]
  have hpop : popcount 32 (offset / (blockSize - 8) - 1) ≤ 32 := popcount_fuel_le _ _
  rw [hval, Nat.div_lt_iff_lt_mul hbpos] at h
  rw [Nat.div_lt_iff_lt_mul hbpos]
  have hmul : n * (blockSize - 8) ≤ 2 ^ 20 * (blockSize - 8) := Nat.mul_le_mul_right _ hn
  omega

/-! ## The number of blocks -/

/-- A size the index arithmetic handles. -/
def SizeInRange (blockSize size : ℕ) : Prop := (size - 1) / (blockSize - 8) < 2 ^ 26

/-- `block_count` is the least number of blocks whose content covers the size. -/
theorem blockCount_le_iff {blockSize size n : ℕ} (hB : 128 ≤ blockSize)
    (hsize : SizeInRange blockSize size) :
    blockCount size blockSize ≤ n ↔ size ≤ capacityBelow blockSize n := by
  by_cases hzero : size = 0
  · simp [blockCount, hzero]
  obtain ⟨hlower, hupper, -⟩ := blockIndexAtOffset_locates hB hsize
  rw [blockCount, if_neg hzero]
  constructor
  · intro h
    have hmono := @capacityBelow_mono blockSize _ _ h
    omega
  · intro h
    by_contra hlt
    have hmono := @capacityBelow_mono blockSize _ _ (Nat.le_of_lt_succ (Nat.lt_of_not_le hlt))
    omega

theorem blockCount_pos {blockSize size : ℕ} (h : 0 < size) : 0 < blockCount size blockSize := by
  rw [blockCount, if_neg (Nat.ne_of_gt h)]
  exact Nat.succ_pos _

/-- A size whose computed block count is small is in range. -/
theorem sizeInRange_of_blockCount {blockSize size : ℕ} (hB : 128 ≤ blockSize)
    (h : blockCount size blockSize ≤ 2 ^ 20) : SizeInRange blockSize size := by
  by_cases hzero : size = 0
  · simp [SizeInRange, hzero]
  · rw [blockCount, if_neg hzero] at h
    exact inRange_of_index hB (Nat.le_refl _) h

theorem sizeInRange_of_le {blockSize size size' : ℕ} (h : SizeInRange blockSize size')
    (hle : size ≤ size') : SizeInRange blockSize size :=
  Nat.lt_of_le_of_lt (Nat.div_le_div_right (Nat.sub_le_sub_right hle 1)) h

theorem blockCount_mono {blockSize size size' : ℕ} (hB : 128 ≤ blockSize)
    (h : SizeInRange blockSize size') (hle : size ≤ size') :
    blockCount size blockSize ≤ blockCount size' blockSize := by
  rw [blockCount_le_iff hB (sizeInRange_of_le h hle)]
  exact Nat.le_trans hle ((blockCount_le_iff hB h).1 (Nat.le_refl _))

end Ctz
end LittlefsPure
