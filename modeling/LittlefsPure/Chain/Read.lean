import LittlefsPure.Chain.Laid
import LittlefsPure.Disk.Chain

/-!
# Reading a chain

The traversals on a chain that holds content: the collecting walk finds its blocks, the
descent finds the block of an index, and `read_ctz_at` reads a slice of the content.

## Why the traversals are taken apart

`read_ctz_at` descends to the block of the first byte and then reads forward one block at a
time, with a descent for each.  The descent and the share of one block are lemmas of their own,
so the read is an induction on the blocks between the first byte and the last, and the sizes at
which its sums stay within the word are a matter of `Chain.Sizes`.
-/

namespace LittlefsPure

open Logic

namespace Block

theorem getElem?_slice (b : Block) {off n p : ℕ} (h : p < n) :
    (b.slice off n)[p]? = some (b.cell (off + p)) := by
  simp only [slice, cell, List.getD_eq_getElem?_getD]
  by_cases hp : p < ((b.bytes.drop off).take n).length
  · rw [List.getElem?_append_left hp, List.getElem?_take_of_lt h, List.getElem?_drop]
    rw [List.length_take, List.length_drop] at hp
    rw [List.getElem?_eq_getElem (by omega)]
    rfl
  · rw [List.getElem?_append_right (Nat.le_of_not_lt hp), List.getElem?_replicate]
    rw [List.length_take, List.length_drop] at hp ⊢
    have hnone : b.bytes[off + p]? = none := List.getElem?_eq_none_iff.2 (by omega)
    rw [if_pos (by omega), hnone]
    rfl

theorem length_slice (b : Block) (off n : ℕ) : (b.slice off n).length = n := by
  simp only [slice, List.length_append, List.length_replicate, List.length_take]
  omega

/-- A slice whose cells are known. -/
theorem slice_eq {b : Block} {off : ℕ} {bytes : List Byte}
    (h : ∀ p byte, bytes[p]? = some byte → b.cell (off + p) = byte) :
    b.slice off bytes.length = bytes := by
  refine List.ext_getElem? fun p => ?_
  by_cases hp : p < bytes.length
  · have hbyte := List.getElem?_eq_getElem hp
    rw [getElem?_slice b hp, hbyte, h p _ hbyte]
  · rw [List.getElem?_eq_none (by rw [length_slice]; omega), List.getElem?_eq_none (by omega)]

end Block

namespace Ctz

section Laid

variable {g : Geometry} {d : Device} {blocks : List ℕ} {content : List Byte}

theorem requireInBounds_of_lt {b : ℕ} (h : b < g.blockCount) : requireInBounds g b = .ok b :=
  requireInBounds_eq_ok.2 ⟨h, rfl⟩

theorem Laid.read (h : Laid g d blocks content) (hdev : d.blocks.length = g.blockCount) {b : ℕ}
    (hb : b ∈ blocks) : d.read b = .ok (d.get b) :=
  Device.read_eq_ok.2 ⟨hdev ▸ h.inBounds b hb, rfl⟩

theorem take_concat {i block : ℕ} (hb : blocks[i]? = some block) :
    blocks.take (i + 1) = blocks.take i ++ [block] := by
  rw [List.take_add_one, hb]
  rfl

/-- The collecting walk finds the blocks. -/
theorem Laid.collectFrom (h : Laid g d blocks content) (hdev : d.blocks.length = g.blockCount)
    {fuel index head : ℕ} (hfuel : index < fuel) (hhead : blocks[index]? = some head) :
    collectFrom g d fuel head index = .ok (blocks.take (index + 1)) := by
  induction fuel using Nat.strong_induction_on generalizing index head with
  | _ fuel ih =>
      obtain ⟨n, rfl⟩ : ∃ n, fuel = n + 1 := ⟨fuel - 1, by omega⟩
      have hmem := List.mem_of_getElem? hhead
      rw [Ctz.collectFrom, requireInBounds_of_lt (h.inBounds head hmem)]
      show (if index = 0 then _ else _) = _
      by_cases hzero : index = 0
      · subst hzero
        rw [if_pos rfl, take_concat hhead]
        rfl
      · obtain ⟨next, hnext, hword⟩ := h.pointer index head hhead 0 (skipPointers_pos hzero)
        rw [Nat.pow_zero] at hnext
        rw [if_neg hzero, h.read hdev hmem]
        show (if index % 2 = 0 then _ else _) = _
        by_cases heven : index % 2 = 0
        · obtain ⟨skip, hskip, hword'⟩ :=
            h.pointer index head hhead 1 (two_le_skipPointers hzero heven)
          rw [Nat.pow_one] at hskip
          have hrest := ih n (Nat.lt_succ_self n) (by omega) hskip
          have hindex : index - 2 + 1 = index - 1 := by omega
          rw [if_pos heven, hword, hword',
            requireInBounds_of_lt (h.inBounds next (List.mem_of_getElem? hnext)), hrest]
          show Except.ok (blocks.take (index - 2 + 1) ++ [next, head]) = _
          have hsplit := take_concat hnext
          have hindex' : index - 1 + 1 = index := by omega
          rw [hindex'] at hsplit
          rw [take_concat hhead, hsplit, hindex, List.append_assoc]
          rfl
        · have hrest := ih n (Nat.lt_succ_self n) (by omega) hnext
          have hindex : index - 1 + 1 = index := by omega
          rw [if_neg heven, hword, hrest, hindex, take_concat hhead]
          rfl

/-- The walk from the head, with room for the blocks. -/
theorem Laid.collect (h : Laid g d blocks content) (hdev : d.blocks.length = g.blockCount)
    {head capacity : ℕ} (hcap : blocks.length ≤ capacity)
    (hhead : ∀ b, blocks.getLast? = some b → head = b) :
    collectChainBlocks g d head blocks.length capacity = .ok blocks := by
  by_cases hzero : blocks.length = 0
  · rw [collectChainBlocks, if_pos hzero, List.length_eq_zero_iff.1 hzero]
  · have hlast : blocks[blocks.length - 1]? = some head := by
      cases hl : blocks.getLast? with
      | none =>
          rw [List.getLast?_eq_none_iff] at hl
          rw [hl] at hzero
          exact absurd rfl hzero
      | some b =>
          rw [hhead b hl, ← hl, List.getLast?_eq_getElem?]
    have hwalk : Ctz.collectFrom g d blocks.length head (blocks.length - 1) =
        .ok (blocks.take (blocks.length - 1 + 1)) := h.collectFrom hdev (by omega) hlast
    have hindex : blocks.length - 1 + 1 = blocks.length := by omega
    rw [hindex, List.take_length] at hwalk
    rw [collectChainBlocks, if_neg hzero, if_neg (Nat.not_lt_of_le hcap)]
    exact hwalk

/-- Each block points where a new chain's block does: at the blocks one, two, four and so on
before it. -/
def CarriesPointers (d : Device) (blocks : List ℕ) : Prop :=
  ∀ i block, blocks[i]? = some block → ∀ k < skipPointersInBlock i, ∃ target,
    blocks[i - 2 ^ k]? = some target ∧ (d.get block).word k = target

/-- The descent finds the block of an index. -/
theorem CarriesPointers.seekFrom (h : CarriesPointers d blocks)
    (hin : ∀ b ∈ blocks, b < g.blockCount) (hdev : d.blocks.length = g.blockCount)
    {target block : ℕ} (htarget : blocks[target]? = some block) {fuel cur index : ℕ}
    (hcur : blocks[index]? = some cur) (hle : target ≤ index) (hfuel : index ≤ target + fuel) :
    seekFrom g d target fuel cur index = .ok block := by
  have hdone : target = index → cur = block := by
    rintro rfl
    rw [hcur] at htarget
    exact Option.some.inj htarget
  induction fuel generalizing cur index with
  | zero =>
      rw [Ctz.seekFrom, hdone (by omega)]
  | succ fuel ih =>
      rw [Ctz.seekFrom]
      by_cases hlt : target < index
      · have hread : d.read cur = .ok (d.get cur) :=
          Device.read_eq_ok.2 ⟨hdev ▸ hin cur (List.mem_of_getElem? hcur), rfl⟩
        have hk : min (Nat.log2 (index - target)) (trailingZeros 32 index) <
            skipPointersInBlock index := by
          rw [skipPointersInBlock, if_neg (by omega)]
          exact Nat.lt_succ_of_le (Nat.min_le_right _ _)
        obtain ⟨next, hnext, hword⟩ := h index cur hcur _ hk
        have hpow : 2 ^ min (Nat.log2 (index - target)) (trailingZeros 32 index) ≤ index - target :=
          Nat.le_trans (Nat.pow_le_pow_right (by decide) (Nat.min_le_left _ _))
            (Nat.log2_self_le (by omega))
        have hpos := Nat.two_pow_pos (min (Nat.log2 (index - target)) (trailingZeros 32 index))
        rw [if_pos hlt]
        simp only [hread, bind, Except.bind, hword,
          requireInBounds_of_lt (hin next (List.mem_of_getElem? hnext))]
        refine ih hnext (by omega) (by omega) ?_
        intro heq
        rw [← heq, htarget] at hnext
        exact (Option.some.inj hnext).symm
      · rw [if_neg hlt, hdone (by omega)]

theorem CarriesPointers.seekBlock (h : CarriesPointers d blocks)
    (hin : ∀ b ∈ blocks, b < g.blockCount) (hdev : d.blocks.length = g.blockCount)
    {head fromIndex target block : ℕ} (hhead : blocks[fromIndex]? = some head)
    (htarget : blocks[target]? = some block) (hle : target ≤ fromIndex) :
    seekBlock g d head fromIndex target = .ok block := by
  rw [Ctz.seekBlock, if_neg (Nat.not_lt_of_le hle),
    requireInBounds_of_lt (hin head (List.mem_of_getElem? hhead))]
  exact h.seekFrom hin hdev htarget hhead hle (by omega)

theorem Laid.seekBlock (h : Laid g d blocks content) (hdev : d.blocks.length = g.blockCount)
    {head fromIndex target block : ℕ} (hhead : blocks[fromIndex]? = some head)
    (htarget : blocks[target]? = some block) (hle : target ≤ fromIndex) :
    seekBlock g d head fromIndex target = .ok block :=
  CarriesPointers.seekBlock h.pointer h.inBounds hdev hhead htarget hle

/-! ## The forward read -/

/-- The cells of one block, as a slice of the content. -/
theorem Laid.slice (h : Laid g d blocks content) {i block : ℕ} (hb : blocks[i]? = some block)
    {skip n : ℕ} (hn : skip + n ≤ contentBytesInBlock i g.blockSize)
    (hlen : capacityBelow g.blockSize i + skip + n ≤ content.length) :
    (d.get block).slice (headerSize i + skip) n =
      (content.drop (capacityBelow g.blockSize i + skip)).take n := by
  have hlen' : ((content.drop (capacityBelow g.blockSize i + skip)).take n).length = n := by
    rw [List.length_take, List.length_drop]
    omega
  have hcells : ∀ p byte, ((content.drop (capacityBelow g.blockSize i + skip)).take n)[p]? =
      some byte → (d.get block).cell (headerSize i + skip + p) = byte := by
    intro p byte hbyte
    rw [List.getElem?_take] at hbyte
    split_ifs at hbyte with hp
    rw [List.getElem?_drop, Nat.add_assoc] at hbyte
    rw [Nat.add_assoc]
    exact h.stored i block hb _ (by omega) byte hbyte
  have hslice := Block.slice_eq hcells
  rw [hlen'] at hslice
  exact hslice

theorem Laid.readBlocks (h : Laid g d blocks content) (hdev : d.blocks.length = g.blockCount)
    {startOff : ℕ} {rest : List ℕ} {i want : ℕ} (hrest : blocks.drop i = rest)
    (hwant : want = 0 ∨ max startOff (capacityBelow g.blockSize i) + want ≤ content.length) :
    readBlocks g d startOff rest i (capacityBelow g.blockSize i) want =
      .ok ((content.drop (max startOff (capacityBelow g.blockSize i))).take want) := by
  induction rest generalizing i want with
  | nil =>
      have hi : blocks.length ≤ i := List.drop_eq_nil_iff.1 hrest
      have hfits := h.fits
      have hmono := @capacityBelow_mono g.blockSize _ _ hi
      have hzero : want = 0 := by omega
      rw [hzero, List.take_zero]
      rfl
  | cons block rest ih =>
      have hb : blocks[i]? = some block := by
        rw [← List.head?_drop, hrest]
        rfl
      have hnext : blocks.drop (i + 1) = rest := by
        rw [← List.drop_drop, hrest]
        rfl
      rw [Ctz.readBlocks]
      by_cases hzero : want = 0
      · rw [if_pos hzero, hzero, List.take_zero]
      have hwant' := hwant.resolve_left hzero
      rw [if_neg hzero]
      show (if capacityBelow g.blockSize (i + 1) ≤ startOff then _ else _) = _
      by_cases hskip : capacityBelow g.blockSize (i + 1) ≤ startOff
      · have hmono := @capacityBelow_mono g.blockSize i (i + 1) (Nat.le_succ i)
        rw [if_pos hskip]
        have hsame : max startOff (capacityBelow g.blockSize i) =
            max startOff (capacityBelow g.blockSize (i + 1)) := by omega
        rw [hsame] at hwant ⊢
        exact ih hnext hwant
      · rw [if_neg hskip, h.read hdev (List.mem_of_getElem? hb)]
        set skip := startOff - capacityBelow g.blockSize i with hskip'
        set take := min (contentBytesInBlock i g.blockSize - skip) want with htake
        have hend : capacityBelow g.blockSize (i + 1) =
            capacityBelow g.blockSize i + contentBytesInBlock i g.blockSize := rfl
        have hpos : max startOff (capacityBelow g.blockSize i) =
            capacityBelow g.blockSize i + skip := by omega
        have hslice : (d.get block).slice (headerSize i + skip) take =
            (content.drop (capacityBelow g.blockSize i + skip)).take take :=
          h.slice hb (by omega) (by omega)
        have hwantNext : want - take = 0 ∨
            max startOff (capacityBelow g.blockSize (i + 1)) + (want - take) ≤ content.length := by
          omega
        have hmore := ih hnext hwantNext
        have hpos' : max startOff (capacityBelow g.blockSize (i + 1)) =
            capacityBelow g.blockSize (i + 1) := by omega
        rw [hpos'] at hmore
        show (do
          let more ← Ctz.readBlocks g d startOff rest (i + 1) (capacityBelow g.blockSize (i + 1))
            (want - take)
          pure ((d.get block).slice (headerSize i + skip) take ++ more)) = _
        rw [hmore, hslice, hpos]
        show Except.ok _ = _
        by_cases hlast : take = want
        · rw [hlast, Nat.sub_self, List.take_zero, List.append_nil]
        · have hsplit : capacityBelow g.blockSize (i + 1) =
              capacityBelow g.blockSize i + skip + take := by omega
          have hwhole : want = take + (want - take) := by omega
          conv_rhs => rw [hwhole]
          rw [List.take_add, List.drop_drop, hsplit]

end Laid

/-- `read_ctz_at` reads the slice. -/
theorem Laid.readCtzAt {g : Geometry} {d : Device} {blocks : List ℕ} {content : List Byte}
    (h : Laid g d blocks content) (hdev : d.blocks.length = g.blockCount)
    (hB : 128 ≤ g.blockSize) (hcount : blocks.length = blockCount content.length g.blockSize)
    (hmax : blocks.length ≤ maxCtzBlocks) {head : ℕ}
    (hhead : ∀ b, blocks.getLast? = some b → head = b) (startOff outLen : ℕ) :
    readCtzAt g d head content.length startOff outLen =
      .ok ((content.drop startOff).take outLen) := by
  have hmin : ¬ g.blockSize < Geometry.blockSizeMin := Nat.not_lt_of_le hB
  rw [Ctz.readCtzAt, if_neg hmin]
  by_cases hnone : content.length = 0 ∨ outLen = 0 ∨ content.length ≤ startOff
  · rw [if_pos hnone]
    have hempty : (content.drop startOff).take outLen = [] := by
      rcases hnone with hnone | hnone | hnone
      · rw [List.eq_nil_of_length_eq_zero hnone, List.drop_nil, List.take_nil]
      · rw [hnone, List.take_zero]
      · rw [List.drop_eq_nil_of_le hnone, List.take_nil]
    rw [hempty]
  · rw [if_neg hnone]
    have hblocks := h.collect hdev hmax hhead
    rw [hcount] at hblocks hmax
    simp only [if_neg (Nat.not_lt_of_le hmax), hblocks, bind, Except.bind]
    set want := min content.length (startOff + outLen) - startOff with hwant
    have hroom : want = 0 ∨ max startOff (capacityBelow g.blockSize 0) + want ≤ content.length := by
      rw [capacityBelow]
      omega
    have hread : Ctz.readBlocks g d startOff blocks 0 (capacityBelow g.blockSize 0) want = _ :=
      h.readBlocks hdev (List.drop_zero ..) hroom
    rw [capacityBelow, Nat.max_zero] at hread
    rw [hread]
    congr 1
    have hlen : want = min outLen (content.drop startOff).length := by
      rw [List.length_drop]
      omega
    rw [hlen, ← List.take_take, List.take_length]

end Ctz
end LittlefsPure
