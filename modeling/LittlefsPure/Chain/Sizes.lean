import LittlefsPure.Chain.Exact
import LittlefsPure.Chain.Traverse
import LittlefsPure.Fs.File

/-!
# Sizes at the end of the word

A chain may have 256 blocks, and a block may have any size that is a `u32`, so a chain can
hold more bytes than a `u32` can count.  The functions of the source that add sizes are
written here with operations that have no value where the `u32` sum overflows or the cast
of a length truncates.  For each of them the inputs are named on which no operation goes
wrong and a size past the bound is refused with nothing changed.

## Why the reads are here as well

A read past the end of a file is cut to its end, so the sizes of a read come from the length of the
output and from the capacity of the blocks that it passes.  The first is a length of the caller's,
cast to a word; the second may exceed a word only for blocks of sixteen megabytes and more.  The
geometry admits both, and both go wrong in silence.
-/

namespace LittlefsPure

open Logic

namespace Ctz

/-- A size that needs more blocks than a chain may have. -/
def OverLong (blockSize size : ℕ) : Prop := capacityBelow blockSize maxCtzBlocks < size

instance (blockSize size : ℕ) : Decidable (OverLong blockSize size) :=
  inferInstanceAs (Decidable (_ < _))

/-! ## The arithmetic of the source -/

namespace U32

open Checked

/-- The forward read of `read_ctz_at`: `outOff` of `target` bytes are copied, and block `i`
begins at logical offset `logicalOff`. -/
def readBlocks (g : Geometry) (d : Device) (startOff target : ℕ) :
    List ℕ → ℕ → ℕ → ℕ → Option (Except Error (List Byte))
  | [], _, _, _ => some (.ok [])
  | blk :: rest, i, logicalOff, outOff =>
      if target ≤ outOff then some (.ok [])
      else do
        let header ← mul 32 4 (← skipPointersInBlock i)
        let contentMax ← sub g.blockSize header
        let logicalEnd ← add 32 logicalOff contentMax
        if logicalEnd ≤ startOff then readBlocks g d startOff target rest (i + 1) logicalEnd outOff
        else
          let skip := startOff - logicalOff
          let take := min (← sub contentMax skip) (← sub target outOff)
          let pos ← add 32 header skip
          match d.read blk with
          | .error e => some (.error e)
          | .ok b =>
              let outOff ← add 32 outOff take
              let more ← readBlocks g d startOff target rest (i + 1) logicalEnd outOff
              some (more.map fun bytes => b.slice pos take ++ bytes)

/-- `read_ctz_at`. -/
def readCtzAt (g : Geometry) (d : Device) (head size startOff outLen : ℕ) :
    Option (Except Error (List Byte)) :=
  if g.blockSize < Geometry.blockSizeMin then some (.error .geometryMismatch)
  else if size = 0 ∨ outLen = 0 ∨ size ≤ startOff then some (.ok [])
  else do
    let totalBlocks ← blockCount size g.blockSize
    if maxCtzBlocks < totalBlocks then some (.error .outOfRange)
    else
      match collectChainBlocks g d head totalBlocks maxCtzBlocks with
      | .error e => some (.error e)
      | .ok blocks =>
          let len ← fit 32 outLen
          -- the sum saturates at the largest word
          let stop := min size (min (startOff + len) 0xFFFFFFFF)
          let target ← sub stop startOff
          readBlocks g d startOff target blocks 0 0 0

/-- The bounds checks of `stream_ctz_extend`: the old block count, the new size and the new
block count. -/
def extendBounds (g : Geometry) (oldSize dataLen : ℕ) : Option (Except Error (ℕ × ℕ × ℕ)) := do
  let nOld ← blockCount oldSize g.blockSize
  if maxCtzWriteBlocks < nOld then return .error .outOfRange
  let len ← fit 32 dataLen
  let newTotal ← add 32 oldSize len
  let newN ← blockCount newTotal g.blockSize
  if maxCtzWriteBlocks < newN then return .error .outOfRange
  return .ok (nOld, newTotal, newN)

/-- The bounds check of `write_ctz_to_pair`: the block count. -/
def writeBounds (g : Geometry) (contentLen : ℕ) : Option (Except Error ℕ) := do
  let totalBlocks ← blockCount (← fit 32 contentLen) g.blockSize
  if maxCtzWriteBlocks < totalBlocks then return .error .outOfRange
  return .ok totalBlocks

/-- `stream_ctz_extend`: the checks, then the writes for the sizes they have formed. -/
def streamCtzExtend (g : Geometry) (head oldSize : ℕ) (data : List Byte) :
    Option (FsM (ℕ × ℕ)) := do
  match ← extendBounds g oldSize data.length with
  | .error e => return throw e
  | .ok (nOld, newTotal, newN) => return do
      let _ ← FsM.lift (if 0 < nOld then requireInBounds g head else .ok head)
      noteResume head oldSize
      let (tailAddr, deferredFill, consumed) ← planTail g head oldSize data
      let newHead ← appendBlocks g tailAddr oldSize (newN - nOld) (data.drop consumed)
      fillTail head deferredFill
      FsM.holdChain newHead newTotal
      pure (newHead, newTotal)

end U32

section Checks

variable {g : Geometry} {size len : ℕ}

theorem overLong_iff (hB : 128 ≤ g.blockSize) (hsize : size < 2 ^ 32) :
    OverLong g.blockSize size ↔ maxCtzBlocks < blockCount size g.blockSize := by
  rw [OverLong, ← Nat.not_le, ← Nat.not_le, blockCount_le_iff hB (sizeInRange_of_lt hB hsize)]

/-- The bound of the writers is that of the readers. -/
theorem overLong_write (hB : 128 ≤ g.blockSize) (hsize : size < 2 ^ 32) :
    OverLong g.blockSize size ↔ maxCtzWriteBlocks < blockCount size g.blockSize :=
  overLong_iff hB hsize

/-- Below the end of the word, the checks are those of the exact sizes. -/
theorem extendBounds_exact (hB : 128 ≤ g.blockSize) (hsum : size + len < 2 ^ 32) :
    U32.extendBounds g size len = some (
      if maxCtzWriteBlocks < blockCount size g.blockSize then .error .outOfRange
      else if maxCtzWriteBlocks < blockCount (size + len) g.blockSize then .error .outOfRange
      else .ok (blockCount size g.blockSize, size + len, blockCount (size + len) g.blockSize)) := by
  rw [U32.extendBounds, blockCount_exact hB (by omega)]
  simp only [Option.bind_eq_bind, Option.bind_some]
  split_ifs with hold hnew
  · rfl
  all_goals
    rw [Checked.fit_eq_some.2 ⟨show len < 2 ^ 32 by omega, rfl⟩, Option.bind_some,
      Checked.add_of_lt hsum, Option.bind_some, blockCount_exact hB hsum, Option.bind_some]
  · rw [if_pos hnew]
    rfl
  · rw [if_neg hnew]
    rfl

theorem extendBounds_refused (hB : 128 ≤ g.blockSize) (hsize : size < 2 ^ 32)
    (hlong : OverLong g.blockSize size) :
    U32.extendBounds g size len = some (.error .outOfRange) := by
  rw [U32.extendBounds, blockCount_exact hB hsize]
  simp only [Option.bind_eq_bind, Option.bind_some]
  exact if_pos ((overLong_write hB hsize).1 hlong)

/-- Past the end of the word the cast truncates or the sum overflows. -/
theorem extendBounds_none (hB : 128 ≤ g.blockSize) (hsize : size < 2 ^ 32)
    (hshort : ¬ OverLong g.blockSize size) (hsum : 2 ^ 32 ≤ size + len) :
    U32.extendBounds g size len = none := by
  rw [U32.extendBounds, blockCount_exact hB hsize]
  simp only [Option.bind_eq_bind, Option.bind_some]
  rw [if_neg (mt (overLong_write hB hsize).2 hshort)]
  cases hfit : Checked.fit 32 len with
  | none => rfl
  | some n =>
      obtain ⟨-, rfl⟩ := Checked.fit_eq_some.1 hfit
      rw [Option.bind_some, Checked.add, Checked.fit_eq_none.2 hsum]
      rfl

/-- An append that ends within the word is made as with exact sizes. -/
theorem streamCtzExtend_exact (hB : 128 ≤ g.blockSize) (head : ℕ) {data : List Byte}
    (hsum : size + data.length < 2 ^ 32) :
    U32.streamCtzExtend g head size data = some (streamCtzExtend g head size data) := by
  rw [U32.streamCtzExtend, extendBounds_exact hB hsum, streamCtzExtend]
  by_cases hold : maxCtzWriteBlocks < blockCount size g.blockSize
  · rw [if_pos hold, if_pos hold]
    rfl
  by_cases hnew : maxCtzWriteBlocks < blockCount (size + data.length) g.blockSize
  · rw [if_neg hold, if_neg hold, if_pos hnew, if_pos hnew]
    rfl
  · rw [if_neg hold, if_neg hold, if_neg hnew, if_neg hnew]
    rfl

/-- The other appends to a file that is not too long already go wrong. -/
theorem streamCtzExtend_isSome (hB : 128 ≤ g.blockSize) (head : ℕ) {data : List Byte}
    (hsize : size < 2 ^ 32) (hshort : ¬ OverLong g.blockSize size) :
    (∃ m, U32.streamCtzExtend g head size data = some m) ↔ size + data.length < 2 ^ 32 := by
  constructor
  · rintro ⟨m, h⟩
    by_contra hover
    rw [U32.streamCtzExtend, extendBounds_none hB hsize hshort (Nat.le_of_not_lt hover)] at h
    cases h
  · intro hsum
    exact ⟨_, streamCtzExtend_exact hB head hsum⟩

/-- Content whose length is a word is given as many blocks as it needs. -/
theorem writeBounds_eq_ok (hB : 128 ≤ g.blockSize) {n : ℕ} (hlen : len < 2 ^ 32)
    (h : U32.writeBounds g len = some (.ok n)) :
    n = blockCount len g.blockSize ∧ n ≤ maxCtzWriteBlocks := by
  rw [U32.writeBounds, Checked.fit_eq_some.2 ⟨hlen, rfl⟩] at h
  simp only [Option.bind_eq_bind, Option.bind_some] at h
  rw [blockCount_exact hB hlen, Option.bind_some] at h
  split_ifs at h with hmany
  · cases h
  · cases h
    exact ⟨rfl, Nat.le_of_not_lt hmany⟩

theorem writeBounds_isSome (hB : 128 ≤ g.blockSize) :
    (∃ r, U32.writeBounds g len = some r) ↔ len < 2 ^ 32 := by
  constructor
  · rintro ⟨r, h⟩
    by_contra hle
    rw [U32.writeBounds, Checked.fit_eq_none.2 (Nat.le_of_not_lt hle)] at h
    cases h
  · intro hlen
    rw [U32.writeBounds, Checked.fit_eq_some.2 ⟨hlen, rfl⟩]
    simp only [Option.bind_eq_bind, Option.bind_some]
    rw [blockCount_exact hB hlen, Option.bind_some]
    split_ifs
    · exact ⟨_, rfl⟩
    · exact ⟨_, rfl⟩

end Checks

section Read

variable {g : Geometry} {d : Device} {head size start outLen target : ℕ}

/-- A turn of the checked loop, up to the sum of the offsets. -/
theorem readBlocks_turn (hB : 128 ≤ g.blockSize) {i lo outOff : ℕ} (hi : i < 2 ^ 32) (blk : ℕ)
    (rest : List ℕ) (hmore : outOff < target) :
    U32.readBlocks g d start target (blk :: rest) i lo outOff =
      ((Checked.add 32 lo (contentBytesInBlock i g.blockSize)).bind fun logicalEnd =>
        if logicalEnd ≤ start then
          U32.readBlocks g d start target rest (i + 1) logicalEnd outOff
        else do
          let take := min (← Checked.sub (contentBytesInBlock i g.blockSize) (start - lo))
            (← Checked.sub target outOff)
          let pos ← Checked.add 32 (headerSize i) (start - lo)
          match d.read blk with
          | .error e => some (.error e)
          | .ok b => do
              let outOff ← Checked.add 32 outOff take
              let more ← U32.readBlocks g d start target rest (i + 1) logicalEnd outOff
              some (more.map fun bytes => b.slice pos take ++ bytes)) := by
  have hskip := skipPointers_le hi
  rw [U32.readBlocks, if_neg (Nat.not_le.2 hmore), skipPointers_exact hi]
  simp only [Option.bind_eq_bind, Option.bind_some]
  rw [Checked.mul_of_lt (by omega), Option.bind_some, Checked.sub_of_le (by omega),
    Option.bind_some]
  rfl

theorem readBlocks_overflow (hB : 128 ≤ g.blockSize) {i lo outOff : ℕ} (hi : i < 2 ^ 32)
    (blk : ℕ) (rest : List ℕ) (hmore : outOff < target)
    (hend : 2 ^ 32 ≤ lo + contentBytesInBlock i g.blockSize) :
    U32.readBlocks g d start target (blk :: rest) i lo outOff = none := by
  rw [readBlocks_turn hB hi blk rest hmore, Checked.add, Checked.fit_eq_none.2 hend]
  rfl

theorem readBlocks_skip (hB : 128 ≤ g.blockSize) {i lo outOff : ℕ} (hi : i < 2 ^ 32)
    (blk : ℕ) (rest : List ℕ) (hmore : outOff < target)
    (hend : lo + contentBytesInBlock i g.blockSize < 2 ^ 32)
    (hskip : lo + contentBytesInBlock i g.blockSize ≤ start) :
    U32.readBlocks g d start target (blk :: rest) i lo outOff =
      U32.readBlocks g d start target rest (i + 1) (lo + contentBytesInBlock i g.blockSize)
        outOff := by
  rw [readBlocks_turn hB hi blk rest hmore, Checked.add_of_lt hend, Option.bind_some,
    if_pos hskip]

theorem readBlocks_take (hB : 128 ≤ g.blockSize) (hword : g.blockSize < 2 ^ 32) {i lo outOff : ℕ}
    (hi : i < 2 ^ 32) {blk : ℕ} {b : Block} (hread : d.read blk = .ok b) (rest : List ℕ)
    (hmore : outOff < target) (htarget : target < 2 ^ 32)
    (hend : lo + contentBytesInBlock i g.blockSize < 2 ^ 32)
    (htake : start < lo + contentBytesInBlock i g.blockSize) :
    U32.readBlocks g d start target (blk :: rest) i lo outOff =
      (U32.readBlocks g d start target rest (i + 1) (lo + contentBytesInBlock i g.blockSize)
        (outOff + min (contentBytesInBlock i g.blockSize - (start - lo)) (target - outOff))).map
          fun more => more.map fun bytes => b.slice (headerSize i + (start - lo))
            (min (contentBytesInBlock i g.blockSize - (start - lo)) (target - outOff)) ++
              bytes := by
  have hheader : headerSize i + contentBytesInBlock i g.blockSize = g.blockSize := by
    have hskip := skipPointers_le hi
    rw [headerSize, contentBytesInBlock]
    omega
  rw [readBlocks_turn hB hi blk rest hmore, Checked.add_of_lt hend, Option.bind_some,
    if_neg (Nat.not_le.2 htake)]
  simp only [Option.bind_eq_bind]
  rw [Checked.sub_of_le (by omega), Option.bind_some, Checked.sub_of_le (Nat.le_of_lt hmore),
    Option.bind_some, Checked.add_of_lt (by omega), Option.bind_some, hread]
  simp only
  rw [Checked.add_of_lt (by omega), Option.bind_some]
  exact Option.map_eq_bind.symm

/-- The end of the range lies in block `n - 1`. -/
structure Reaches (g : Geometry) (stop n : ℕ) : Prop where
  least : ∀ m, n ≤ m ↔ stop ≤ capacityBelow g.blockSize m
  few : n ≤ maxCtzBlocks

/-- Where the blocks up to the end hold less than `2 ^ 32` bytes, no sum goes wrong. -/
theorem readBlocks_exact (hB : 128 ≤ g.blockSize) (hword : g.blockSize < 2 ^ 32) {n : ℕ}
    (hn : Reaches g (start + target) n) (htarget : target < 2 ^ 32)
    (hfits : capacityBelow g.blockSize n < 2 ^ 32) {rest : List ℕ} {i : ℕ} (hi : i ≤ n)
    (hreads : ∀ b ∈ rest, d.read b = .ok (d.get b)) :
    U32.readBlocks g d start target rest i (capacityBelow g.blockSize i)
        (min target (capacityBelow g.blockSize i - start)) =
      some (readBlocks g d start rest i (capacityBelow g.blockSize i)
        (target - (capacityBelow g.blockSize i - start))) := by
  induction rest generalizing i with
  | nil => rfl
  | cons blk rest ih =>
      have hnext : capacityBelow g.blockSize (i + 1) =
        capacityBelow g.blockSize i + contentBytesInBlock i g.blockSize := rfl
      by_cases hdone : target ≤ capacityBelow g.blockSize i - start
      · rw [U32.readBlocks, if_pos (by omega), readBlocks, if_pos (by omega)]
      have hlt : i < n := by
        have hleast := hn.least i
        omega
      have hi32 : i < 2 ^ 32 := Nat.lt_of_lt_of_le hlt (hn.few.trans (by decide))
      have hcap : capacityBelow g.blockSize (i + 1) < 2 ^ 32 :=
        Nat.lt_of_le_of_lt (capacityBelow_mono hlt) hfits
      have hrest := ih (i := i + 1) hlt fun b hb => hreads b (List.mem_cons_of_mem _ hb)
      rw [hnext] at hcap hrest
      rw [readBlocks, if_neg (by omega)]
      by_cases hskip : capacityBelow g.blockSize i + contentBytesInBlock i g.blockSize ≤ start
      · have hout : min target (capacityBelow g.blockSize i - start) =
            min target
              (capacityBelow g.blockSize i + contentBytesInBlock i g.blockSize - start) := by
          omega
        have hwant : target - (capacityBelow g.blockSize i - start) =
            target - (capacityBelow g.blockSize i + contentBytesInBlock i g.blockSize - start) := by
          omega
        rw [readBlocks_skip hB hi32 blk rest (by omega) hcap hskip, hout, hrest, hwant]
        exact congrArg some (if_pos hskip).symm
      · have hblk := hreads blk (List.mem_cons_self ..)
        have hout : capacityBelow g.blockSize i - start +
            min (contentBytesInBlock i g.blockSize - (start - capacityBelow g.blockSize i))
              (target - (capacityBelow g.blockSize i - start)) =
            min target
              (capacityBelow g.blockSize i + contentBytesInBlock i g.blockSize - start) := by
          omega
        have hwant : target - (capacityBelow g.blockSize i - start) -
            min (contentBytesInBlock i g.blockSize - (start - capacityBelow g.blockSize i))
              (target - (capacityBelow g.blockSize i - start)) =
            target - (capacityBelow g.blockSize i + contentBytesInBlock i g.blockSize - start) := by
          omega
        rw [Nat.min_eq_right (by omega : capacityBelow g.blockSize i - start ≤ target),
          readBlocks_take hB hword hi32 hblk rest (by omega) htarget hcap (by omega), hout, hrest,
          ← hwant, Option.map_some]
        refine congrArg some ?_
        show _ = if capacityBelow g.blockSize i + contentBytesInBlock i g.blockSize ≤
            start then _ else _
        rw [if_neg hskip, hblk]
        rfl

/-- Where they hold more, the sum of some turn does not fit. -/
theorem readBlocks_none (hB : 128 ≤ g.blockSize) (hword : g.blockSize < 2 ^ 32) {n : ℕ}
    (hn : Reaches g (start + target) n) (hpos : 0 < target) (htarget : target < 2 ^ 32)
    (hover : 2 ^ 32 ≤ capacityBelow g.blockSize n) {rest : List ℕ} {i : ℕ} (hi : i < n)
    (hlen : n ≤ i + rest.length) (hreads : ∀ b ∈ rest, d.read b = .ok (d.get b)) :
    U32.readBlocks g d start target rest i (capacityBelow g.blockSize i)
      (min target (capacityBelow g.blockSize i - start)) = none := by
  induction rest generalizing i with
  | nil =>
      rw [List.length_nil] at hlen
      omega
  | cons blk rest ih =>
      have hnext : capacityBelow g.blockSize (i + 1) =
        capacityBelow g.blockSize i + contentBytesInBlock i g.blockSize := rfl
      have hmore : min target (capacityBelow g.blockSize i - start) < target := by
        have hleast := hn.least i
        omega
      have hi32 : i < 2 ^ 32 := Nat.lt_of_lt_of_le hi (hn.few.trans (by decide))
      rw [List.length_cons] at hlen
      by_cases hcap : 2 ^ 32 ≤ capacityBelow g.blockSize (i + 1)
      · exact readBlocks_overflow hB hi32 blk rest hmore hcap
      have hlast : i + 1 ≠ n := fun heq => hcap (heq ▸ hover)
      have hrest := ih (i := i + 1) (by omega) (by omega)
        fun b hb => hreads b (List.mem_cons_of_mem _ hb)
      rw [hnext] at hcap hrest
      by_cases hskip : capacityBelow g.blockSize i + contentBytesInBlock i g.blockSize ≤ start
      · have hout : min target (capacityBelow g.blockSize i - start) =
            min target
              (capacityBelow g.blockSize i + contentBytesInBlock i g.blockSize - start) := by
          omega
        rw [readBlocks_skip hB hi32 blk rest hmore (by omega) hskip, hout, hrest]
      · have hblk := hreads blk (List.mem_cons_self ..)
        have hout : min target (capacityBelow g.blockSize i - start) +
            min (contentBytesInBlock i g.blockSize - (start - capacityBelow g.blockSize i))
              (target - min target (capacityBelow g.blockSize i - start)) =
            min target
              (capacityBelow g.blockSize i + contentBytesInBlock i g.blockSize - start) := by
          omega
        rw [readBlocks_take hB hword hi32 hblk rest hmore htarget (by omega) (by omega), hout,
          hrest]
        rfl

/-- The reads of a file that stay within the word: a trivial one, one that is refused, one
whose chain cannot be collected, and one of less than `2 ^ 32` bytes that ends in a block up
to which the chain holds less than `2 ^ 32` bytes. -/
def ReadFits (g : Geometry) (d : Device) (head size start outLen : ℕ) : Prop :=
  size = 0 ∨ outLen = 0 ∨ size ≤ start ∨ OverLong g.blockSize size ∨
    (∃ e, collectChainBlocks g d head (blockCount size g.blockSize) maxCtzBlocks = .error e) ∨
    outLen < 2 ^ 32 ∧
      capacityBelow g.blockSize (blockCount (min size (start + outLen)) g.blockSize) < 2 ^ 32

/-- No operation of `read_ctz_at` goes wrong, and a size past the bound is refused. -/
structure ReadSafe (g : Geometry) (d : Device) (head size start outLen : ℕ) : Prop where
  exact : U32.readCtzAt g d head size start outLen = some (readCtzAt g d head size start outLen)
  refused : OverLong g.blockSize size → 0 < outLen → start < size →
    readCtzAt g d head size start outLen = .error .outOfRange

/-- A read that is neither trivial nor refused. -/
structure Proceeds (g : Geometry) (size start outLen : ℕ) : Prop where
  floor : ¬ g.blockSize < Geometry.blockSizeMin
  some : ¬ (size = 0 ∨ outLen = 0 ∨ size ≤ start)
  few : blockCount size g.blockSize ≤ maxCtzBlocks

theorem readCtzAt_refused (hB : 128 ≤ g.blockSize) (hsize : size < 2 ^ 32)
    (hlong : OverLong g.blockSize size) (hout : 0 < outLen) (hstart : start < size) :
    readCtzAt g d head size start outLen = .error .outOfRange := by
  have hfloor : ¬ g.blockSize < Geometry.blockSizeMin := Nat.not_lt.2 hB
  rw [readCtzAt, if_neg hfloor, if_neg (by omega)]
  exact if_pos ((overLong_iff hB hsize).1 hlong)

theorem readCtzAt_collect_error (hp : Proceeds g size start outLen)
    (hB : 128 ≤ g.blockSize) (hsize : size < 2 ^ 32) {e : Error}
    (h : collectChainBlocks g d head (blockCount size g.blockSize) maxCtzBlocks = .error e) :
    U32.readCtzAt g d head size start outLen = some (readCtzAt g d head size start outLen) := by
  rw [U32.readCtzAt, if_neg hp.floor, if_neg hp.some, blockCount_exact hB hsize, readCtzAt,
    if_neg hp.floor, if_neg hp.some]
  simp only [Option.bind_eq_bind, Option.bind_some]
  rw [if_neg (Nat.not_lt.2 hp.few), h]
  exact congrArg some (if_neg (Nat.not_lt.2 hp.few)).symm

/-- With the chain collected, the checked read comes down to its loop. -/
theorem readCtzAt_collected (hp : Proceeds g size start outLen)
    (hB : 128 ≤ g.blockSize) (hsize : size < 2 ^ 32) {blocks : List ℕ}
    (h : collectChainBlocks g d head (blockCount size g.blockSize) maxCtzBlocks = .ok blocks) :
    U32.readCtzAt g d head size start outLen = (Checked.fit 32 outLen).bind (fun len =>
        U32.readBlocks g d start (min size (start + len) - start) blocks 0 0 0) ∧
      readCtzAt g d head size start outLen =
        readBlocks g d start blocks 0 0 (min size (start + outLen) - start) := by
  constructor
  · rw [U32.readCtzAt, if_neg hp.floor, if_neg hp.some, blockCount_exact hB hsize]
    simp only [Option.bind_eq_bind, Option.bind_some]
    rw [if_neg (Nat.not_lt.2 hp.few), h]
    have hsome := hp.some
    have hstop : ∀ len, min size (min (start + len) 0xFFFFFFFF) = min size (start + len) :=
      fun len => by omega
    simp only [hstop]
    refine Option.bind_congr fun len hlen => ?_
    rw [Checked.sub_of_le (by omega), Option.bind_some]
  · rw [readCtzAt, if_neg hp.floor, if_neg hp.some]
    show (if maxCtzBlocks < blockCount size g.blockSize then _ else _) = _
    rw [if_neg (Nat.not_lt.2 hp.few), h]
    rfl

/-- The reads on which no operation goes wrong are those that stay within the word. -/
theorem readExact_iff (hB : 128 ≤ g.blockSize) (hword : g.blockSize < 2 ^ 32)
    (hdev : d.blocks.length = g.blockCount) (hsize : size < 2 ^ 32) :
    U32.readCtzAt g d head size start outLen = some (readCtzAt g d head size start outLen) ↔
      ReadFits g d head size start outLen := by
  have hfloor : ¬ g.blockSize < Geometry.blockSizeMin := Nat.not_lt.2 hB
  by_cases htrivial : size = 0 ∨ outLen = 0 ∨ size ≤ start
  · have hexact : U32.readCtzAt g d head size start outLen =
        some (readCtzAt g d head size start outLen) := by
      rw [U32.readCtzAt, if_neg hfloor, if_pos htrivial, readCtzAt, if_neg hfloor, if_pos htrivial]
    refine iff_of_true hexact ?_
    rw [ReadFits]
    tauto
  by_cases hlong : OverLong g.blockSize size
  · have hexact : U32.readCtzAt g d head size start outLen =
        some (readCtzAt g d head size start outLen) := by
      rw [readCtzAt_refused hB hsize hlong (by omega) (by omega), U32.readCtzAt, if_neg hfloor,
        if_neg htrivial, blockCount_exact hB hsize]
      exact if_pos ((overLong_iff hB hsize).1 hlong)
    exact iff_of_true hexact (.inr (.inr (.inr (.inl hlong))))
  have hp : Proceeds g size start outLen :=
    ⟨hfloor, htrivial, Nat.le_of_not_lt (mt (overLong_iff hB hsize).2 hlong)⟩
  cases hcollect : collectChainBlocks g d head (blockCount size g.blockSize) maxCtzBlocks with
  | error e =>
      exact iff_of_true (readCtzAt_collect_error hp hB hsize hcollect)
        (.inr (.inr (.inr (.inr (.inl ⟨e, hcollect⟩)))))
  | ok blocks =>
      obtain ⟨hchecked, hread⟩ := readCtzAt_collected hp hB hsize hcollect
      have hpos : 1 ≤ blockCount size g.blockSize := blockCount_pos (by omega)
      have hfrom : collectFrom g d (blockCount size g.blockSize) head
          (blockCount size g.blockSize - 1) = .ok blocks := by
        rw [← collectChain_eq hpos hp.few, hcollect]
      have hreads : ∀ b ∈ blocks, d.read b = .ok (d.get b) := fun b hb =>
        Device.read_eq_ok.2 ⟨by rw [hdev]; exact collectFrom_inBounds hfrom b hb, rfl⟩
      have hlen := collectFrom_length hfrom
      by_cases hout : outLen < 2 ^ 32
      · rw [Checked.fit_eq_some.2 ⟨hout, rfl⟩, Option.bind_some] at hchecked
        set stop := min size (start + outLen) with hstop
        have hsum : start + (stop - start) = stop := by omega
        have hreach : Reaches g (start + (stop - start)) (blockCount stop g.blockSize) := by
          rw [hsum]
          exact ⟨fun m => blockCount_le_iff hB (sizeInRange_of_lt hB (by omega)),
            (blockCount_mono hB (sizeInRange_of_lt hB hsize) (Nat.min_le_left ..)).trans hp.few⟩
        have hcount : blockCount stop g.blockSize ≤ blocks.length := by
          rw [hlen, Nat.sub_add_cancel hpos]
          exact blockCount_mono hB (sizeInRange_of_lt hB hsize) (Nat.min_le_left ..)
        by_cases hfits : capacityBelow g.blockSize (blockCount stop g.blockSize) < 2 ^ 32
        · have hloop := readBlocks_exact hB hword hreach (by omega) hfits (Nat.zero_le _) hreads
          rw [show capacityBelow g.blockSize 0 = 0 from rfl, Nat.zero_sub, Nat.min_zero,
            Nat.sub_zero, ← hchecked, ← hread] at hloop
          exact iff_of_true hloop
            (.inr (.inr (.inr (.inr (.inr ⟨hout, hfits⟩)))))
        · have hloop := readBlocks_none hB hword hreach (by omega) (by omega)
            (Nat.le_of_not_lt hfits) (blockCount_pos (by omega)) (by omega) hreads
          rw [show capacityBelow g.blockSize 0 = 0 from rfl, Nat.zero_sub, Nat.min_zero,
            ← hchecked] at hloop
          refine iff_of_false (fun h => ?_) ?_
          · rw [h] at hloop
            cases hloop
          · rintro (h | h | h | h | ⟨e, he⟩ | ⟨-, h⟩)
            · exact htrivial (.inl h)
            · exact htrivial (.inr (.inl h))
            · exact htrivial (.inr (.inr h))
            · exact hlong h
            · rw [hcollect] at he
              cases he
            · exact hfits h
      · rw [Checked.fit_eq_none.2 (Nat.le_of_not_lt hout)] at hchecked
        refine iff_of_false (fun h => ?_) ?_
        · rw [h] at hchecked
          cases hchecked
        · rintro (h | h | h | h | ⟨e, he⟩ | ⟨h, -⟩)
          · exact htrivial (.inl h)
          · exact htrivial (.inr (.inl h))
          · exact htrivial (.inr (.inr h))
          · exact hlong h
          · rw [hcollect] at he
            cases he
          · exact hout h

theorem readSafe_iff (hg : g.Admitted) (hdev : d.blocks.length = g.blockCount)
    (hsize : size < 2 ^ 32) :
    ReadSafe g d head size start outLen ↔ ReadFits g d head size start outLen :=
  ⟨fun h => (readExact_iff hg.blockSize_floor (Nat.lt_succ_of_le hg.blockSize_word) hdev hsize).1
      h.exact,
    fun h => ⟨(readExact_iff hg.blockSize_floor (Nat.lt_succ_of_le hg.blockSize_word) hdev
      hsize).2 h, readCtzAt_refused hg.blockSize_floor hsize⟩⟩

end Read

end Ctz
end LittlefsPure
