import LittlefsPure.Disk.Tag
import LittlefsPure.Logic.ShiftRegister

/-!
# The CRC

`crc.rs`: the reflected CRC-32, computed a nibble at a time from a table of
sixteen words, and a bit at a time as the table encodes it.

## Why the table is computed with

The table is the one of the source, word for word.  That each word of it is four steps of its
index is checked by evaluation, sixteen closed facts; that the nibble step is then right for every
register is the linearity of `Logic.ShiftRegister`.  The bit by bit form is `update_bitwise`,
which the source keeps as a reference for its tests.
-/

namespace LittlefsPure
namespace Crc

open Logic

/-- `NIBBLE_TABLE`. -/
def nibbleTable : List (BitVec 32) :=
  [0x00000000, 0x1db71064, 0x3b6e20c8, 0x26d930ac, 0x76dc4190, 0x6b6b51f4, 0x4db26158, 0x5005713c,
    0xedb88320, 0xf00f9344, 0xd6d6a3e8, 0xcb61b38c, 0x9b64c2b0, 0x86d3d2d4, 0xa00ae278, 0xbdbdf21c]

/-- `INIT`. -/
def init : BitVec 32 := 0xFFFFFFFF

/-- One nibble of the table driven update. -/
def nibble (crc : BitVec 32) (b : ℕ) : BitVec 32 :=
  (crc >>> 4) ^^^ nibbleTable.getD (Nat.xor crc.toNat b % 0x10) 0

/-- `update`. -/
def update (crc : BitVec 32) : List Byte → BitVec 32
  | [] => crc
  | b :: rest => update (nibble (nibble crc b.toNat) (b.toNat / 0x10)) rest

/-- Accumulating in two parts is accumulating over the whole. -/
theorem update_append (crc : BitVec 32) (xs ys : List Byte) :
    update crc (xs ++ ys) = update (update crc xs) ys := by
  induction xs generalizing crc with
  | nil => rfl
  | cons b xs ih => exact ih _

/-! ## Bit by bit -/

/-- The reflected polynomial. -/
def polynomial : BitVec 32 := 0xEDB88320

/-- `update_bitwise`. -/
def updateBitwise (crc : BitVec 32) : List Byte → BitVec 32
  | [] => crc
  | b :: rest =>
      updateBitwise (ShiftRegister.steps polynomial 8 (crc ^^^ BitVec.ofNat 32 b.toNat)) rest

/-- Each word of the table is four steps of its index. -/
theorem nibbleTable_getD : ∀ i < 16, nibbleTable.getD i 0 =
    ShiftRegister.steps polynomial 4 (BitVec.ofNat 32 i) := by
  decide

/-- A nibble of the table driven update is four steps of the register it is added to. -/
theorem nibble_eq_steps (crc : BitVec 32) (b : ℕ) :
    nibble crc b = ShiftRegister.steps polynomial 4 (crc ^^^ BitVec.ofNat 32 (b % 16)) := by
  have hb : (BitVec.ofNat 32 (b % 16)).toNat = b % 2 ^ 4 := by
    rw [BitVec.toNat_ofNat]
    omega
  have hshift : (crc ^^^ BitVec.ofNat 32 (b % 16)) >>> 4 = crc >>> 4 := by
    have hzero : BitVec.ofNat 32 (b % 16) >>> 4 = 0#32 := by
      apply BitVec.eq_of_toNat_eq
      rw [BitVec.toNat_ushiftRight, hb, Nat.shiftRight_eq_div_pow,
        Nat.div_eq_of_lt (Nat.mod_lt _ (by decide))]
      rfl
    rw [BitVec.ushiftRight_xor_distrib, hzero, BitVec.xor_zero]
  have hindex : ShiftRegister.low (crc ^^^ BitVec.ofNat 32 (b % 16)) 4 =
      BitVec.ofNat 32 (Nat.xor crc.toNat b % 16) := by
    have hxor : (crc.toNat ^^^ b % 2 ^ 4) % 2 ^ 4 = (crc.toNat ^^^ b) % 2 ^ 4 := by
      rw [Nat.xor_mod_two_pow, Nat.mod_mod, ← Nat.xor_mod_two_pow]
    rw [ShiftRegister.low, BitVec.toNat_xor, hb, hxor]
    rfl
  rw [ShiftRegister.steps_eq_table, hshift, hindex, nibble,
    nibbleTable_getD _ (Nat.mod_lt _ (by decide))]

/-- A byte of the table driven update is eight steps. -/
theorem nibbles_eq_steps (crc : BitVec 32) (b : Byte) :
    nibble (nibble crc b.toNat) (b.toNat / 0x10) =
      ShiftRegister.steps polynomial 8 (crc ^^^ BitVec.ofNat 32 b.toNat) := by
  have hb : b.toNat < 256 := b.isLt
  have hhigh : (BitVec.ofNat 32 (b.toNat / 16)).toNat = b.toNat / 16 := by
    rw [BitVec.toNat_ofNat, Nat.mod_eq_of_lt (by omega)]
  -- the low nibble is met at once, the high one after four steps
  have hsplit : BitVec.ofNat 32 b.toNat =
      BitVec.ofNat 32 (b.toNat % 16) ^^^ BitVec.ofNat 32 (b.toNat / 16) <<< 4 := by
    have h := ShiftRegister.split_low (BitVec.ofNat 32 b.toNat) 4
    have hnat : (BitVec.ofNat 32 b.toNat).toNat = b.toNat := by
      rw [BitVec.toNat_ofNat, Nat.mod_eq_of_lt (by omega)]
    have hdown : BitVec.ofNat 32 b.toNat >>> 4 = BitVec.ofNat 32 (b.toNat / 16) := by
      apply BitVec.eq_of_toNat_eq
      rw [BitVec.toNat_ushiftRight, hnat, Nat.shiftRight_eq_div_pow, hhigh]
    rw [ShiftRegister.low, hnat, hdown, BitVec.xor_comm] at h
    exact h
  have hmeet : ShiftRegister.steps polynomial 4 (crc ^^^ BitVec.ofNat 32 b.toNat) =
      nibble crc b.toNat ^^^ BitVec.ofNat 32 (b.toNat / 16) := by
    rw [hsplit, ← BitVec.xor_assoc, ShiftRegister.steps_xor, ← nibble_eq_steps,
      ShiftRegister.steps_shiftLeft polynomial _ (by rw [hhigh]; omega) (by decide)]
  have hlow : b.toNat / 16 % 16 = b.toNat / 16 := Nat.mod_eq_of_lt (by omega)
  have height := ShiftRegister.steps_add polynomial (crc ^^^ BitVec.ofNat 32 b.toNat) 4 4
  rw [hmeet] at height
  rw [nibble_eq_steps (nibble crc b.toNat), hlow]
  exact height.symm

theorem update_eq_updateBitwise (crc : BitVec 32) (data : List Byte) :
    update crc data = updateBitwise crc data := by
  induction data generalizing crc with
  | nil => rfl
  | cons b rest ih => rw [update, updateBitwise, nibbles_eq_steps, ih]

end Crc
end LittlefsPure
