import LittlefsPure.Disk.Basic
import LittlefsPure.Disk.Tag
import Mathlib.Tactic.Common

/-!
# A NOR device, byte for byte

A device of blocks of bytes, as a caller sees it who may program any range of a block:
programming takes bits away and an erase gives them back.  This is the model that the
adapter is measured against, and it names neither the adapter nor its window.

## Why the cells are a function

A caller of a `Storage` has one view of the device, the byte that a read of it would return, and
each call changes that view in a way that can be said without naming windows: a program takes
bits from a range, an erase gives all bits of a block back, and the other calls change nothing.
The adapter is right when its view changes in this way, whatever it does to its inner device.
-/

namespace LittlefsPure.Nor

/-- A call on a `Storage`. -/
inductive Request where
  | read (block off len : ℕ)
  | readDevice (block off len : ℕ)
  | program (block off : ℕ) (data : List Byte)
  | erase (block : ℕ)
  | sync
  deriving DecidableEq, Repr

namespace Request

/-- The call stays inside a block of the device. -/
def Inside (g : Geometry) : Request → Prop
  | .read block off len | .readDevice block off len =>
      block < g.blockCount ∧ off + len ≤ g.blockSize
  | .program block off data => block < g.blockCount ∧ off + data.length ≤ g.blockSize
  | .erase block => block < g.blockCount
  | .sync => True

/-- A program of one whole aligned window; the other calls are free. -/
def Whole (g : Geometry) : Request → Prop
  | .program block off data =>
      data.length = g.progSize ∧ g.progSize ∣ off ∧ off + g.progSize ≤ g.blockSize ∧
        block < g.blockCount
  | _ => True

instance (g : Geometry) : DecidablePred (Inside g)
  | .read block off len | .readDevice block off len =>
      inferInstanceAs (Decidable (block < g.blockCount ∧ off + len ≤ g.blockSize))
  | .program block off data =>
      inferInstanceAs (Decidable (block < g.blockCount ∧ off + data.length ≤ g.blockSize))
  | .erase block => inferInstanceAs (Decidable (block < g.blockCount))
  | .sync => inferInstanceAs (Decidable True)

end Request

/-- What the cells of a device hold. -/
abbrev Cells := ℕ → ℕ → Byte

namespace Cells

/-- The bytes of a range of a block. -/
def bytes (c : Cells) (block off len : ℕ) : List Byte :=
  (List.range len).map fun i => c block (off + i)

/-- Bytes are programmed from an offset on. -/
def program (c : Cells) (block off : ℕ) (data : List Byte) : Cells := fun b o =>
  if b = block ∧ off ≤ o then c b o &&& data.getD (o - off) 0xFF else c b o

/-- A block is erased. -/
def erase (c : Cells) (block : ℕ) : Cells := fun b o => if b = block then 0xFF else c b o

/-- The cells behind a call. -/
def step (c : Cells) : Request → Cells
  | .program block off data => c.program block off data
  | .erase block => c.erase block
  | _ => c

/-- What a call returns. -/
def reply (c : Cells) : Request → List Byte
  | .read block off len | .readDevice block off len => c.bytes block off len
  | _ => []

/-- The cells behind a sequence of calls. -/
def after (c : Cells) : List Request → Cells
  | [] => c
  | r :: rs => (c.step r).after rs

/-- What the calls of a sequence return, one after the other. -/
def replies (c : Cells) : List Request → List (List Byte)
  | [] => []
  | r :: rs => c.reply r :: (c.step r).replies rs

section Program

variable (c : Cells) (block off : ℕ)

@[simp] theorem length_bytes (len : ℕ) : (c.bytes block off len).length = len := by
  rw [bytes, List.length_map, List.length_range]

theorem getElem?_bytes (len i : ℕ) :
    (c.bytes block off len)[i]? = if i < len then some (c block (off + i)) else none := by
  rw [bytes, List.getElem?_map]
  by_cases hi : i < len
  · rw [if_pos hi, List.getElem?_range hi]
    rfl
  · have hnone : (List.range len)[i]? = none :=
      List.getElem?_eq_none (by rw [List.length_range]; exact Nat.le_of_not_lt hi)
    rw [if_neg hi, hnone]
    rfl

theorem and_erased (x : Byte) : x &&& 0xFF = x := by
  revert x
  decide

/-- Behind its bytes a program takes nothing away. -/
theorem getD_behind {data : List Byte} {i : ℕ} (h : data.length ≤ i) : data.getD i 0xFF = 0xFF := by
  rw [List.getD_eq_getElem?_getD, List.getElem?_eq_none h]
  rfl

@[simp] theorem program_nil : c.program block off [] = c := by
  funext b o
  rw [program]
  split_ifs
  · exact and_erased _
  · rfl

/-- A program in two parts. -/
theorem program_append (data more : List Byte) :
    c.program block off (data ++ more) =
      (c.program block off data).program block (off + data.length) more := by
  funext b o
  by_cases hb : b = block ∧ off ≤ o
  · by_cases ho : off + data.length ≤ o
    · have hge : data.length ≤ o - off := by omega
      have hmore : (data ++ more).getD (o - off) 0xFF =
          more.getD (o - (off + data.length)) 0xFF := by
        rw [List.getD_eq_getElem?_getD, List.getElem?_append_right hge, Nat.sub_sub,
          List.getD_eq_getElem?_getD]
      rw [program, if_pos hb, program, if_pos ⟨hb.1, ho⟩, program, if_pos hb, hmore,
        getD_behind hge, and_erased]
    · have hlt : o - off < data.length := by omega
      have hfirst : (data ++ more).getD (o - off) 0xFF = data.getD (o - off) 0xFF := by
        rw [List.getD_eq_getElem?_getD, List.getElem?_append_left hlt, List.getD_eq_getElem?_getD]
      rw [program, if_pos hb, program, if_neg fun h => ho h.2, program, if_pos hb, hfirst]
  · have hfar : ¬ (b = block ∧ off + data.length ≤ o) := fun h => hb ⟨h.1, by omega⟩
    rw [program, if_neg hb, program, if_neg hfar, program, if_neg hb]

end Program

end Cells

end LittlefsPure.Nor
