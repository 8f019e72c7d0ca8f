import LittlefsPure.Disk.Tag

/-!
# Global state

`gstate.rs`.  The global state of the filesystem is the XOR of what its pairs
carry: a pending move, as a deletion tag with the pair it applies to, and a
pending relocation, as the old and the new address of a pair.  Both deltas are
lists of words here, the words of their on-disk bodies.

## Why a sum and not a value

No pair holds the state.  A pending move begun on one pair is recorded as a delta there, and a
commit on another pair may take it back with a delta of its own; only the sum over all pairs says
what is pending.  So a commit folds its delta into what its pair has, and a mount adds up.
-/

namespace LittlefsPure

/-- Word by word XOR, the operation that folds a delta into a total. -/
def xorWords (xs ys : List ℕ) : List ℕ := List.zipWith Nat.xor xs ys

/-- A `MoveState` body: the deletion tag word and the source pair. -/
abbrev MoveBody := List ℕ

/-- A `RelocateState` body: the old pair and the new pair. -/
abbrev RelocateBody := List ℕ

/-- The all-zero `MoveState` body. -/
def zeroMove : MoveBody := [0, 0, 0]

/-- The all-zero `RelocateState` body. -/
def zeroRelocate : RelocateBody := [0, 0, 0, 0]

/-- `build_move_body`. -/
def buildMoveBody (srcPair : BlockPair) (srcId : ℕ) : MoveBody :=
  [TagEntry.word ⟨.delete, srcId, .bytes []⟩, srcPair.a, srcPair.b]

/-- `build_relocate_body`. -/
def buildRelocateBody (oldPair newPair : BlockPair) : RelocateBody :=
  [oldPair.a, oldPair.b, newPair.a, newPair.b]

/-- `Gstate`, the accumulated global state. -/
structure Gstate where
  move : MoveBody := zeroMove
  relocate : RelocateBody := zeroRelocate
  deriving DecidableEq, Repr

namespace Gstate

/-- `xor_body`. -/
def xorBody (s : Gstate) (body : MoveBody) : Gstate := { s with move := xorWords s.move body }

/-- `xor_relocate_body`. -/
def xorRelocateBody (s : Gstate) (body : RelocateBody) : Gstate :=
  { s with relocate := xorWords s.relocate body }

/-- `has_pending_move`. -/
def hasPendingMove (s : Gstate) : Bool := s.move != zeroMove

/-- `has_pending_relocation`. -/
def hasPendingRelocation (s : Gstate) : Bool := s.relocate != zeroRelocate

/-- `pending_relocation`: the old and the new pair. -/
def pendingRelocation (s : Gstate) : Option (BlockPair × BlockPair) :=
  if s.hasPendingRelocation then
    some (⟨s.relocate.getD 0 0, s.relocate.getD 1 0⟩, ⟨s.relocate.getD 2 0, s.relocate.getD 3 0⟩)
  else none

/-- `pending_move`: the source pair and id, when the accumulated word decodes to a
deletion tag. -/
def pendingMove (s : Gstate) : Option (BlockPair × ℕ) :=
  if s.hasPendingMove then
    let tag := s.move.getD 0 0
    if TagType.fromBits (tag / 0x100000 % 0x800) = .delete then
      some (⟨s.move.getD 1 0, s.move.getD 2 0⟩, tag / 0x400 % 0x400)
    else none
  else none

end Gstate

end LittlefsPure
