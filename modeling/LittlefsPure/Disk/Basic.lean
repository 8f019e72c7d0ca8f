import Mathlib.Tactic.Common
import Mathlib.Tactic.Linarith

/-!
# Errors, block addresses and geometry

The vocabulary every other module speaks: the error type of `error.rs`, the
block addresses and metadata pairs of `block.rs`, and the geometry constants of
`storage.rs` with the validity check of `geometry.rs`.

The source fixes a geometry once per `Storage` implementation, as associated
constants.  Here it is a structure, and everything that depends on it takes it
as its first argument.

A block address is a `u32` in the source.  Nothing in this development adds to
or subtracts from an address, so it is a natural number here, and the sentinel
`NONE` is the largest `u32`.
-/

namespace LittlefsPure

/-- The errors of `error.rs`, with one more.  `recursionLimit` is not a value the
source can return: the source recurses on the call stack, the model on an
explicit bound, and this is the outcome of a run that reaches it. -/
inductive Error where
  | io
  | notLittleFs
  | unsupportedVersion (version : ℕ)
  | crcMismatch
  | invalidTag
  | invalidPath
  | shortRead
  | outOfRange
  | readOnly
  | notFound
  | alreadyExists
  | geometryMismatch
  | corrupt
  | unformatted
  | notEmpty
  | recursionLimit
  deriving DecidableEq, Repr

/-- The sentinel address `BlockAddress::NONE`, all ones. -/
def noBlock : ℕ := 0xFFFFFFFF

/-- A metadata pair: two erase blocks. -/
structure BlockPair where
  a : ℕ
  b : ℕ
  deriving DecidableEq, Repr

namespace BlockPair

/-- The pair that names no block. -/
def none : BlockPair := ⟨noBlock, noBlock⟩

/-- `sorted`: the two addresses in ascending order. -/
def sorted (p : BlockPair) : ℕ × ℕ :=
  if p.a ≤ p.b then (p.a, p.b) else (p.b, p.a)

/-- `is_same_pair`: equality up to the order of the two addresses. -/
def isSamePair (p q : BlockPair) : Bool := p.sorted == q.sorted

/-- `is_null`. -/
def isNull (p : BlockPair) : Bool := p.a == noBlock || p.b == noBlock

/-- A pair holds a block when it is one of its two halves. -/
def Holds (p : BlockPair) (x : ℕ) : Prop := x = p.a ∨ x = p.b

instance (p : BlockPair) (x : ℕ) : Decidable (p.Holds x) :=
  inferInstanceAs (Decidable (x = p.a ∨ x = p.b))

/-- The same pair with its halves exchanged. -/
def swap (p : BlockPair) : BlockPair := ⟨p.b, p.a⟩

theorem isSamePair_iff {p q : BlockPair} :
    p.isSamePair q = true ↔ p = q ∨ p = q.swap := by
  obtain ⟨a, b⟩ := p
  obtain ⟨c, d⟩ := q
  simp only [isSamePair, sorted, beq_iff_eq, swap, BlockPair.mk.injEq]
  split <;> split <;> simp only [Prod.mk.injEq] <;> omega

@[simp] theorem isSamePair_self (p : BlockPair) : p.isSamePair p = true :=
  isSamePair_iff.2 (Or.inl rfl)

theorem holds_congr {p q : BlockPair} (h : p.isSamePair q = true) (x : ℕ) :
    p.Holds x ↔ q.Holds x := by
  obtain rfl | rfl := isSamePair_iff.1 h
  · rfl
  · exact or_comm

end BlockPair

/-- `contains_pair`: membership up to the order inside a pair. -/
def containsPair (pairs : List BlockPair) (pair : BlockPair) : Bool :=
  pairs.any fun p => p.isSamePair pair

/-! ## Geometry -/

/-- The associated constants of a `Storage` implementation. -/
structure Geometry where
  readSize : ℕ
  progSize : ℕ
  blockSize : ℕ
  blockCount : ℕ
  /-- `BLOCK_CYCLES`; zero or negative switches wear levelling off. -/
  blockCycles : ℤ := 500
  deriving DecidableEq, Repr

/-- What `geometry::fault_for` can object to. -/
inductive GeometryFault where
  | zeroReadSize
  | zeroProgSize
  | progSizeOffTheReadGrid
  | blockSizeBelowFloor
  | blockSizeOffTheProgGrid
  | blockSizePastTheWordCeiling
  | blockCountBelowRootPair
  deriving DecidableEq, Repr

namespace Geometry

/-- `BLOCK_SIZE_MIN`. -/
def blockSizeMin : ℕ := 128

/-- `BLOCK_COUNT_MIN`. -/
def blockCountMin : ℕ := 2

/-- `fault_for`. -/
def faultFor (readSize progSize blockSize blockCount : ℕ) : Option GeometryFault :=
  if readSize = 0 then some .zeroReadSize
  else if progSize = 0 then some .zeroProgSize
  else if progSize % readSize ≠ 0 then some .progSizeOffTheReadGrid
  else if blockSize < blockSizeMin then some .blockSizeBelowFloor
  else if blockSize % progSize ≠ 0 then some .blockSizeOffTheProgGrid
  else if blockSize > 0xFFFFFFFF then some .blockSizePastTheWordCeiling
  else if blockCount < blockCountMin then some .blockCountBelowRootPair
  else none

/-- `fault`, for a device. -/
def fault (g : Geometry) : Option GeometryFault :=
  faultFor g.readSize g.progSize g.blockSize g.blockCount

/-- `validate`. -/
def validate (g : Geometry) : Except Error Unit :=
  if g.fault.isNone then .ok () else .error .geometryMismatch

/-- `pair_in_bounds`: both halves are blocks of the device. -/
def pairInBounds (g : Geometry) (p : BlockPair) : Bool :=
  decide (p.a < g.blockCount) && decide (p.b < g.blockCount)

theorem pairInBounds_iff {g : Geometry} {p : BlockPair} :
    g.pairInBounds p = true ↔ p.a < g.blockCount ∧ p.b < g.blockCount := by
  simp [pairInBounds]

/-- A geometry that `fault_for` admits. -/
structure Admitted (g : Geometry) : Prop where
  readSize_pos : 0 < g.readSize
  progSize_pos : 0 < g.progSize
  progSize_grid : g.progSize % g.readSize = 0
  blockSize_floor : blockSizeMin ≤ g.blockSize
  blockSize_grid : g.blockSize % g.progSize = 0
  blockSize_word : g.blockSize ≤ 0xFFFFFFFF
  blockCount_root : blockCountMin ≤ g.blockCount

theorem admitted_iff {g : Geometry} : g.fault = none ↔ g.Admitted := by
  constructor
  · intro h
    unfold fault faultFor at h
    split_ifs at h with h1 h2 h3 h4 h5 h6 h7
    exact ⟨by omega, by omega, by omega, by omega, by omega, by omega, by omega⟩
  · rintro ⟨h1, h2, h3, h4, h5, h6, h7⟩
    unfold fault faultFor
    simp only [Nat.ne_of_gt h1, Nat.ne_of_gt h2, h3, h5, if_false, ne_eq, not_true_eq_false]
    rw [if_neg (by omega), if_neg (by omega), if_neg (by omega)]

end Geometry

end LittlefsPure
