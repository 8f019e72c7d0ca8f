import LittlefsPure.Codec.Cut
import LittlefsPure.Nor.Cells

/-!
# One commit on a pair

`apply_op_to_pair_inner` as far as it concerns the two blocks of its pair, byte for byte: it
reads the pair, appends a commit to the active half or compacts onto the erased other half, and
makes the calls of the device in `Nor.Request`.  The device does as it is told, up to the power
cut: a program may end behind any of its bytes.  What a commit emits is left open, up to the
type of the tags.  A pair that is relocated or split beyond this pair is not followed there.

## Why this is a second commit engine

The commit engine of `Fs.Commit` works on logs, and a torn program of a log is one case there.
What a cut leaves inside a commit is a matter of bytes.  Here the engine is taken again, as far as
two blocks go, with every byte it programs; `Codec.Typed` says that both read a block alike.
-/

namespace LittlefsPure.Codec

open Nor

/-- A tag that the commit engine emits: `Tag::new(true, ..)`, and no forward CRC, which only
the close of a commit writes. -/
structure RawEntry.Emitted (e : RawEntry) : Prop where
  valid : e.tag.isValid = true
  notForward : e.tag.tagType ≠ .forwardCrc

theorem emitted_new {tagType : TagType} {id length : ℕ} {body : List Byte}
    (hdomain : tagType.InDomain) (hne : tagType ≠ .forwardCrc) :
    RawEntry.Emitted ⟨.new tagType id length, body⟩ :=
  ⟨Tag.isValid_new hdomain, by rwa [Tag.tagType_new hdomain]⟩

/-- What a commit asks of `apply_op_to_pair_inner`: the tags that `emit_op` and the state and
tail arguments put behind the log, or those that `build_compact_commit` puts into a fresh
block. -/
structure PairCommit where
  appended : List RawEntry
  compacted : List RawEntry
  dsize : ℕ
  clearTail : Bool
  appended_emitted : ∀ e ∈ appended, e.Emitted
  compacted_emitted : ∀ e ∈ compacted, e.Emitted

/-- The cells a builder has filled from an offset on. -/
def Commit.programmed (c : Commit) (off : ℕ) : List Byte :=
  (c.buf.drop off).take (c.bytesWritten - off)

namespace PairCommit

variable (g : Geometry)

/-- `can_append`. -/
def canAppend (r : PairCommit) (reader : MetadataReader) : Bool :=
  reader.erased && decide (reader.committedEnd % g.progSize = 0) &&
    decide (reader.committedEnd + r.dsize ≤ g.blockSize) && !r.clearTail

/-- The commit behind the log of the active block. -/
def buildAppend (r : PairCommit) (reader : MetadataReader) : Except Error Commit := do
  let c ← Commit.newAppending reader.block reader.committedEnd reader.nextPtag
  c.write ⟨r.appended, .finishPadded 0 g.progSize g.blockSize⟩

/-- `build_compact_commit`. -/
def buildCompactCommit (r : PairCommit) (newRevision : BitVec 32) : Except Error Commit := do
  let c ← Commit.new (List.replicate g.blockSize 0xFF) newRevision
  c.write ⟨r.compacted, .finishPadded 0 g.progSize g.blockSize⟩

end PairCommit

section Pair

variable (g : Geometry)

/-- The bytes of a block. -/
def blockAt (c : Cells) (b : ℕ) : List Byte := c.bytes b 0 g.blockSize

/-- The pair as it is read. -/
def fetchPair (c : Cells) (pair : BlockPair) : Except Error MetadataPair :=
  MetadataPair.parse pair.a (blockAt g c pair.a) pair.b (blockAt g c pair.b)

/-- The calls `apply_op_to_pair_inner` makes on the blocks of its pair. -/
def applyOpToPairInner (c : Cells) (pair : BlockPair) (r : PairCommit) :
    Except Error (List Request) := do
  let p ← fetchPair g c pair
  if r.canAppend g p.reader then
    let commit ← r.buildAppend g p.reader
    return [.program p.activeBlock p.reader.committedEnd (commit.programmed p.reader.committedEnd)]
  else
    let commit ← r.buildCompactCommit g (p.reader.revision + 1)
    return [.erase p.alternateBlock, .program p.alternateBlock 0 (commit.programmed 0)]

/-- The power goes in the last program, behind so many of its bytes. -/
def tear (n : ℕ) : List Request → List Request
  | [] => []
  | [.program b off data] => [.program b off (data.take n)]
  | r :: rs => r :: tear n rs

/-- A program falls on erased cells. -/
def Finds (c : Cells) : Request → Prop
  | .program b off data => ∀ o, off ≤ o → o < off + data.length → c b o = 0xFF
  | _ => True

/-- Each program of a sequence of calls falls on erased cells. -/
def OnErased (c : Cells) : List Request → Prop
  | [] => True
  | r :: rs => Finds c r ∧ OnErased (c.step r) rs

/-- The blocks this engine has written: a compaction onto the erased block, and appends to it
as `can_append` allows them, each of them cut off anywhere; and no checksum has agreed by
chance. -/
inductive Written (b : ℕ) : Cells → Prop
  | compacted {c : Cells} {r : PairCommit} {newRevision : BitVec 32} {commit : Commit} (n : ℕ)
      (hbuild : r.buildCompactCommit g newRevision = .ok commit)
      (htrust : Trusted (blockAt g ((c.erase b).program b 0 ((commit.programmed 0).take n)) b)
        ((commit.programmed 0).take n).length) :
      Written b ((c.erase b).program b 0 ((commit.programmed 0).take n))
  | appended {c : Cells} {r : PairCommit} {reader : MetadataReader} {commit : Commit} (n : ℕ)
      (h : Written b c) (hread : MetadataReader.new (blockAt g c b) = .ok reader)
      (hcan : r.canAppend g reader = true) (hbuild : r.buildAppend g reader = .ok commit)
      (htrust : Trusted
        (blockAt g (c.program b reader.committedEnd
          ((commit.programmed reader.committedEnd).take n)) b)
        (reader.committedEnd + ((commit.programmed reader.committedEnd).take n).length)) :
      Written b (c.program b reader.committedEnd ((commit.programmed reader.committedEnd).take n))
  | elsewhere {c c' : Cells} (h : Written b c) (hsame : ∀ o, c' b o = c b o) : Written b c'

end Pair

/-! ## The bytes of a block -/

section Bytes

variable {g : Geometry} {c c' : Cells} {b : ℕ} {pre data : List Byte} {m : ℕ}

@[simp] theorem length_blockAt (g : Geometry) (c : Cells) (b : ℕ) :
    (blockAt g c b).length = g.blockSize := Cells.length_bytes ..

theorem blockAt_congr (h : ∀ o, c' b o = c b o) : blockAt g c' b = blockAt g c b :=
  List.map_congr_left fun i _ => h (0 + i)

theorem blockAt_program_of_ne {b' off : ℕ} (h : b' ≠ b) :
    blockAt g (c.program b off data) b' = blockAt g c b' :=
  blockAt_congr fun _ => if_neg fun hb => h hb.1

theorem blockAt_erase : blockAt g (c.erase b) b = List.replicate g.blockSize 0xFF := by
  refine List.eq_replicate_iff.2 ⟨length_blockAt .., fun x hx => ?_⟩
  obtain ⟨i, -, rfl⟩ := List.mem_map.1 hx
  exact if_pos rfl

/-- The cells behind the first bytes of a block. -/
theorem cell_of_blockAt (h : blockAt g c b = pre ++ List.replicate m 0xFF) {o : ℕ}
    (ho : pre.length ≤ o) (hsize : o < g.blockSize) : c b o = 0xFF := by
  have hcell := Cells.getElem?_bytes c b 0 g.blockSize o
  rw [show c.bytes b 0 g.blockSize = _ from h, if_pos hsize, Nat.zero_add,
    List.getElem?_append_right ho] at hcell
  exact List.eq_of_mem_replicate (List.mem_of_getElem? hcell)

/-- A program into the erased cells of a block. -/
theorem blockAt_program (h : blockAt g c b = pre ++ List.replicate m 0xFF)
    (hdata : data.length ≤ m) :
    blockAt g (c.program b pre.length data) b =
      pre ++ data ++ List.replicate (m - data.length) 0xFF := by
  have hsize : pre.length + m = g.blockSize := by
    have hlen := congrArg List.length h
    rw [length_blockAt, List.length_append, List.length_replicate] at hlen
    exact hlen.symm
  refine List.ext_getElem? fun i => ?_
  rw [blockAt, Cells.getElem?_bytes, Nat.zero_add, Cells.program]
  by_cases hi : i < g.blockSize
  · rw [if_pos hi]
    by_cases hpre : i < pre.length
    · have hcell := Cells.getElem?_bytes c b 0 g.blockSize i
      rw [show c.bytes b 0 g.blockSize = _ from h, if_pos hi, Nat.zero_add,
        List.getElem?_append_left hpre] at hcell
      rw [if_neg (by omega), List.append_assoc, List.getElem?_append_left hpre, hcell]
    · have herased := cell_of_blockAt h (Nat.le_of_not_lt hpre) hi
      rw [if_pos ⟨rfl, Nat.le_of_not_lt hpre⟩, herased, List.append_assoc,
        List.getElem?_append_right (Nat.le_of_not_lt hpre), BitVec.and_comm, Cells.and_erased]
      by_cases hin : i - pre.length < data.length
      · rw [List.getElem?_append_left hin, List.getD_eq_getElem?_getD,
          List.getElem?_eq_getElem hin, Option.getD_some]
      · have hbehind := Nat.le_of_not_lt hin
        rw [Cells.getD_behind hbehind, List.getElem?_append_right hbehind,
          List.getElem?_replicate, if_pos (by omega)]
  · rw [if_neg hi, List.getElem?_eq_none]
    rw [List.length_append, List.length_append, List.length_replicate]
    omega

end Bytes

end LittlefsPure.Codec
