import LittlefsPure.Disk.Meta

/-!
# The device

`storage.rs`, seen from the filesystem: an array of erase blocks, each of which
holds a metadata log or plain bytes.  Bytes behind those listed read as erased,
so a block straight after an erase holds no bytes at all.

Reads are functions of the device.  They fail for an address the device does not
have, as the `Storage` contract demands, and for no other reason.

## Why a block is either a log or bytes

The filesystem programs two kinds of content, metadata logs and the bytes of files, and reads
each as what it was written as.  It may also read one as the other: a block that was given up
by a file may be looked at as half of a pair, and a deleted pair as a block of a chain.  So both
readings are defined on both kinds of block, the log of a byte block by the reader and the bytes
of a log by its image.
-/

namespace LittlefsPure

/-- The content of an erase block. -/
inductive Block where
  /-- A metadata log, as a commit left it. -/
  | log (l : MetadataLog)
  /-- Plain bytes, followed by erased cells. -/
  | raw (bytes : List Byte)
  deriving DecidableEq, Repr

namespace Block

/-- An erased block. -/
def erased : Block := .raw []

/-- The bytes of a block, without the erased cells behind them. -/
def bytes : Block → List Byte
  | .log l => l.bytes
  | .raw bs => bs

/-- The block holds a log. -/
def isLog : Block → Bool
  | .log _ => true
  | .raw _ => false

theorem isLog_iff {b : Block} : b.isLog = true ↔ ∃ l, b = .log l := by
  cases b with
  | log l => exact ⟨fun _ => ⟨l, rfl⟩, fun _ => rfl⟩
  | raw bytes => exact ⟨nofun, nofun⟩

/-- `is_all_erased`. -/
def isAllErased (b : Block) : Bool := b.bytes.all (· == 0xFF)

/-- `MetadataReader::new` on a block. -/
def reader (g : Geometry) : Block → MetadataLog
  | .log l => l
  | .raw bs => MetadataLog.ofBytes g.blockSize (bs ++ List.replicate (g.blockSize - bs.length) 0xFF)

@[simp] theorem reader_log (g : Geometry) (l : MetadataLog) : (Block.log l).reader g = l := rfl

/-- The little endian word at byte `4 * i` of a block. -/
def word (b : Block) (i : ℕ) : ℕ :=
  let bs := b.bytes.drop (4 * i)
  ofLe32 [bs.getD 0 0xFF, bs.getD 1 0xFF, bs.getD 2 0xFF, bs.getD 3 0xFF]

/-- `n` bytes of a block from offset `off` on. -/
def slice (b : Block) (off n : ℕ) : List Byte :=
  let bs := (b.bytes.drop off).take n
  bs ++ List.replicate (n - bs.length) 0xFF

theorem word_eq (b : Block) (i : ℕ) :
    b.word i = ofLe32 [b.bytes.getD (4 * i) 0xFF, b.bytes.getD (4 * i + 1) 0xFF,
      b.bytes.getD (4 * i + 2) 0xFF, b.bytes.getD (4 * i + 3) 0xFF] := by
  simp only [word, List.getD_eq_getElem?_getD, List.getElem?_drop, Nat.add_zero]

/-- A word depends on its four bytes. -/
theorem word_congr {b b' : Block} {i : ℕ}
    (h : ∀ j < 4, b'.bytes.getD (4 * i + j) 0xFF = b.bytes.getD (4 * i + j) 0xFF) :
    b'.word i = b.word i := by
  have h0 := h 0 (by omega)
  rw [Nat.add_zero] at h0
  rw [word_eq, word_eq, h0, h 1 (by omega), h 2 (by omega), h 3 (by omega)]

theorem word_zero_le32 {n : ℕ} (h : n < 2 ^ 32) (rest : List Byte) :
    (Block.raw (le32 n ++ rest)).word 0 = n := by
  rw [word_eq]
  exact ofLe32_le32_append h []

theorem word_one_le32 {n : ℕ} (h : n < 2 ^ 32) (m : ℕ) (rest : List Byte) :
    (Block.raw (le32 m ++ (le32 n ++ rest))).word 1 = n := by
  rw [word_eq]
  exact ofLe32_le32_append h []

/-- Bytes padded with erased cells up to an offset read as the bytes. -/
theorem getD_padded {bytes : List Byte} {off p : ℕ} (rest : List Byte) (h : p < off) :
    (bytes.take off ++ List.replicate (off - bytes.length) 0xFF ++ rest).getD p 0xFF =
      bytes.getD p 0xFF := by
  have hlen : (bytes.take off ++
      List.replicate (off - bytes.length) (0xFF : Byte)).length = off := by
    simp only [List.length_append, List.length_replicate, List.length_take]
    omega
  simp only [List.getD_eq_getElem?_getD]
  rw [List.getElem?_append_left (by omega)]
  by_cases hp : p < bytes.length
  · rw [List.getElem?_append_left (by rw [List.length_take]; omega), List.getElem?_take, if_pos h]
  · have hnone : bytes[p]? = none := List.getElem?_eq_none_iff.2 (Nat.le_of_not_lt hp)
    rw [List.getElem?_append_right (by rw [List.length_take]; omega), List.getElem?_replicate,
      hnone]
    split <;> rfl

theorem getD_slice_append {b : Block} {keep p : ℕ} (fill : List Byte) (h : p < keep) :
    (b.slice 0 keep ++ fill).getD p 0xFF = b.bytes.getD p 0xFF := by
  have hpad : keep - (b.bytes.take keep).length = keep - b.bytes.length := by
    rw [List.length_take]
    omega
  simp only [slice, List.drop_zero, hpad]
  exact getD_padded fill h

end Block

/-- The device: its erase blocks in address order. -/
structure Device where
  blocks : List Block
  deriving DecidableEq, Repr

namespace Device

/-- A device of a given size whose blocks are all erased. -/
def blank (blockCount : ℕ) : Device := ⟨List.replicate blockCount .erased⟩

/-- Read a whole block. -/
def read (d : Device) (addr : ℕ) : Except Error Block :=
  match d.blocks[addr]? with
  | some b => .ok b
  | none => .error .io

/-- Replace the content of a block. -/
def write (d : Device) (addr : ℕ) (b : Block) : Device := ⟨d.blocks.set addr b⟩

/-- The content of a block, erased where there is none. -/
def get (d : Device) (addr : ℕ) : Block := d.blocks.getD addr .erased

@[simp] theorem get_blank (n addr : ℕ) : (blank n).get addr = .erased := by
  simp only [get, blank, List.getD_eq_getElem?_getD, List.getElem?_replicate]
  split <;> rfl

theorem read_eq_ok {d : Device} {addr : ℕ} {b : Block} :
    d.read addr = .ok b ↔ addr < d.blocks.length ∧ d.get addr = b := by
  unfold read get
  rw [List.getD_eq_getElem?_getD]
  cases h : d.blocks[addr]? with
  | none =>
      have hlen : d.blocks.length ≤ addr := List.getElem?_eq_none_iff.1 h
      constructor
      · intro hb; cases hb
      · rintro ⟨hlt, -⟩; omega
  | some c =>
      have hlt : addr < d.blocks.length := (List.getElem?_eq_some_iff.1 h).1
      simp [hlt]

@[simp] theorem length_write (d : Device) (addr : ℕ) (b : Block) :
    (d.write addr b).blocks.length = d.blocks.length := by
  simp [write]

theorem get_write_self {d : Device} {addr : ℕ} (h : addr < d.blocks.length) (b : Block) :
    (d.write addr b).get addr = b := by
  simp [write, get, List.getD_eq_getElem?_getD, List.getElem?_set_self h]

theorem get_write_ne (d : Device) {addr x : ℕ} (h : addr ≠ x) (b : Block) :
    (d.write addr b).get x = d.get x := by
  simp [write, get, List.getD_eq_getElem?_getD, List.getElem?_set_ne h]

/-- The parsed logs of the two halves of a pair. -/
def readers (g : Geometry) (d : Device) (p : BlockPair) :
    Except Error (MetadataLog × MetadataLog) := do
  let a ← d.read p.a
  let b ← d.read p.b
  pure (a.reader g, b.reader g)

/-- `read_pair_blocks` followed by `MetadataPair::parse`: the fetch of a pair.  An
address the device does not have is corruption, decided before the read. -/
def fetch (g : Geometry) (d : Device) (p : BlockPair) : Except Error MetadataPair :=
  if g.pairInBounds p then do
    let (a, b) ← d.readers g p
    MetadataPair.parse p a b
  else .error .corrupt

end Device

end LittlefsPure
