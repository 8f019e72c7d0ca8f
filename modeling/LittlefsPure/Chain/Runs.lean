import LittlefsPure.Chain.Append
import LittlefsPure.Chain.Sizes

/-!
# The content of a file over a run

A run of chain operations on one file, beside everything else that happens to the device.
Reading any part of the file reads that part of the byte string that the appends and cuts
of the run make, as long as the sizes are words.

## Why the sizes come in

`stream_ctz_extend` adds the length of the data to the old size before it counts blocks, and
`read_ctz_at` casts the length of the output and adds up the capacities of the blocks it
passes.  All of this is `u32` arithmetic without checks, and the geometry admits block sizes
at which 256 blocks hold more than a `u32` counts.  So the operations of a run are the checked
ones of `Chain.Sizes`, which have no value where a sum overflows or a cast truncates: with
overflow checks the program stops there, and without them it goes on with another size.

The condition is on what goes in.  A step of a run that starts or appends has a new size below
`2 ^ 32`.  A read has an output shorter than that, and the block in which it ends is one up to
which the chain holds less than `2 ^ 32` bytes.  Both are exact: the checked append of a file
in a run has a value only under the first, and the checked read returns the slice only under
the second.

## Why the rest of the device may do as it likes

Blocks of the file are named only by its head and size.  Whatever else happens, the allocator
hands out none of them, and what is programmed behind the end of the file is never read.  The
step `elsewhere` says that much and no more, so a run may be interleaved with writes to other
files, with commits, with faults and with a mount.
-/

namespace LittlefsPure

open FsM Logic

variable {g : Geometry}

/-- The operation hands out no block of the file at `head` and `size`. -/
def SparesFile {α : Type} (g : Geometry) (head size : ℕ) (m : FsM α) (s : Fs) : Prop :=
  AllEvents (Event.Unused g (namedChain g s.device (some (head, size)))) (m s).events

instance {α : Type} (g : Geometry) (head size : ℕ) (m : FsM α) (s : Fs) :
    Decidable (SparesFile g head size m s) :=
  inferInstanceAs (Decidable (AllEvents _ _))

/-- Runs of chain operations on one file: the state, the head and size of the chain, and the
byte string that the file should hold.  The outcomes of the device calls are part of the
state, so a step may meet worn blocks and torn writes. -/
inductive FileRun (g : Geometry) : Fs → ℕ → ℕ → List Byte → Prop
  /-- A chain is built on blocks of its own. -/
  | build {s : Fs} {chain : List ℕ} {content : List Byte}
      (word : content.length < 2 ^ 32)
      (bounds : Ctz.U32.writeBounds g content.length = some (.ok chain.length))
      (device : s.device.blocks.length = g.blockCount) (nodup : chain.Nodup)
      (inBounds : ∀ b ∈ chain, b < g.blockCount)
      (built : (tryBuildCtzChain g chain content s).result = .ok none) :
      FileRun g (tryBuildCtzChain g chain content s).state (chain.getD (chain.length - 1) noBlock)
        content.length content
  /-- Data is appended. -/
  | extend {s : Fs} {head size head' size' : ℕ} {content data : List Byte}
      {append : FsM (ℕ × ℕ)} (run : FileRun g s head size content)
      (word : size + data.length < 2 ^ 32)
      (append_eq : Ctz.U32.streamCtzExtend g head size data = some append)
      (spares : SparesFile g head size append s)
      (extended : (append s).result = .ok (head', size')) :
      FileRun g (append s).state head' size' (content ++ data)
  /-- An append fails, or its result is dropped. -/
  | extendAbandoned {s : Fs} {head size : ℕ} {content data : List Byte}
      {append : FsM (ℕ × ℕ)} (run : FileRun g s head size content)
      (word : size + data.length < 2 ^ 32)
      (append_eq : Ctz.U32.streamCtzExtend g head size data = some append)
      (spares : SparesFile g head size append s) :
      FileRun g (append s).state head size content
  /-- The file is cut. -/
  | shrink {s : Fs} {head size head' newSize : ℕ} {content : List Byte}
      (run : FileRun g s head size content) (pos : 0 < newSize) (le : newSize ≤ size)
      (spares : SparesFile g head size (shrinkCtzHead g head size newSize) s)
      (shrunk : (shrinkCtzHead g head size newSize s).result = .ok head') :
      FileRun g (shrinkCtzHead g head size newSize s).state head' newSize (content.take newSize)
  /-- A cut fails, or its result is dropped. -/
  | shrinkAbandoned {s : Fs} {head size newSize : ℕ} {content : List Byte}
      (run : FileRun g s head size content) (pos : 0 < newSize) (le : newSize ≤ size)
      (spares : SparesFile g head size (shrinkCtzHead g head size newSize) s) :
      FileRun g (shrinkCtzHead g head size newSize s).state head size content
  /-- Anything else happens that leaves the cells of the file before its end alone. -/
  | elsewhere {s s' : Fs} {head size : ℕ} {content : List Byte}
      (run : FileRun g s head size content)
      (device : s'.device.blocks.length = s.device.blocks.length)
      (same : ∀ i block, (namedChain g s.device (some (head, size)))[i]? = some block →
        ∀ p < Ctz.headerSize i + (size - Ctz.capacityBelow g.blockSize i),
          (s'.device.get block).cell p = (s.device.get block).cell p) :
      FileRun g s' head size content

theorem FileAt.namedChain {blocks : List ℕ} {content : List Byte} {head size : ℕ} {s : Fs}
    (h : FileAt g blocks content head size s) :
    namedChain g s.device (some (head, size)) = blocks := by
  obtain ⟨hresides, htip, hcount, hmax, rfl⟩ := h
  exact hresides.namedChain htip hcount hmax

/-- Along a run the file is on the device, and its size is a word. -/
theorem FileRun.fileAt (hB : 128 ≤ g.blockSize) (hbound : g.blockCount ≤ 2 ^ 32) {s : Fs}
    {head size : ℕ} {content : List Byte} (h : FileRun g s head size content) :
    (∃ blocks, FileAt g blocks content head size s) ∧ size < 2 ^ 32 := by
  induction h with
  | @build s chain content hword hbounds hdevice hnodup hinBounds hbuilt =>
      obtain ⟨hcount, hmax⟩ := Ctz.writeBounds_eq_ok hB hword hbounds
      have hevery : AllEvents (fun _ => True) (tryBuildCtzChain g chain content s).events :=
        fun _ _ => True.intro
      have htriple := @triple_tryBuildCtzChain g content hB hbound chain hnodup hinBounds hcount
        hmax (fun _ => True) fun _ _ => True
      exact ⟨⟨chain, htriple.returns hdevice hevery hbuilt rfl⟩, hword⟩
  | @extend s head size head' size' content data append _ hword happend hspares hextended ih =>
      obtain ⟨⟨blocks, hfile⟩, -⟩ := ih
      rw [Ctz.streamCtzExtend_exact hB head hword] at happend
      cases happend
      rw [SparesFile, hfile.namedChain] at hspares
      obtain ⟨-, blocks', hnew⟩ :=
        (sparing_streamCtzExtend hB hbound).returns hfile hspares hextended
      have hsize : size' = (content ++ data).length := hnew.size
      rw [List.length_append, ← hfile.size] at hsize
      exact ⟨⟨blocks', hnew⟩, hsize ▸ hword⟩
  | @extendAbandoned s head size content data append _ hword happend hspares ih =>
      obtain ⟨⟨blocks, hfile⟩, hsize⟩ := ih
      rw [Ctz.streamCtzExtend_exact hB head hword] at happend
      cases happend
      rw [SparesFile, hfile.namedChain] at hspares
      have hkept := (sparing_streamCtzExtend hB hbound).ends (fun _ _ h => h.1) (fun _ _ h => h)
        hfile hspares
      exact ⟨⟨blocks, hkept, hfile.tip, hfile.count, hfile.max, hfile.size⟩, hsize⟩
  | @shrink s head size head' newSize content _ hpos hle hspares hshrunk ih =>
      obtain ⟨⟨blocks, hfile⟩, hsize⟩ := ih
      have hnewSize := Nat.lt_of_le_of_lt hle hsize
      rw [SparesFile, hfile.namedChain] at hspares
      rw [hfile.size] at hle
      exact ⟨((sparing_shrinkCtzHead hB hpos hle).returns hfile hspares hshrunk).2, hnewSize⟩
  | @shrinkAbandoned s head size newSize content _ hpos hle hspares ih =>
      obtain ⟨⟨blocks, hfile⟩, hsize⟩ := ih
      rw [SparesFile, hfile.namedChain] at hspares
      rw [hfile.size] at hle
      have hkept := (sparing_shrinkCtzHead hB hpos hle).ends (fun _ _ h => h.1) (fun _ _ h => h)
        hfile hspares
      exact ⟨⟨blocks, hkept, hfile.tip, hfile.count, hfile.max, hfile.size⟩, hsize⟩
  | @elsewhere s s' head size content _ hdevice hsame ih =>
      obtain ⟨⟨blocks, hfile⟩, hsize⟩ := ih
      rw [hfile.namedChain, hfile.size] at hsame
      exact ⟨⟨blocks, ⟨hdevice.trans hfile.resides.size, hfile.resides.laid.congr hsame⟩,
        hfile.tip, hfile.count, hfile.max, hfile.size⟩, hsize⟩

/-- Reading a file reads its content. -/
theorem FileAt.readCtzAt (hB : 128 ≤ g.blockSize) {blocks : List ℕ} {content : List Byte}
    {head size : ℕ} {s : Fs} (h : FileAt g blocks content head size s) (off outLen : ℕ) :
    Ctz.readCtzAt g s.device head size off outLen = .ok ((content.drop off).take outLen) := by
  obtain ⟨hresides, htip, hcount, hmax, rfl⟩ := h
  exact hresides.laid.readCtzAt hresides.size hB hcount hmax htip off outLen

/-- The chain of a file can be collected. -/
theorem FileAt.collect {blocks : List ℕ} {content : List Byte} {head size : ℕ} {s : Fs}
    (h : FileAt g blocks content head size s) :
    Ctz.collectChainBlocks g s.device head (Ctz.blockCount size g.blockSize) Ctz.maxCtzBlocks =
      .ok blocks := by
  obtain ⟨hresides, htip, hcount, hmax, rfl⟩ := h
  have hcollect := hresides.laid.collect hresides.size hmax htip
  rwa [hcount] at hcollect

theorem FileAt.not_overLong (hB : 128 ≤ g.blockSize) {blocks : List ℕ} {content : List Byte}
    {head size : ℕ} {s : Fs} (h : FileAt g blocks content head size s) (hsize : size < 2 ^ 32) :
    ¬ Ctz.OverLong g.blockSize size := by
  rw [Ctz.overLong_iff hB hsize, h.size, ← h.count]
  exact Nat.not_lt_of_le h.max

/-- A read of a file whose sizes are words: it copies nothing, or its output is shorter than
`2 ^ 32` bytes and ends in a block up to which the chain holds less than that. -/
def ReadsWithin (g : Geometry) (size off outLen : ℕ) : Prop :=
  size = 0 ∨ outLen = 0 ∨ size ≤ off ∨ outLen < 2 ^ 32 ∧
    Ctz.capacityBelow g.blockSize (Ctz.blockCount (min size (off + outLen)) g.blockSize) < 2 ^ 32

instance (g : Geometry) (size off outLen : ℕ) : Decidable (ReadsWithin g size off outLen) :=
  inferInstanceAs (Decidable (_ ∨ _))

/-- The read of the source returns the slice just where its sizes are words. -/
theorem FileAt.readCtzAt_iff (hB : 128 ≤ g.blockSize) (hword : g.blockSize < 2 ^ 32)
    {blocks : List ℕ} {content : List Byte} {head size : ℕ} {s : Fs}
    (h : FileAt g blocks content head size s) (hsize : size < 2 ^ 32) (off outLen : ℕ) :
    Ctz.U32.readCtzAt g s.device head size off outLen =
        some (.ok ((content.drop off).take outLen)) ↔ ReadsWithin g size off outLen := by
  rw [← h.readCtzAt hB off outLen, Ctz.readExact_iff hB hword h.resides.size hsize, ReadsWithin,
    Ctz.ReadFits, h.collect]
  have hshort := h.not_overLong hB hsize
  have hnone : ¬ ∃ e, (.ok blocks : Except Error (List ℕ)) = .error e := by simp
  tauto

/-- Along every run whose appends end within the word, a read returns the part of the byte
string that it asks for just where its sizes are words, and the next append is made just where
it ends within the word. -/
theorem fileRun_reads_iff (hB : 128 ≤ g.blockSize) (hword : g.blockSize < 2 ^ 32)
    (hbound : g.blockCount < 2 ^ 32) {s : Fs} {head size : ℕ} {content : List Byte}
    (h : FileRun g s head size content) :
    size = content.length ∧
    (∀ off outLen, Ctz.U32.readCtzAt g s.device head size off outLen =
      some (.ok ((content.drop off).take outLen)) ↔ ReadsWithin g size off outLen) ∧
    ∀ data, (∃ append, Ctz.U32.streamCtzExtend g head size data = some append) ↔
      size + data.length < 2 ^ 32 := by
  obtain ⟨⟨blocks, hfile⟩, hsize⟩ := h.fileAt hB (Nat.le_of_lt hbound)
  exact ⟨hfile.size, fun off outLen => hfile.readCtzAt_iff hB hword hsize off outLen,
    fun data => Ctz.streamCtzExtend_isSome hB head hsize (hfile.not_overLong hB hsize)⟩

/-! A file of 100 bytes.  The fill of a first append is torn, so the append fails and the
next one copies the tail; the file is then cut inside its second block. -/

def fileGeometry : Geometry := ⟨16, 16, 128, 16, 0⟩

/-- A device on which the fifth write is torn. -/
def fileStart : Fs where
  device := .blank 16
  superblock := ⟨diskVersion, 128, 16, 0, 0, 0⟩
  root := rootBlockPair
  usedCache := some ⟨[0, 1, 2]⟩
  pendingMove := none
  script := [.done, .done, .done, .done, .failed (.torn 5)]
  unpublished := {}

def fileContent : List Byte := List.replicate 100 1

def fileData : List Byte := List.replicate 60 2

def fileBuilt : Run Fs Error Event (Option ℕ) :=
  tryBuildCtzChain fileGeometry [2] fileContent fileStart

def fileTorn : Run Fs Error Event (ℕ × ℕ) :=
  streamCtzExtend fileGeometry 2 100 fileData fileBuilt.state

def fileExtended : Run Fs Error Event (ℕ × ℕ) :=
  streamCtzExtend fileGeometry 2 100 fileData fileTorn.state

def fileCut : Run Fs Error Event ℕ := shrinkCtzHead fileGeometry 5 160 130 fileExtended.state

theorem fileExtend_eq (head size : ℕ) (hsum : size + fileData.length < 2 ^ 32) :
    Ctz.U32.streamCtzExtend fileGeometry head size fileData =
      some (streamCtzExtend fileGeometry head size fileData) :=
  Ctz.streamCtzExtend_exact (by decide) head hsum

theorem fileRun_fileBuilt : FileRun fileGeometry fileBuilt.state 2 100 fileContent :=
  .build (by decide) (by decide) (by decide) (by decide) (by decide) (by decide +kernel)

theorem fileRun_fileCut :
    FileRun fileGeometry fileCut.state 6 130 ((fileContent ++ fileData).take 130) := by
  have htorn : FileRun fileGeometry fileTorn.state 2 100 fileContent :=
    .extendAbandoned fileRun_fileBuilt (by decide) (fileExtend_eq 2 100 (by decide))
      (by decide +kernel)
  have hextended : FileRun fileGeometry fileExtended.state 5 160 (fileContent ++ fileData) :=
    .extend htorn (by decide) (fileExtend_eq 2 100 (by decide)) (by decide +kernel)
      (by decide +kernel)
  exact .shrink hextended (by decide) (by decide) (by decide +kernel) (by decide +kernel)

theorem fileRun_reads_iff_fileCut :
    Ctz.U32.readCtzAt fileGeometry fileCut.state.device 6 130 90 20 =
      some (.ok (List.replicate 10 1 ++ List.replicate 10 2)) :=
  ((fileRun_reads_iff (by decide) (by decide) (by decide) fileRun_fileCut).2.1 90 20).2 (by decide)

/-- An output of `2 ^ 32 + 20` bytes: the cast of its length leaves 20, and the 40 bytes behind
the offset are not read. -/
theorem fileRun_read_truncates :
    FileRun fileGeometry fileCut.state 6 130 ((fileContent ++ fileData).take 130) ∧
      Ctz.U32.readCtzAt fileGeometry fileCut.state.device 6 130 90 (2 ^ 32 + 20) ≠
        some (.ok ((((fileContent ++ fileData).take 130).drop 90).take (2 ^ 32 + 20))) := by
  refine ⟨fileRun_fileCut, ?_⟩
  obtain ⟨⟨blocks, hfile⟩, hsize⟩ := fileRun_fileCut.fileAt (by decide) (by decide)
  rw [ne_eq, hfile.readCtzAt_iff (by decide) (by decide) hsize]
  decide

end LittlefsPure
