import LittlefsPure.Chain.Runs

/-!
# Abandoned writes

Operations on the chain of a committed file whose results nothing records: they return a
head that is dropped, they fail, or the power goes.  The file is what it was throughout, no
program falls on a cell that holds something, and the append that succeeds in the end reads
back exactly.

A power loss inside a program or an erase is a call that stops after so many bytes with
nothing landing behind it; a read or a sync that fails leaves the device as an operation does
whose remaining calls have no effect.  Both are scripts of the run.

## Why the committed bytes are safe

The last block of the file is the one place where an append writes into a block that the entry
names.  It does so behind the end of the file, only after the other steps have succeeded, and
only where the cells read as erased; where an earlier attempt has left something, the tail is
copied.  So a program lands on a block outside the file, erased before, or on erased cells
behind the end.  The read of the file stops at its end and sees neither.

## What the sizes have to do with it

As in `Chain.Runs` the appends are those of the source, with the checks of their `u32` sums.
An append whose new size is no word is one the source does not make: it stops, or it returns
a size that is too small by `2 ^ 32`, under which nothing reads back.
-/

namespace LittlefsPure

open FsM Logic

variable {g : Geometry}

/-- Attempts on the file at `head` and `size`, each on the device that the last one left, with
the events recorded so far.  Between two attempts anything may happen that leaves the cells of
the file before its end alone. -/
inductive Attempts (g : Geometry) (head size : ℕ) (start : Fs) : Fs → List Event → Prop
  | none : Attempts g head size start start []
  /-- An append, however it ends. -/
  | extend {s : Fs} {events : List Event} {data : List Byte} {append : FsM (ℕ × ℕ)}
      (before : Attempts g head size start s events) (word : size + data.length < 2 ^ 32)
      (append_eq : Ctz.U32.streamCtzExtend g head size data = some append)
      (spares : SparesFile g head size append s) :
      Attempts g head size start (append s).state (events ++ (append s).events)
  /-- A cut, however it ends. -/
  | shrink {s : Fs} {events : List Event} {newSize : ℕ}
      (before : Attempts g head size start s events) (pos : 0 < newSize) (le : newSize ≤ size)
      (spares : SparesFile g head size (shrinkCtzHead g head size newSize) s) :
      Attempts g head size start (shrinkCtzHead g head size newSize s).state
        (events ++ (shrinkCtzHead g head size newSize s).events)
  /-- Something else happens. -/
  | elsewhere {s s' : Fs} {events : List Event} (before : Attempts g head size start s events)
      (device : s'.device.blocks.length = s.device.blocks.length)
      (same : ∀ i block, (namedChain g s.device (some (head, size)))[i]? = some block →
        ∀ p < Ctz.headerSize i + (size - Ctz.capacityBelow g.blockSize i),
          (s'.device.get block).cell p = (s.device.get block).cell p) :
      Attempts g head size start s' events

/-- What a program changes that lands so: cells of its own data only, and each of them read as
erased.  The program may stop after any number of bytes. -/
theorem Event.Lands.erased {live : List ℕ} {size : ℕ} {before : Device} {block off : ℕ}
    {data : List Byte} (h : Event.Lands g live size (.programBytes before block off data))
    {n p : ℕ} (hchanged :
      (Block.raw (programAt (before.get block).bytes off (data.take n))).cell p ≠
        (before.get block).cell p) :
    off ≤ p ∧ p < off + data.length ∧ (before.get block).cell p = 0xFF := by
  have hid : ∀ x : Byte, x &&& 0xFF = x := by decide
  have hlower : off ≤ p := by
    by_contra hlt
    exact hchanged (getD_programAt (Nat.lt_of_not_le hlt))
  obtain ⟨i, rfl⟩ := Nat.exists_eq_add_of_le hlower
  have hupper : i < data.length := by
    by_contra hge
    refine hchanged ?_
    have hshort : (data.take n).length ≤ i := by
      rw [List.length_take]
      omega
    have hnone : (data.take n).getD i 0xFF = 0xFF := List.getD_eq_default _ _ hshort
    rw [cell_programAt_add, hnone, hid]
  refine ⟨hlower, Nat.add_lt_add_left hupper off, ?_⟩
  rcases h with ⟨herased, -⟩ | ⟨-, -, hcells⟩
  · rw [herased]
    rfl
  · exact hcells i hupper

section Attempts

variable {blocks : List ℕ} {content : List Byte} {head size : ℕ} {start : Fs}

theorem FileAt.kept {s s' : Fs} (h : FileAt g blocks content head size s)
    (hkept : Resides g blocks content s') : FileAt g blocks content head size s' :=
  ⟨hkept, h.tip, h.count, h.max, h.size⟩

/-- One append: the file stays, and every program lands on erased cells. -/
theorem FileAt.extend {s : Fs} (hB : 128 ≤ g.blockSize) (hbound : g.blockCount ≤ 2 ^ 32)
    (h : FileAt g blocks content head size s) {data : List Byte}
    (hspares : SparesFile g head size (streamCtzExtend g head size data) s) :
    FileAt g blocks content head size (streamCtzExtend g head size data s).state ∧
      AllEvents (Event.Lands g blocks size) (streamCtzExtend g head size data s).events := by
  rw [SparesFile, h.namedChain] at hspares
  have htriple := @sparing_streamCtzExtend g blocks content data head size hB hbound
  have hlands := (htriple.post s h hspares).1
  rw [← h.size] at hlands
  exact ⟨h.kept (htriple.ends (fun _ _ h => h.1) (fun _ _ h => h) h hspares), hlands⟩

/-- One cut. -/
theorem FileAt.shrink {s : Fs} (hB : 128 ≤ g.blockSize) (h : FileAt g blocks content head size s)
    {newSize : ℕ} (hpos : 0 < newSize) (hle : newSize ≤ size)
    (hspares : SparesFile g head size (shrinkCtzHead g head size newSize) s) :
    FileAt g blocks content head size (shrinkCtzHead g head size newSize s).state ∧
      AllEvents (Event.Lands g blocks size) (shrinkCtzHead g head size newSize s).events := by
  rw [SparesFile, h.namedChain] at hspares
  rw [h.size] at hle
  have htriple := @sparing_shrinkCtzHead g blocks content head size hB newSize hpos hle
  have hlands := (htriple.post s h hspares).1
  rw [← h.size] at hlands
  exact ⟨h.kept (htriple.ends (fun _ _ h => h.1) (fun _ _ h => h) h hspares), hlands⟩

/-- Through any number of attempts the file stays, and every program lands on erased cells. -/
theorem Attempts.fileAt (hB : 128 ≤ g.blockSize) (hbound : g.blockCount ≤ 2 ^ 32)
    (hfile : FileAt g blocks content head size start) {s : Fs} {events : List Event}
    (h : Attempts g head size start s events) :
    FileAt g blocks content head size s ∧ AllEvents (Event.Lands g blocks size) events := by
  induction h with
  | none => exact ⟨hfile, allEvents_nil⟩
  | extend _ hword happend hspares ih =>
      obtain ⟨hat, hlands⟩ := ih
      rw [Ctz.streamCtzExtend_exact hB head hword] at happend
      cases happend
      obtain ⟨hnext, hmore⟩ := hat.extend hB hbound hspares
      exact ⟨hnext, allEvents_append.2 ⟨hlands, hmore⟩⟩
  | shrink _ hpos hle hspares ih =>
      obtain ⟨hat, hlands⟩ := ih
      obtain ⟨hnext, hmore⟩ := hat.shrink hB hpos hle hspares
      exact ⟨hnext, allEvents_append.2 ⟨hlands, hmore⟩⟩
  | elsewhere _ hdevice hsame ih =>
      obtain ⟨hat, hlands⟩ := ih
      rw [hat.namedChain, hat.size] at hsame
      have hkept := hat.resides.laid.congr hsame
      exact ⟨hat.kept ⟨hdevice.trans hat.resides.size, hkept⟩, hlands⟩

/-- Through any number of abandoned attempts the committed file reads as it did, and no program
falls on a cell that holds something; an append behind them that ends within the word and
succeeds reads back exactly.  The reads are those whose sizes are words, and no others. -/
theorem attempts_undisturbing (hB : 128 ≤ g.blockSize) (hword : g.blockSize < 2 ^ 32)
    (hbound : g.blockCount ≤ 2 ^ 32) (hsize : size < 2 ^ 32)
    (hfile : FileAt g blocks content head size start) {s : Fs} {events : List Event}
    (h : Attempts g head size start s events) :
    AllEvents (Event.Lands g blocks size) events ∧
    (∀ off outLen, Ctz.U32.readCtzAt g s.device head size off outLen =
      some (.ok ((content.drop off).take outLen)) ↔ ReadsWithin g size off outLen) ∧
    ∀ data, ((∃ append, Ctz.U32.streamCtzExtend g head size data = some append) ↔
        size + data.length < 2 ^ 32) ∧
      ∀ append head' size', Ctz.U32.streamCtzExtend g head size data = some append →
        SparesFile g head size append s → (append s).result = .ok (head', size') →
        AllEvents (Event.Lands g blocks size) (append s).events ∧
        size' = size + data.length ∧
        ∀ off outLen, Ctz.U32.readCtzAt g (append s).state.device head' size' off outLen =
          some (.ok (((content ++ data).drop off).take outLen)) ↔
            ReadsWithin g size' off outLen := by
  obtain ⟨hat, hlands⟩ := h.fileAt hB hbound hfile
  refine ⟨hlands, fun off outLen => hat.readCtzAt_iff hB hword hsize off outLen, fun data => ?_⟩
  have hmade : (∃ append, Ctz.U32.streamCtzExtend g head size data = some append) ↔
      size + data.length < 2 ^ 32 :=
    Ctz.streamCtzExtend_isSome hB head hsize (hat.not_overLong hB hsize)
  refine ⟨hmade, ?_⟩
  intro append head' size' happend hspares hok
  have hsum := hmade.1 ⟨append, happend⟩
  rw [Ctz.streamCtzExtend_exact hB head hsum] at happend
  cases happend
  obtain ⟨-, hmore⟩ := hat.extend hB hbound hspares
  rw [SparesFile, hat.namedChain] at hspares
  obtain ⟨-, blocks', hnew⟩ := (sparing_streamCtzExtend hB hbound).returns hat hspares hok
  have hnewSize : size' = (content ++ data).length := hnew.size
  rw [List.length_append, ← hat.size] at hnewSize
  exact ⟨hmore, hnewSize,
    fun off outLen => hnew.readCtzAt_iff hB hword (hnewSize ▸ hsum) off outLen⟩

end Attempts

/-- The first append to the file of 100 bytes is torn; the second one succeeds. -/
theorem attempts_undisturbing_fileTorn : ∃ blocks,
    AllEvents (Event.Lands fileGeometry blocks 100) ([] ++ fileTorn.events) ∧
    Ctz.U32.readCtzAt fileGeometry fileTorn.state.device 2 100 95 20 =
      some (.ok (List.replicate 5 1)) ∧
    Ctz.U32.readCtzAt fileGeometry fileExtended.state.device 5 160 90 20 =
      some (.ok (List.replicate 10 1 ++ List.replicate 10 2)) := by
  obtain ⟨⟨blocks, hfile⟩, -⟩ := fileRun_fileBuilt.fileAt (by decide) (by decide)
  have hextend := fileExtend_eq 2 100 (by decide)
  have htorn : Attempts fileGeometry 2 100 fileBuilt.state fileTorn.state
      ([] ++ fileTorn.events) := .extend .none (by decide) hextend (by decide +kernel)
  obtain ⟨hlands, hread, hnext⟩ :=
    attempts_undisturbing (by decide) (by decide) (by decide) (by decide) hfile htorn
  obtain ⟨-, -, hnew⟩ := (hnext fileData).2 _ 5 160 hextend (by decide +kernel)
    (by decide +kernel)
  exact ⟨blocks, hlands, (hread 95 20).2 (by decide), (hnew 90 20).2 (by decide)⟩

/-! Three blocks of half a word: a file that ends one byte before the word does, with more than
a gigabyte left in its last block. -/

def hugeGeometry : Geometry := ⟨16, 16, 2 ^ 31, 5, 1⟩

def hugeContent : List Byte := List.replicate (2 ^ 32 - 1) 0xFF

def hugeStart : Fs where
  device := ⟨[.erased, .erased, .raw [], .raw (le32 2), .raw (le32 3 ++ le32 2)]⟩
  superblock := ⟨diskVersion, 2 ^ 31, 5, nameMax, 0, 0⟩
  root := rootBlockPair
  usedCache := none
  pendingMove := none
  script := []
  unpublished := {}

/-- Behind the pointers of a block there are only erased cells. -/
theorem huge_cell {bytes : List Byte} {p : ℕ} (h : bytes.length ≤ p) :
    (Block.raw bytes).cell p = 0xFF :=
  List.getD_eq_default _ _ h

theorem fileAt_huge : FileAt hugeGeometry [2, 3, 4] hugeContent 4 (2 ^ 32 - 1) hugeStart := by
  have hlen : hugeContent.length = 2 ^ 32 - 1 := List.length_replicate
  refine ⟨⟨rfl, by decide, by decide, ?_, ?_, ?_⟩, fun b hb => ?_, ?_, by decide, hlen.symm⟩
  · intro i block hi k hk
    rcases i with _ | _ | _ | i
    · simp [Ctz.skipPointersInBlock] at hk
    · obtain rfl : k = 0 := Nat.lt_one_iff.1 hk
      cases hi
      exact ⟨2, rfl, by decide⟩
    · have hk : k < 2 := hk
      cases hi
      obtain rfl | rfl : k = 0 ∨ k = 1 := by omega
      · exact ⟨3, rfl, by decide⟩
      · exact ⟨2, rfl, by decide⟩
    · cases hi
  · intro i block hi p _ byte hbyte
    have hff : byte = 0xFF := List.eq_of_mem_replicate (List.mem_of_getElem? hbyte)
    rw [hff]
    rcases i with _ | _ | _ | i
    · cases hi
      exact huge_cell (Nat.zero_le _)
    · cases hi
      exact huge_cell (Nat.le_add_right 4 p)
    · cases hi
      exact huge_cell (Nat.le_add_right 8 p)
    · cases hi
  · rw [hlen]
    decide +kernel
  · cases hb
    rfl
  · rw [hlen]
    decide +kernel

/-- The last two bytes of that file are not read, and an append to it is not made, whatever was
attempted before. -/
theorem attempts_sizes_wrap :
    FileAt hugeGeometry [2, 3, 4] hugeContent 4 (2 ^ 32 - 1) hugeStart ∧
    Ctz.U32.readCtzAt hugeGeometry hugeStart.device 4 (2 ^ 32 - 1) (2 ^ 32 - 3) 2 ≠
      some (.ok ((hugeContent.drop (2 ^ 32 - 3)).take 2)) ∧
    ¬ ∃ append, Ctz.U32.streamCtzExtend hugeGeometry 4 (2 ^ 32 - 1) (List.replicate 10 0) =
      some append := by
  refine ⟨fileAt_huge, ?_, ?_⟩
  · rw [ne_eq, fileAt_huge.readCtzAt_iff (by decide) (by decide) (by decide)]
    decide +kernel
  · rw [Ctz.streamCtzExtend_isSome (by decide) 4 (by decide)
      (fileAt_huge.not_overLong (by decide) (by decide)), List.length_replicate]
    decide

end LittlefsPure
