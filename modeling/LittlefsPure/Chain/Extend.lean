import LittlefsPure.Chain.Write

/-!
# Extending a chain

An append leaves the old content where it is and adds the new one behind it: the rest of
the tail block is filled, in place or on a copy of the block, and new blocks take what is
left.  The fill in place comes last, into erased cells only, so the chain as it was before
can still be read however the append ends.

## Why the fill comes last

The tail block belongs to both chains.  If it were filled first, a failure behind it would leave
cells programmed that the next append needs erased; the content would still be readable, and the
block would have to be copied for no reason.  So the new blocks are programmed first, and the
fill, which cannot be taken back, is the step that makes the append succeed.
-/

namespace LittlefsPure

open FsM Logic

variable {g : Geometry}

/-! ## A chain on the device -/

/-- The blocks hold the content, on a device of the right size. -/
structure Resides (g : Geometry) (blocks : List ℕ) (content : List Byte) (s : Fs) : Prop where
  size : s.device.blocks.length = g.blockCount
  laid : Ctz.Laid g s.device blocks content

/-- The head of a chain is its last block. -/
def Tip (blocks : List ℕ) (head : ℕ) : Prop := ∀ b, blocks.getLast? = some b → head = b

theorem tip_concat (blocks : List ℕ) (b : ℕ) : Tip (blocks ++ [b]) b := by
  intro x hx
  rw [List.getLast?_concat] at hx
  exact Option.some.inj hx

theorem Tip.concat_eq {blocks : List ℕ} {head : ℕ} (h : Tip blocks head)
    (hpos : 0 < blocks.length) :
    blocks = blocks.take (blocks.length - 1) ++ [head] := by
  have hlast : blocks.getLast? = some (blocks.getLast (List.ne_nil_of_length_pos hpos)) :=
    List.getLast?_eq_some_getLast _
  conv_lhs => rw [← List.dropLast_append_getLast (List.ne_nil_of_length_pos hpos)]
  rw [← h _ hlast, List.dropLast_eq_take]

theorem Resides.onBlocks (blocks : List ℕ) (content : List Byte) :
    OnBlocks blocks (Resides g blocks content) := by
  constructor
  · intro s s' hs hdevice
    exact ⟨hdevice ▸ hs.size, hdevice ▸ hs.laid⟩
  · intro addr haddr s s' hs hw
    refine ⟨hw.length.trans hs.size, hs.laid.same fun b hb => hw.other b ?_⟩
    rintro rfl
    exact haddr hb

theorem OnBlocks.and {used used' : List ℕ} {P Q : Fs → Prop} (hP : OnBlocks used P)
    (hQ : OnBlocks used' Q) : OnBlocks (used ++ used') fun s => P s ∧ Q s := by
  constructor
  · exact fun s s' hs hdevice => ⟨hP.device s s' hs.1 hdevice, hQ.device s s' hs.2 hdevice⟩
  · intro addr haddr s s' hs hw
    rw [List.mem_append, not_or] at haddr
    exact ⟨hP.stable addr haddr.1 s s' hs.1 hw, hQ.stable addr haddr.2 s s' hs.2 hw⟩

/-- An allocation that is told about a chain is told about its blocks. -/
theorem Resides.namedChain {blocks : List ℕ} {content : List Byte} {s : Fs} {head size : ℕ}
    (h : Resides g blocks content s) (hhead : Tip blocks head)
    (hcount : blocks.length = Ctz.blockCount size g.blockSize)
    (hmax : blocks.length ≤ Ctz.maxCtzBlocks) :
    namedChain g s.device (some (head, size)) = blocks := by
  have hcollect := h.laid.collect h.size hmax hhead
  rw [hcount] at hcollect
  simp only [LittlefsPure.namedChain, hcollect]

/-! ## The tail block -/

/-- Where the end of the content lies in the last block. -/
structure EndsIn (blockSize size i : ℕ) : Prop where
  lower : Ctz.capacityBelow blockSize i < size
  upper : size ≤ Ctz.capacityBelow blockSize (i + 1)
  index : (Ctz.blockIndexAtOffset (size - 1) blockSize).1 = i
  used : (Ctz.blockIndexAtOffset (size - 1) blockSize).2 + 1 - Ctz.headerSize i =
    size - Ctz.capacityBelow blockSize i

theorem endsIn_index {blockSize size : ℕ} (hB : 128 ≤ blockSize) (hpos : 0 < size)
    (hsize : Ctz.SizeInRange blockSize size) :
    EndsIn blockSize size (Ctz.blockIndexAtOffset (size - 1) blockSize).1 := by
  obtain ⟨hlower, hupper, hinner⟩ := Ctz.blockIndexAtOffset_locates hB hsize
  refine ⟨by omega, by omega, rfl, ?_⟩
  rw [hinner, Ctz.headerSize]
  omega

theorem endsIn_of_blockCount {blockSize size : ℕ} (hB : 128 ≤ blockSize) (hpos : 0 < size)
    (hsize : Ctz.SizeInRange blockSize size) :
    EndsIn blockSize size (Ctz.blockCount size blockSize - 1) := by
  rw [Ctz.blockCount, if_neg (Nat.ne_of_gt hpos), Nat.add_sub_cancel]
  exact endsIn_index hB hpos hsize

/-! ## A copy of a block -/

section Copy

variable {live used : List ℕ} {size : ℕ} {P : Fs → Prop} {head : ℕ}

/-- One block that is not in use. -/
theorem sparing_allocOne (hP : OnBlocks used P) {excluded : List ℕ} {chain : Option (ℕ × ℕ)}
    (hused : ∀ s, P s → ∀ b ∈ used, b ∈ live ∨ b ∈ namedChain g s.device chain) :
    Sparing g live size P (allocBlocks g false excluded chain 1)
      (fun blocks s => P s ∧ blocks.getD 0 noBlock ∉ used ∧
        blocks.getD 0 noBlock < g.blockCount) P := by
  refine (sparing_allocBlocks hP hused).weaken ?_
  rintro blocks s ⟨hs, hhanded⟩
  obtain ⟨b, rfl⟩ := List.length_eq_one_iff.1 hhanded.length
  exact ⟨hs, hhanded.unused b (List.mem_singleton_self b),
    hhanded.inBounds b (List.mem_singleton_self b)⟩

/-- The block holds the first bytes of the head, and more. -/
structure Copied (g : Geometry) (used : List ℕ) (head off : ℕ) (fill : List Byte) (fresh : ℕ)
    (s : Fs) : Prop where
  unused : fresh ∉ used
  inBounds : fresh < g.blockCount
  image : s.device.get fresh = .raw ((s.device.get head).slice 0 off ++ fill)

theorem sparing_copy (hP : OnBlocks used P) (hhead : head ∈ used) {fresh off : ℕ}
    {fill : List Byte} (hunused : fresh ∉ used) (hbound : fresh < g.blockCount) {old : Block}
    {data : List Byte} (hdata : data = old.slice 0 off ++ fill) :
    Sparing g live size (fun s => P s ∧ s.device.get head = old) (eraseAndProgramBytes fresh data)
      (fun ok s => P s ∧ (ok = true → Copied g used head off fill fresh s)) P := by
  have hne : head ≠ fresh := fun heq => hunused (heq ▸ hhead)
  have hstable : Stable fresh fun s => P s ∧ s.device.get head = old := by
    intro s s' hs hw
    exact ⟨hP.stable fresh hunused s s' hs.1 hw, (hw.other head hne).trans hs.2⟩
  refine (triple_eraseAndProgramBytes hstable _ (fun _ _ => True.intro)
    (fun _ _ => True.intro) fun _ herased => .inl ⟨herased, rfl⟩).weaken ?_
  rintro ok s ⟨⟨hs, hold⟩, hget⟩
  refine ⟨hs, fun hok => ⟨hunused, hbound, ?_⟩⟩
  rw [hget hok, hold, hdata]

theorem sparing_readBlock {E : Fs → Prop} (hE : ∀ s, P s → E s) :
    Sparing g live size P (query fun d => d.read head)
      (fun old s => P s ∧ s.device.get head = old) E :=
  Triple.query (fun _ _ hs hread => ⟨hs, (Device.read_eq_ok.1 hread).2⟩) fun _ _ hs _ => hE _ hs

theorem sparing_rebuildTail (hP : OnBlocks used P) (hhead : head ∈ used) {chain : Option (ℕ × ℕ)}
    (hused : ∀ s, P s → ∀ b ∈ used, b ∈ live ∨ b ∈ namedChain g s.device chain) (off : ℕ)
    (fill : List Byte) (left : ℕ) (excluded : List ℕ) :
    Sparing g live size P (rebuildTail g head off fill chain left excluded)
      (fun fresh s => P s ∧ Copied g used head off fill fresh s) P := by
  have hround : ∀ (blocks : List ℕ) (m : FsM ℕ),
      Sparing g live size P m (fun fresh s => P s ∧ Copied g used head off fill fresh s) P →
      Sparing g live size (fun s => P s ∧ blocks.getD 0 noBlock ∉ used ∧
        blocks.getD 0 noBlock < g.blockCount)
        (do
          let fresh := blocks.getD 0 noBlock
          let old ← query fun d => d.read head
          if ← eraseAndProgramBytes fresh (old.slice 0 off ++ fill) then
            hold [fresh]
            expose [head]
            pure fresh
          else m)
        (fun fresh s => P s ∧ Copied g used head off fill fresh s) P := by
    intro blocks m hm
    refine Triple.pre fun ⟨hunused, hbound⟩ => Triple.bind (sparing_readBlock fun _ h => h)
      fun old => Triple.bind (sparing_copy hP hhead hunused hbound rfl) fun ok =>
        Triple.ite (fun hok => ?_) fun _ => Triple.strengthen hm fun s hs => hs.1
    have haccount : ∀ f, Sparing g live size
        (fun s => P s ∧ Copied g used head off fill (blocks.getD 0 noBlock) s) (account f)
        (fun _ s => P s ∧ Copied g used head off fill (blocks.getD 0 noBlock) s) P := by
      intro f
      refine Triple.modify fun s hs => ⟨hP.device s _ hs.1 rfl, ?_⟩
      exact ⟨hs.2.unused, hs.2.inBounds, hs.2.image⟩
    refine Triple.seq (Triple.strengthen (haccount _) fun s hs => ⟨hs.1, hs.2 hok⟩) ?_
    exact Triple.seq (haccount _) (Triple.pure fun _ hs => hs)
  induction left generalizing excluded with
  | zero =>
      rw [rebuildTail]
      exact Triple.bind (sparing_allocOne hP hused) fun blocks =>
        hround blocks _ (Triple.fail fun _ hs => hs)
  | succ left ih =>
      rw [rebuildTail]
      exact Triple.bind (sparing_allocOne hP hused) fun blocks =>
        hround blocks _ (Triple.seq hP.invalidate (ih _))

theorem sparing_shrinkTail (hP : OnBlocks used P) (hhead : head ∈ used)
    (hused : ∀ s, P s → ∀ b ∈ used, b ∈ live ∨ b ∈ namedChain g s.device none) (keep : ℕ)
    (left : ℕ) (excluded : List ℕ) :
    Sparing g live size P (shrinkTail g head keep left excluded)
      (fun fresh s => P s ∧ Copied g used head keep [] fresh s) P := by
  have hround : ∀ (blocks : List ℕ) (m : FsM ℕ),
      Sparing g live size P m (fun fresh s => P s ∧ Copied g used head keep [] fresh s) P →
      Sparing g live size (fun s => P s ∧ blocks.getD 0 noBlock ∉ used ∧
        blocks.getD 0 noBlock < g.blockCount)
        (do
          let candidate := blocks.getD 0 noBlock
          let old ← query fun d => d.read head
          if ← eraseAndProgramBytes candidate (old.slice 0 keep) then
            hold [candidate]
            pure candidate
          else m)
        (fun fresh s => P s ∧ Copied g used head keep [] fresh s) P := by
    intro blocks m hm
    refine Triple.pre fun ⟨hunused, hbound⟩ => Triple.bind (sparing_readBlock fun _ h => h)
      fun old => Triple.bind (sparing_copy hP hhead hunused hbound (List.append_nil _).symm)
        fun ok => Triple.ite (fun hok => ?_) fun _ => Triple.strengthen hm fun s hs => hs.1
    refine Triple.seq (R := fun s => P s ∧
      Copied g used head keep [] (blocks.getD 0 noBlock) s) (Triple.modify fun s hs => ?_)
        (Triple.pure fun _ hs => hs)
    obtain ⟨hs, hcopied⟩ := hs
    exact ⟨hP.device s _ hs rfl, (hcopied hok).unused, (hcopied hok).inBounds, (hcopied hok).image⟩
  induction left generalizing excluded with
  | zero =>
      rw [shrinkTail]
      exact Triple.bind (sparing_allocOne hP hused) fun blocks =>
        hround blocks _ (Triple.fail fun _ hs => hs)
  | succ left ih =>
      rw [shrinkTail]
      exact Triple.bind (sparing_allocOne hP hused) fun blocks =>
        hround blocks _ (Triple.seq hP.invalidate (ih _))

/-- The first cells of a copy. -/
theorem Copied.cell {off fresh : ℕ} {fill : List Byte} {s : Fs}
    (h : Copied g used head off fill fresh s) {p : ℕ} (hp : p < off) :
    (s.device.get fresh).cell p = (s.device.get head).cell p := by
  rw [h.image]
  exact Block.getD_slice_append fill hp

/-- The cells behind them. -/
theorem Copied.cell_fill {off fresh : ℕ} {fill : List Byte} {s : Fs}
    (h : Copied g used head off fill fresh s) {p : ℕ} {byte : Byte} (hp : fill[p]? = some byte) :
    (s.device.get fresh).cell (off + p) = byte := by
  have hlen : ((s.device.get head).slice 0 off).length = off := Block.length_slice ..
  rw [h.image]
  show List.getD (_ ++ _) (off + p) 0xFF = _
  rw [List.getD_append_right _ _ _ _ (by omega), hlen, Nat.add_sub_cancel_left,
    List.getD_eq_getElem?_getD, hp]
  rfl

end Copy

end LittlefsPure
