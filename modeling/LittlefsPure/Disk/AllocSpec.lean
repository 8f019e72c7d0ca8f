import LittlefsPure.Disk.Chain

/-!
# What an allocation avoids

A cached allocation starts from a bitmap, the cache or a fresh scan, marks the
excluded blocks in it and hands out unmarked ones.  So a block is never handed out
when every bitmap the call can start from has it marked, or when it is excluded.
`allocCached_eq_ok` says this with the cache the call leaves behind.

## Why the caller's list is not enough

The blocks an operation has programmed and not yet published are found by neither scan.  The
operation hands them over as excluded, but the cache outlives the operation: a later allocation
starts from it without the list.  So the lemmas speak of the bitmap that a call starts from, and
of the one that it leaves, and a block stays away from the allocator for as long as every bitmap
it can start from has it marked.
-/

namespace LittlefsPure
namespace Alloc

open Logic

/-! ## Taking free blocks -/

theorem markExcluded_le (excluded : List ℕ) (used : Bitmap) :
    used.Le (markExcluded excluded used).1 := by
  induction excluded generalizing used with
  | nil => exact Bitmap.Le.refl used
  | cons x rest ih =>
      rw [markExcluded]
      split_ifs
      · exact ih used
      · cases hset : used.set x with
        | error e => exact Bitmap.Le.refl used
        | ok used₁ => exact (Bitmap.set_eq_ok hset).1.trans (ih used₁)

/-- The sentinel is skipped, and reads as marked because it lies past the tracked blocks. -/
theorem markExcluded_marks {excluded : List ℕ} {used used' : Bitmap}
    (h : markExcluded excluded used = (used', true)) :
    ∀ x ∈ excluded, used'.isSet x = true := by
  induction excluded generalizing used with
  | nil => exact nofun
  | cons y rest ih =>
      rw [markExcluded] at h
      rw [List.forall_mem_cons]
      by_cases hy : y = noBlock
      · rw [if_pos hy] at h
        rw [hy]
        exact ⟨Bitmap.isSet_iff.2 (.inl (by decide)), ih h⟩
      · rw [if_neg hy] at h
        cases hset : used.set y with
        | error e =>
            rw [hset] at h
            cases h
        | ok used₁ =>
            rw [hset] at h
            refine ⟨?_, ih h⟩
            have hle := markExcluded_le rest used₁
            simp only at h
            rw [h] at hle
            exact hle _ (Bitmap.set_eq_ok hset).2

theorem takeFreeFrom_le (todo b want : ℕ) (used : Bitmap) :
    used.Le (takeFreeFrom todo b want used).1 := by
  induction todo generalizing b want used with
  | zero => cases want <;> exact Bitmap.Le.refl used
  | succ todo ih =>
      cases want with
      | zero => exact Bitmap.Le.refl used
      | succ want =>
          rw [takeFreeFrom]
          split_ifs
          · exact ih _ _ used
          · exact (Bitmap.cons_le used b).trans (ih _ _ _)

/-- Blocks handed out from a bitmap: unmarked before, marked after, distinct, and on the
device. -/
structure Taken (used used' : Bitmap) (bound want : ℕ) (out : List ℕ) : Prop where
  free : ∀ x ∈ out, used.isSet x = false
  marked : ∀ x ∈ out, used'.isSet x = true
  bound : ∀ x ∈ out, x < bound
  nodup : out.Nodup
  length : out.length = want

theorem takeFreeFrom_taken {todo b want : ℕ} {used used' : Bitmap} {out : List ℕ}
    (h : takeFreeFrom todo b want used = (used', some out)) :
    Taken used used' (b + todo) want out := by
  induction todo generalizing b want used used' out with
  | zero =>
      cases want with
      | zero =>
          cases h
          exact ⟨nofun, nofun, nofun, List.nodup_nil, rfl⟩
      | succ want => cases h
  | succ todo ih =>
      cases want with
      | zero =>
          cases h
          exact ⟨nofun, nofun, nofun, List.nodup_nil, rfl⟩
      | succ want =>
          rw [takeFreeFrom] at h
          by_cases hb : used.isSet b = true
          · rw [if_pos hb] at h
            obtain ⟨hfree, hmarked, hbound, hnodup, hlength⟩ := ih h
            exact ⟨hfree, hmarked, fun x hx => by have := hbound x hx; omega, hnodup, hlength⟩
          rw [if_neg hb] at h
          cases hrest : takeFreeFrom todo (b + 1) want ⟨b :: used.marked⟩ with
          | mk used₁ more =>
              rw [hrest] at h
              cases more with
              | none => cases h
              | some more =>
                  cases h
                  obtain ⟨hfree, hmarked, hbound, hnodup, hlength⟩ := ih hrest
                  have hle := takeFreeFrom_le todo (b + 1) want ⟨b :: used.marked⟩
                  rw [hrest] at hle
                  have hself : (Bitmap.mk (b :: used.marked)).isSet b = true :=
                    Bitmap.isSet_iff.2 (.inr (List.mem_cons_self ..))
                  have hfree' : ∀ x ∈ more, used.isSet x = false := by
                    intro x hx
                    by_contra hset
                    have := Bitmap.cons_le used b x (Bool.not_eq_false _ ▸ hset)
                    rw [hfree x hx] at this
                    cases this
                  have hfresh : b ∉ more := by
                    intro hmem
                    have := hfree b hmem
                    rw [hself] at this
                    cases this
                  refine ⟨?_, ?_, ?_, List.nodup_cons.2 ⟨hfresh, hnodup⟩, ?_⟩
                  · exact List.forall_mem_cons.2 ⟨Bool.not_eq_true _ ▸ hb, hfree'⟩
                  · exact List.forall_mem_cons.2 ⟨hle b hself, hmarked⟩
                  · refine List.forall_mem_cons.2 ⟨by omega, fun x hx => ?_⟩
                    have := hbound x hx
                    omega
                  · rw [List.length_cons, hlength]

theorem takeFreeBlocks_le (used : Bitmap) (excluded : List ℕ) (want blockCount : ℕ) :
    used.Le (takeFreeBlocks used excluded want blockCount).1 := by
  have hle := markExcluded_le excluded used
  unfold takeFreeBlocks
  rcases hmark : markExcluded excluded used with ⟨used₁, fits⟩
  rw [hmark] at hle
  cases fits with
  | true => exact hle.trans (takeFreeFrom_le _ _ _ _)
  | false => exact hle

theorem takeFreeBlocks_taken {used used' : Bitmap} {excluded : List ℕ} {want blockCount : ℕ}
    {out : List ℕ} (h : takeFreeBlocks used excluded want blockCount = (used', some out)) :
    Taken used used' blockCount want out ∧ (∀ x ∈ out, x ∉ excluded) ∧
      ∀ x ∈ excluded, used'.isSet x = true := by
  have hle := markExcluded_le excluded used
  unfold takeFreeBlocks at h
  rcases hmark : markExcluded excluded used with ⟨used₁, fits⟩
  rw [hmark] at h hle
  cases fits with
  | false => cases h
  | true =>
      have hexcluded := markExcluded_marks hmark
      obtain ⟨hfree, hmarked, hbound, hnodup, hlength⟩ := takeFreeFrom_taken h
      have hle' := takeFreeFrom_le blockCount 0 want used₁
      simp only at h
      rw [h] at hle'
      refine ⟨⟨fun x hx => ?_, hmarked, ?_, hnodup, hlength⟩, fun x hx hmem => ?_, ?_⟩
      · by_contra hset
        have := hle x (Bool.not_eq_false _ ▸ hset)
        rw [hfree x hx] at this
        cases this
      · simpa using hbound
      · have hset := hexcluded x hmem
        rw [hfree x hx] at hset
        cases hset
      · exact fun x hx => hle' x (hexcluded x hx)

/-! ## The cached allocation -/

/-- What a successful call did: it started from the cache or from a fresh scan. -/
structure Served (g : Geometry) (d : Device) (root : BlockPair) (singleBuf : Bool)
    (cache : Option Bitmap) (excluded : List ℕ) (chain : Option (ℕ × ℕ)) (want : ℕ)
    (base used : Bitmap) (blocks : List ℕ) : Prop where
  source : cache = some base ∨ rescan g d root singleBuf chain = .ok base ∧
    ∀ bm, cache = some bm → (takeFreeBlocks bm excluded want g.blockCount).2 = none
  le : base.Le used
  taken : Taken base used g.blockCount want blocks
  avoids : ∀ x ∈ blocks, x ∉ excluded
  excluded : ∀ x ∈ excluded, used.isSet x = true

theorem allocFresh_eq_ok {g : Geometry} {d : Device} {root : BlockPair} {singleBuf : Bool}
    {cache cache' old : Option Bitmap} {excluded blocks : List ℕ} {chain : Option (ℕ × ℕ)}
    {want : ℕ}
    (hold : ∀ bm, old = some bm → (takeFreeBlocks bm excluded want g.blockCount).2 = none)
    (h : allocFresh g d root singleBuf cache excluded chain want = (cache', .ok blocks)) :
    ∃ base used, cache' = some used ∧
      Served g d root singleBuf old excluded chain want base used blocks := by
  unfold allocFresh at h
  cases hscan : rescan g d root singleBuf chain with
  | error e =>
      rw [hscan] at h
      cases h
  | ok fresh =>
      rw [hscan] at h
      simp only at h
      have hle := takeFreeBlocks_le fresh excluded want g.blockCount
      rcases htake : takeFreeBlocks fresh excluded want g.blockCount with ⟨used, out⟩
      rw [htake] at h hle
      cases out with
      | none => cases h
      | some out =>
          cases h
          obtain ⟨htaken, havoids, hexcluded⟩ := takeFreeBlocks_taken htake
          exact ⟨fresh, used, rfl, .inr ⟨hscan, hold⟩, hle, htaken, havoids, hexcluded⟩

/-- A call that succeeds hands out blocks that its starting bitmap has free and leaves a
cache that has them marked. -/
theorem allocCached_eq_ok {g : Geometry} {d : Device} {root : BlockPair} {singleBuf : Bool}
    {cache cache' : Option Bitmap} {excluded blocks : List ℕ} {chain : Option (ℕ × ℕ)} {want : ℕ}
    (h : allocCached g d root singleBuf cache excluded chain want = (cache', .ok blocks)) :
    ∃ base used, cache' = some used ∧
      Served g d root singleBuf cache excluded chain want base used blocks := by
  unfold allocCached at h
  cases cache with
  | none => exact allocFresh_eq_ok nofun h
  | some bm =>
      simp only at h
      have hle := takeFreeBlocks_le bm excluded want g.blockCount
      rcases htake : takeFreeBlocks bm excluded want g.blockCount with ⟨used, out⟩
      rw [htake] at h hle
      cases out with
      | none => exact allocFresh_eq_ok (fun _ hbm => by cases hbm; rw [htake]) h
      | some out =>
          cases h
          obtain ⟨htaken, havoids, hexcluded⟩ := takeFreeBlocks_taken htake
          exact ⟨bm, used, rfl, .inl rfl, hle, htaken, havoids, hexcluded⟩

/-- A call that fails leaves at most more blocks marked in the cache. -/
theorem allocCached_error {g : Geometry} {d : Device} {root : BlockPair} {singleBuf : Bool}
    {cache : Option Bitmap} {used' : Bitmap} {excluded : List ℕ} {chain : Option (ℕ × ℕ)}
    {want : ℕ} {e : Error}
    (h : allocCached g d root singleBuf cache excluded chain want = (some used', .error e)) :
    ∃ used, cache = some used ∧ used.Le used' := by
  have hfresh : ∀ old : Option Bitmap,
      allocFresh g d root singleBuf old excluded chain want = (some used', .error e) →
        old = some used' := by
    intro old h
    unfold allocFresh at h
    cases hscan : rescan g d root singleBuf chain with
    | error e' =>
        rw [hscan] at h
        cases h
        rfl
    | ok fresh =>
        rw [hscan] at h
        simp only at h
        rcases htake : takeFreeBlocks fresh excluded want g.blockCount with ⟨used, out⟩
        rw [htake] at h
        cases out with
        | none =>
            cases h
            rfl
        | some out => cases h
  unfold allocCached at h
  cases cache with
  | none => cases hfresh none h
  | some bm =>
      simp only at h
      have hle := takeFreeBlocks_le bm excluded want g.blockCount
      rcases htake : takeFreeBlocks bm excluded want g.blockCount with ⟨used, out⟩
      rw [htake] at h hle
      cases out with
      | none =>
          cases hfresh _ h
          exact ⟨bm, rfl, hle⟩
      | some out => cases h

/-! ## A protected block -/

/-- A rescan is one of the two scans, with the chain walked on top. -/
theorem rescan_eq_ok {g : Geometry} {d : Device} {root : BlockPair} {singleBuf : Bool}
    {chain : Option (ℕ × ℕ)} {used : Bitmap} (h : rescan g d root singleBuf chain = .ok used) :
    ∃ fresh, (scanUsedWithSingleBuf g d root .empty = .ok fresh ∨
        scanUsedBlocks g d root .empty = .ok fresh) ∧ fresh.Le used ∧
      ∀ head size, chain = some (head, size) → walkCtzChain g d head size fresh = .ok used := by
  have hwalk : ∀ fresh,
      chain.elim (pure fresh) (fun c => walkCtzChain g d c.1 c.2 fresh) = .ok used →
      fresh.Le used ∧
        ∀ head size, chain = some (head, size) → walkCtzChain g d head size fresh = .ok used := by
    intro fresh h
    cases chain with
    | none =>
        cases h
        exact ⟨Bitmap.Le.refl _, fun _ _ hc => (by cases hc)⟩
    | some c =>
        refine ⟨Ctz.walkCtzChain_le h, fun head size hc => ?_⟩
        cases hc
        exact h
  unfold rescan at h
  cases singleBuf with
  | true =>
      rw [if_pos rfl, bind_eq_ok] at h
      obtain ⟨fresh, hscan, h⟩ := h
      refine ⟨fresh, .inl hscan, hwalk fresh ?_⟩
      cases chain with
      | none => exact h
      | some c => exact h
  | false =>
      rw [if_neg Bool.false_ne_true, bind_eq_ok] at h
      obtain ⟨fresh, hscan, h⟩ := h
      refine ⟨fresh, .inr hscan, hwalk fresh ?_⟩
      cases chain with
      | none => exact h
      | some c => exact h

theorem rescan_marks_chain {g : Geometry} {d : Device} {root : BlockPair} {singleBuf : Bool}
    {head size : ℕ} {rest : List ℕ} {used : Bitmap}
    (hlinks : Ctz.Descends d (Ctz.blockCount size g.blockSize - 1) (head :: rest))
    (hlen : (head :: rest).length ≤ Ctz.blockCount size g.blockSize)
    (h : rescan g d root singleBuf (some (head, size)) = .ok used) :
    ∀ b ∈ head :: rest, used.isSet b = true := by
  obtain ⟨fresh, -, -, hwalk⟩ := rescan_eq_ok h
  exact Ctz.walkCtzChain_marks hlinks hlen (hwalk head size rfl)

end Alloc
end LittlefsPure
