import LittlefsPure.Disk.Chain
import Mathlib.Data.List.Perm.Subperm

/-!
# What the scans mark

The bits a scan sets, as sets of blocks: a pair's halves, and the blocks of a chain as the
reading side collects them.  `walk_ctz_chain` accepts a chain exactly when
`collect_chain_blocks_buffered` does and the bitmap tracks its blocks, and then it marks those.
A child pair is collected unless both its blocks read as marked or it is there already.

## Why marks and not visits

A pair whose blocks are both marked is passed over.  So whether a pair is visited depends on the
marks that others have left, and the marks on the visits.  The facts of this module are about one
visit from any bitmap; how visits follow one another is `Scan.Search`.
-/

namespace LittlefsPure

open Logic

namespace Bitmap

variable {m m' : Bitmap} {b x : ℕ}

@[simp] theorem marked_empty : empty.marked = [] := rfl

theorem set_eq_ok_iff :
    m.set b = .ok m' ↔ b < maxTrackedBlocks ∧
      m' = if b ∈ m.marked then m else ⟨b :: m.marked⟩ := by
  unfold set
  by_cases hcap : maxTrackedBlocks ≤ b
  · rw [if_pos hcap]
    exact ⟨fun h => (by cases h), fun h => absurd h.1 (Nat.not_lt.2 hcap)⟩
  · rw [if_neg hcap, Except.ok.injEq]
    exact ⟨fun h => ⟨Nat.lt_of_not_le hcap, h.symm⟩, fun h => h.2.symm⟩

/-- A mark that succeeds adds its block and no other. -/
theorem mem_of_set (h : m.set b = .ok m') (x : ℕ) : x ∈ m'.marked ↔ x ∈ m.marked ∨ x = b := by
  obtain ⟨-, rfl⟩ := set_eq_ok_iff.1 h
  split_ifs with hmem
  · constructor
    · exact .inl
    · rintro (hx | rfl)
      · exact hx
      · exact hmem
  · rw [List.mem_cons, or_comm]

theorem lt_of_set (h : m.set b = .ok m') : b < maxTrackedBlocks := (set_eq_ok_iff.1 h).1

theorem exists_set (m : Bitmap) (h : b < maxTrackedBlocks) : ∃ m', m.set b = .ok m' :=
  ⟨_, set_eq_ok_iff.2 ⟨h, rfl⟩⟩

/-- A tracked block reads as set when it is marked. -/
theorem isSet_tracked (h : x < maxTrackedBlocks) : m.isSet x = true ↔ x ∈ m.marked := by
  rw [isSet_iff]
  exact ⟨fun hx => hx.resolve_left (Nat.not_le.2 h), .inr⟩

end Bitmap

/-! ## Chains -/

namespace Ctz

/-- The blocks of the chain an entry names by head and size, in the order of its content. -/
def chainBlocks (g : Geometry) (d : Device) (head size : ℕ) : Except Error (List ℕ) :=
  collectChainBlocks g d head (blockCount size g.blockSize) g.blockCount

variable {g : Geometry} {d : Device} {fuel head index size : ℕ} {used used' : Bitmap}
  {blocks : List ℕ}

/-- The marking walk follows the collecting walk and marks what that one collects. -/
theorem markChainFrom_collects (h : Alloc.markChainFrom g d fuel head index used = .ok used') :
    ∃ blocks, collectFrom g d fuel head index = .ok blocks ∧
      (∀ b ∈ blocks, b < maxTrackedBlocks) ∧
      ∀ b, b ∈ used'.marked ↔ b ∈ used.marked ∨ b ∈ blocks := by
  induction fuel generalizing head index used with
  | zero => cases h
  | succ fuel ih =>
      rw [Alloc.markChainFrom, bind_eq_ok] at h
      obtain ⟨c, hc, h⟩ := h
      obtain ⟨used₁, hset, h⟩ := bind_eq_ok.1 h
      obtain ⟨-, rfl⟩ := requireInBounds_eq_ok.1 hc
      have hcap := Bitmap.lt_of_set hset
      have hmem := Bitmap.mem_of_set hset
      rw [collectFrom, hc]
      simp only [bind, Except.bind] at h ⊢
      split_ifs at h ⊢ with hzero heven
      · cases h
        refine ⟨[c], rfl, by simpa using hcap, fun b => ?_⟩
        rw [hmem, List.mem_singleton]
      · cases hread : d.read c with
        | error e =>
            rw [hread] at h
            cases h
        | ok blk =>
            rw [hread] at h
            simp only at h ⊢
            cases hptr : requireInBounds g (blk.word 0) with
            | error e =>
                rw [hptr] at h
                cases h
            | ok ptr =>
                rw [hptr] at h
                obtain ⟨used₂, hset₂, h⟩ := bind_eq_ok.1 h
                obtain ⟨rest, hrest, hrestCap, hrestMem⟩ := ih h
                simp only [hrest]
                refine ⟨rest ++ [ptr, c], rfl, fun b hb => ?_, fun b => ?_⟩
                · simp only [List.mem_append, List.mem_cons, List.not_mem_nil, or_false] at hb
                  rcases hb with hb | rfl | rfl
                  · exact hrestCap b hb
                  · exact Bitmap.lt_of_set hset₂
                  · exact hcap
                · rw [hrestMem, Bitmap.mem_of_set hset₂, hmem]
                  simp only [List.mem_append, List.mem_cons, List.not_mem_nil, or_false]
                  tauto
      · cases hread : d.read c with
        | error e =>
            rw [hread] at h
            cases h
        | ok blk =>
            rw [hread] at h
            obtain ⟨rest, hrest, hrestCap, hrestMem⟩ := ih h
            simp only [hrest]
            refine ⟨rest ++ [c], rfl, fun b hb => ?_, fun b => ?_⟩
            · rcases List.mem_append.1 hb with hb | hb
              · exact hrestCap b hb
              · rw [List.mem_singleton.1 hb]
                exact hcap
            · rw [hrestMem, hmem, List.mem_append, List.mem_singleton]
              tauto

/-- A chain that can be collected can be marked, as far as its blocks are tracked. -/
theorem exists_markChainFrom (used : Bitmap) (h : collectFrom g d fuel head index = .ok blocks)
    (hcap : ∀ b ∈ blocks, b < maxTrackedBlocks) :
    ∃ used', Alloc.markChainFrom g d fuel head index used = .ok used' := by
  induction fuel generalizing head index used blocks with
  | zero => cases h
  | succ fuel ih =>
      obtain ⟨hbound, hstep⟩ := collectFrom_eq_ok h
      have hin : requireInBounds g head = .ok head := requireInBounds_eq_ok.2 ⟨hbound, rfl⟩
      have hhead : head ∈ blocks := by
        rcases hstep with ⟨-, rfl⟩ | ⟨-, -, -, rest, -, rfl⟩ | ⟨-, rest, -, rfl⟩ <;> simp
      obtain ⟨used₁, hset⟩ := Bitmap.exists_set used (hcap head hhead)
      rw [Alloc.markChainFrom, hin]
      simp only [bind, Except.bind, hset]
      rw [collectFrom, hin] at h
      simp only [bind, Except.bind] at h
      split_ifs at h ⊢ with hzero heven
      · exact ⟨used₁, rfl⟩
      · cases hread : d.read head with
        | error e =>
            rw [hread] at h
            cases h
        | ok blk =>
            rw [hread] at h
            simp only at h ⊢
            cases hptr : requireInBounds g (blk.word 0) with
            | error e =>
                simp only [hptr] at h
                cases h
            | ok ptr =>
                simp only [hptr] at h
                obtain ⟨rest, hrest, h⟩ := bind_eq_ok.1 h
                cases h
                obtain ⟨used₂, hset₂⟩ := Bitmap.exists_set used₁ (hcap ptr (by simp))
                obtain ⟨used', hused⟩ :=
                  ih used₂ hrest fun b hb => hcap b (List.mem_append_left _ hb)
                simp only [hset₂]
                exact ⟨used', hused⟩
      · cases hread : d.read head with
        | error e =>
            rw [hread] at h
            cases h
        | ok blk =>
            rw [hread] at h
            obtain ⟨rest, hrest, h⟩ := bind_eq_ok.1 h
            cases h
            exact ih used₁ hrest fun b hb => hcap b (List.mem_append_left _ hb)

theorem blockCount_eq_zero {blockSize : ℕ} : blockCount size blockSize = 0 ↔ size = 0 := by
  unfold blockCount
  split_ifs with h
  · simp [h]
  · simp [h]

/-- `walk_ctz_chain` marks the blocks of its chain. -/
theorem walkCtzChain_collects (h : Alloc.walkCtzChain g d head size used = .ok used') :
    ∃ blocks, chainBlocks g d head size = .ok blocks ∧ (∀ b ∈ blocks, b < maxTrackedBlocks) ∧
      ∀ b, b ∈ used'.marked ↔ b ∈ used.marked ∨ b ∈ blocks := by
  unfold Alloc.walkCtzChain at h
  unfold chainBlocks collectChainBlocks
  by_cases hzero : size = 0
  · rw [if_pos hzero] at h
    cases h
    rw [if_pos (blockCount_eq_zero.2 hzero)]
    exact ⟨[], rfl, by simp, by simp⟩
  · rw [if_neg hzero] at h
    rw [if_neg fun h' => hzero (blockCount_eq_zero.1 h')]
    simp only at h
    split_ifs at h ⊢
    exact markChainFrom_collects h

theorem exists_walkCtzChain (used : Bitmap) (h : chainBlocks g d head size = .ok blocks)
    (hcap : ∀ b ∈ blocks, b < maxTrackedBlocks) :
    ∃ used', Alloc.walkCtzChain g d head size used = .ok used' := by
  unfold Alloc.walkCtzChain
  unfold chainBlocks collectChainBlocks at h
  by_cases hzero : size = 0
  · rw [if_pos hzero]
    exact ⟨used, rfl⟩
  · rw [if_neg fun h' => hzero (blockCount_eq_zero.1 h')] at h
    rw [if_neg hzero]
    simp only
    split_ifs at h ⊢
    exact exists_markChainFrom used h hcap

end Ctz

/-! ## Child pairs -/

theorem containsPair_iff {pairs : List BlockPair} {p : BlockPair} :
    containsPair pairs p = true ↔ ∃ q ∈ pairs, q.isSamePair p = true := by
  simp [containsPair]

theorem containsPair_of_mem {pairs : List BlockPair} {p : BlockPair} (h : p ∈ pairs) :
    containsPair pairs p = true :=
  containsPair_iff.2 ⟨p, h, BlockPair.isSamePair_self p⟩

theorem containsPair_mono {pairs pairs' : List BlockPair} {p : BlockPair} (hsub : pairs ⊆ pairs')
    (h : containsPair pairs p = true) : containsPair pairs' p = true := by
  obtain ⟨q, hq, hsame⟩ := containsPair_iff.1 h
  exact containsPair_iff.2 ⟨q, hsub hq, hsame⟩

theorem containsPair_sorted {pairs : List BlockPair} {p : BlockPair} :
    containsPair pairs p = true ↔ p.sorted ∈ pairs.map BlockPair.sorted := by
  rw [containsPair_iff, List.mem_map]
  simp [BlockPair.isSamePair]

/-- No two of the pairs are the same up to the order of their blocks. -/
def DistinctPairs (pairs : List BlockPair) : Prop := (pairs.map BlockPair.sorted).Nodup

theorem distinctPairs_concat {pairs : List BlockPair} {p : BlockPair} :
    DistinctPairs (pairs ++ [p]) ↔ DistinctPairs pairs ∧ containsPair pairs p = false := by
  rw [← Bool.not_eq_true, containsPair_sorted, DistinctPairs, DistinctPairs, List.map_append,
    List.map_singleton, List.perm_append_comm.nodup_iff, List.singleton_append, List.nodup_cons,
    and_comm]

/-- Distinct pairs are at most as many as the pairs they are among. -/
theorem DistinctPairs.length_le {pairs all : List BlockPair} (h : DistinctPairs pairs)
    (hall : ∀ p ∈ pairs, containsPair all p = true) : pairs.length ≤ all.length := by
  have hsub : pairs.map BlockPair.sorted ⊆ all.map BlockPair.sorted := by
    intro x hx
    obtain ⟨p, hp, rfl⟩ := List.mem_map.1 hx
    exact containsPair_sorted.1 (hall p hp)
  have hle := (List.Nodup.subperm h hsub).length_le
  rwa [List.length_map, List.length_map] at hle

/-- A pair whose two blocks both read as set. -/
def Bitmap.Covers (used : Bitmap) (p : BlockPair) : Prop :=
  used.isSet p.a = true ∧ used.isSet p.b = true

theorem Bitmap.Covers.mono {used used' : Bitmap} {p : BlockPair} (h : used.Covers p)
    (hle : used.Le used') : used'.Covers p :=
  ⟨hle _ h.1, hle _ h.2⟩

namespace Alloc

variable {g : Geometry} {used : Bitmap} {children children' : List BlockPair} {child : BlockPair}

/-- A child is in the device, and is collected, collected already or covered. -/
theorem collectChild_eq_ok (h : collectChild g used children child = .ok children') :
    g.pairInBounds child = true ∧
      (children' = children ∧ (used.Covers child ∨ containsPair children child = true) ∨
        children' = children ++ [child] ∧ ¬ used.Covers child ∧
          containsPair children child = false) := by
  unfold collectChild at h
  cases hbounds : g.pairInBounds child with
  | false =>
      rw [hbounds] at h
      cases h
  | true =>
      refine ⟨rfl, ?_⟩
      simp only [hbounds, Bool.not_true, Bool.false_eq_true, if_false] at h
      split_ifs at h with hnew
      · cases h
        refine .inr ⟨rfl, fun hcovers => ?_, ?_⟩
        · rw [hcovers.1, hcovers.2] at hnew
          cases hnew
        · rw [Bool.and_eq_true, Bool.not_eq_true'] at hnew
          exact hnew.2
      · cases h
        refine .inl ⟨rfl, ?_⟩
        rw [Bool.and_eq_true, Bool.not_eq_true', not_and, Bool.not_eq_false] at hnew
        by_cases hcovers : used.Covers child
        · exact .inl hcovers
        · refine .inr (hnew ?_)
          rw [Bitmap.Covers, not_and_or, Bool.not_eq_true, Bool.not_eq_true] at hcovers
          rcases hcovers with h | h <;> simp [h]

/-- A run of collected children: `refs` are the pairs offered one after the other, while the
marks grow from `used` to `used'`. -/
structure Collected (g : Geometry) (used used' : Bitmap) (children children' refs :
    List BlockPair) :
    Prop where
  le : used.Le used'
  bounds : ∀ c ∈ refs, g.pairInBounds c = true
  kept : children ⊆ children'
  sound : ∀ c ∈ children', c ∈ children ∨ c ∈ refs ∧ ¬ used.Covers c
  complete : ∀ c ∈ refs, used'.Covers c ∨ containsPair children' c = true
  distinct : DistinctPairs children → DistinctPairs children'

theorem Collected.refl {used' : Bitmap} (h : used.Le used') :
    Collected g used used' children children [] :=
  ⟨h, by simp, List.Subset.refl _, fun _ => .inl, by simp, id⟩

theorem Collected.trans {used₁ used₂ : Bitmap} {children₁ children₂ refs refs' : List BlockPair}
    (h : Collected g used used₁ children children₁ refs)
    (h' : Collected g used₁ used₂ children₁ children₂ refs') :
    Collected g used used₂ children children₂ (refs ++ refs') := by
  refine ⟨h.le.trans h'.le, ?_, List.Subset.trans h.kept h'.kept, fun c hc => ?_, ?_,
    h'.distinct ∘ h.distinct⟩
  · exact List.forall_mem_append.2 ⟨h.bounds, h'.bounds⟩
  · rw [List.mem_append]
    rcases h'.sound c hc with hc | ⟨hc, hfresh⟩
    · exact (h.sound c hc).imp_right fun hc => ⟨.inl hc.1, hc.2⟩
    · exact .inr ⟨.inr hc, fun hcovers => hfresh (hcovers.mono h.le)⟩
  · refine List.forall_mem_append.2 ⟨fun c hc => ?_, h'.complete⟩
    exact (h.complete c hc).imp (fun hcovers => hcovers.mono h'.le) (containsPair_mono h'.kept)

theorem collectChild_collected (h : collectChild g used children child = .ok children') :
    Collected g used used children children' [child] := by
  obtain ⟨hbounds, hcollect⟩ := collectChild_eq_ok h
  rcases hcollect with ⟨rfl, hold⟩ | ⟨rfl, hcovers, hnew⟩
  · exact ⟨Bitmap.Le.refl _, by simpa using hbounds, List.Subset.refl _, fun _ => .inl,
      by simpa using hold, id⟩
  · refine ⟨Bitmap.Le.refl _, by simpa using hbounds, List.subset_append_left .., fun c hc => ?_,
      ?_, fun hd => distinctPairs_concat.2 ⟨hd, hnew⟩⟩
    · rcases List.mem_append.1 hc with hc | hc
      · exact .inl hc
      · rw [List.mem_singleton.1 hc]
        exact .inr ⟨List.mem_singleton_self _, hcovers⟩
    · rw [List.forall_mem_singleton]
      exact .inr (containsPair_of_mem (by simp))

/-- A child of the device is collected as long as there is room for one more. -/
theorem exists_collectChild (hbounds : g.pairInBounds child = true)
    (hroom : ¬ used.Covers child → containsPair children child = false →
      children.length < maxQueuedPairs) :
    ∃ children', collectChild g used children child = .ok children' := by
  unfold collectChild
  simp only [hbounds, Bool.not_true, Bool.false_eq_true, if_false]
  split_ifs with hnew hfull
  · exfalso
    rw [Bool.and_eq_true, Bool.not_eq_true'] at hnew
    refine Nat.not_lt.2 hfull (hroom (fun hcovers => ?_) hnew.2)
    rw [hcovers.1, hcovers.2] at hnew
    cases hnew.1
  · exact ⟨_, rfl⟩
  · exact ⟨_, rfl⟩

end Alloc
end LittlefsPure
