import LittlefsPure.Disk.Alloc
import LittlefsPure.Logic.Except

/-!
# Chains on the device

A chain is read from its head down.  `Descends d index blocks` says that `blocks`,
head first, are linked the way the traversals follow them: each block's first word
names the next, and in a block of even index the second word names the one behind
it.  The list may stop before index zero; it is then the upper part of a chain.

The three traversals agree with it, and only the two words of the linked blocks
matter, so a device change that leaves these alone keeps the chain.

## Why the words and not the blocks

A chain is shared.  The old content of a file stays readable while an append programs new blocks
with pointers into it, and a tail block is filled up while it hangs in two chains.  A statement
that fixes the blocks of a chain byte for byte would be broken by either.  The traversals read
only the pointer words, so `Descends` speaks of these and is kept by whatever leaves them alone;
what the blocks hold behind the pointers is the business of `Chain.Laid`.
-/

namespace LittlefsPure

open Logic

/-! ## Bitmaps -/

namespace Bitmap

/-- Every block marked in the first is marked in the second. -/
def Le (m m' : Bitmap) : Prop := ∀ b, m.isSet b = true → m'.isSet b = true

theorem Le.refl (m : Bitmap) : m.Le m := fun _ => id

theorem Le.trans {m₁ m₂ m₃ : Bitmap} (h : m₁.Le m₂) (h' : m₂.Le m₃) : m₁.Le m₃ :=
  fun b hb => h' b (h b hb)

theorem isSet_iff {m : Bitmap} {b : ℕ} : m.isSet b = true ↔
    maxTrackedBlocks ≤ b ∨ b ∈ m.marked := by
  simp [isSet]

theorem cons_le (m : Bitmap) (b : ℕ) : m.Le ⟨b :: m.marked⟩ := by
  intro x hx
  rw [isSet_iff] at hx ⊢
  exact hx.imp_right (List.mem_cons_of_mem _)

theorem set_eq_ok {m m' : Bitmap} {b : ℕ} (h : m.set b = .ok m') :
    m.Le m' ∧ m'.isSet b = true := by
  unfold set at h
  by_cases hcap : maxTrackedBlocks ≤ b
  · rw [if_pos hcap] at h
    cases h
  · rw [if_neg hcap] at h
    cases h
    split_ifs with hmem
    · exact ⟨Le.refl m, isSet_iff.2 (.inr hmem)⟩
    · exact ⟨cons_le m b, isSet_iff.2 (.inr (List.mem_cons_self ..))⟩

end Bitmap

namespace Ctz

theorem requireInBounds_eq_ok {g : Geometry} {b c : ℕ} :
    requireInBounds g b = .ok c ↔ b < g.blockCount ∧ c = b := by
  unfold requireInBounds
  split_ifs with h
  · constructor
    · intro hc
      cases hc
      exact ⟨h, rfl⟩
    · rintro ⟨-, rfl⟩
      rfl
  · exact ⟨nofun, fun hc => absurd hc.1 h⟩

/-! ## Linked blocks -/

/-- The links of one block to the blocks behind it. -/
structure Links (d : Device) (index block : ℕ) (rest : List ℕ) : Prop where
  next : ∀ c, rest[0]? = some c → (d.get block).word 0 = c
  skip : index % 2 = 0 → ∀ c, rest[1]? = some c → (d.get block).word 1 = c

/-- Blocks linked from index `index` down, the head first. -/
def Descends (d : Device) : ℕ → List ℕ → Prop
  | _, [] => True
  | index, block :: rest => Links d index block rest ∧ Descends d (index - 1) rest

/-- The same words at the start of a block. -/
def SameLinks (d d' : Device) (block : ℕ) : Prop :=
  (d'.get block).word 0 = (d.get block).word 0 ∧ (d'.get block).word 1 = (d.get block).word 1

theorem Descends.congr {d d' : Device} {index : ℕ} {blocks : List ℕ} (h : Descends d index blocks)
    (hsame : ∀ b ∈ blocks, SameLinks d d' b) : Descends d' index blocks := by
  induction blocks generalizing index with
  | nil => exact True.intro
  | cons block rest ih =>
      obtain ⟨⟨hnext, hskip⟩, hrest⟩ := h
      obtain ⟨h0, h1⟩ := hsame block (List.mem_cons_self ..)
      refine ⟨⟨fun c hc => ?_, fun heven c hc => ?_⟩, ih hrest fun b hb =>
        hsame b (List.mem_cons_of_mem _ hb)⟩
      · rw [h0]
        exact hnext c hc
      · rw [h1]
        exact hskip heven c hc

theorem Descends.drop {d : Device} {index : ℕ} {blocks : List ℕ} (h : Descends d index blocks)
    (k : ℕ) : Descends d (index - k) (blocks.drop k) := by
  induction k generalizing index blocks with
  | zero => exact h
  | succ k ih =>
      cases blocks with
      | nil => exact True.intro
      | cons block rest =>
          have hrest := ih h.2
          rw [Nat.sub_sub, Nat.add_comm 1 k] at hrest
          exact hrest

/-! ## The traversals -/

/-- One block of the marking walk. -/
theorem markChainFrom_eq_ok {g : Geometry} {d : Device} {fuel head index : ℕ}
    {used used' : Bitmap} (h : Alloc.markChainFrom g d (fuel + 1) head index used = .ok used') :
    ∃ used₁, used.set head = .ok used₁ ∧
      (index = 0 ∧ used' = used₁ ∨
        (index ≠ 0 ∧ index % 2 = 0 ∧ ∃ used₂, used₁.set ((d.get head).word 0) = .ok used₂ ∧
          Alloc.markChainFrom g d fuel ((d.get head).word 1) (index - 2) used₂ = .ok used') ∨
        index % 2 = 1 ∧
          Alloc.markChainFrom g d fuel ((d.get head).word 0) (index - 1) used₁ = .ok used') := by
  rw [Alloc.markChainFrom, bind_eq_ok] at h
  obtain ⟨c, hc, h⟩ := h
  obtain ⟨-, rfl⟩ := requireInBounds_eq_ok.1 hc
  rw [bind_eq_ok] at h
  obtain ⟨used₁, hset, h⟩ := h
  refine ⟨used₁, hset, ?_⟩
  by_cases hzero : index = 0
  · rw [if_pos hzero] at h
    cases h
    exact .inl ⟨hzero, rfl⟩
  rw [if_neg hzero, bind_eq_ok] at h
  obtain ⟨b, hread, h⟩ := h
  obtain ⟨-, rfl⟩ := Device.read_eq_ok.1 hread
  by_cases heven : index % 2 = 0
  · rw [if_pos heven, bind_eq_ok] at h
    obtain ⟨ptr, hptr, h⟩ := h
    obtain ⟨-, rfl⟩ := requireInBounds_eq_ok.1 hptr
    rw [bind_eq_ok] at h
    exact .inr (.inl ⟨hzero, heven, h⟩)
  · rw [if_neg heven] at h
    exact .inr (.inr ⟨Nat.mod_two_ne_zero.1 heven, h⟩)

theorem markChainFrom_le {g : Geometry} {d : Device} {fuel head index : ℕ} {used used' : Bitmap}
    (h : Alloc.markChainFrom g d fuel head index used = .ok used') :
    used.Le used' ∧ used'.isSet head = true := by
  induction fuel generalizing head index used with
  | zero => cases h
  | succ fuel ih =>
      obtain ⟨used₁, hset, hstep⟩ := markChainFrom_eq_ok h
      obtain ⟨hle, hmark⟩ := Bitmap.set_eq_ok hset
      rcases hstep with ⟨-, rfl⟩ | ⟨-, -, used₂, hset₂, hrest⟩ | ⟨-, hrest⟩
      · exact ⟨hle, hmark⟩
      · have hle₂ := (Bitmap.set_eq_ok hset₂).1.trans (ih hrest).1
        exact ⟨hle.trans hle₂, hle₂ _ hmark⟩
      · have hle₁ := (ih hrest).1
        exact ⟨hle.trans hle₁, hle₁ _ hmark⟩

/-- The marking walk marks every block of the upper part it descends through. -/
theorem markChainFrom_marks {g : Geometry} {d : Device} {fuel head index : ℕ} {rest : List ℕ}
    {used used' : Bitmap} (hlinks : Descends d index (head :: rest)) (hlen : rest.length ≤ index)
    (h : Alloc.markChainFrom g d fuel head index used = .ok used') :
    ∀ b ∈ head :: rest, used'.isSet b = true := by
  induction fuel generalizing head index rest used with
  | zero => cases h
  | succ fuel ih =>
      have hhead := (markChainFrom_le h).2
      obtain ⟨⟨hnext, hskip⟩, hbelow⟩ := hlinks
      cases rest with
      | nil =>
          intro b hb
          rw [List.mem_singleton.1 hb]
          exact hhead
      | cons c rest =>
          have hc := hnext c rfl
          rw [List.length_cons] at hlen
          rw [List.forall_mem_cons]
          refine ⟨hhead, ?_⟩
          obtain ⟨used₁, -, hstep⟩ := markChainFrom_eq_ok h
          rcases hstep with ⟨hzero, -⟩ | ⟨-, heven, used₂, hset₂, hrest⟩ | ⟨-, hrest⟩
          · omega
          · -- an even index: the next block is marked in passing, the one behind it is visited
            have hmark := (markChainFrom_le hrest).1 _ (Bitmap.set_eq_ok hset₂).2
            rw [hc] at hmark
            rw [List.forall_mem_cons]
            refine ⟨hmark, ?_⟩
            cases rest with
            | nil => exact nofun
            | cons e rest =>
                rw [List.length_cons] at hlen
                rw [hskip heven e rfl] at hrest
                exact ih hbelow.2 (by omega) hrest
          · rw [hc] at hrest
            exact ih hbelow (by omega) hrest

theorem walkCtzChain_le {g : Geometry} {d : Device} {head size : ℕ} {used used' : Bitmap}
    (h : Alloc.walkCtzChain g d head size used = .ok used') : used.Le used' := by
  unfold Alloc.walkCtzChain at h
  by_cases hzero : size = 0
  · rw [if_pos hzero] at h
    cases h
    exact Bitmap.Le.refl used
  · simp only [if_neg hzero] at h
    split_ifs at h
    exact (markChainFrom_le h).1

/-- `walk_ctz_chain` marks the upper part of its chain, as far as it is linked. -/
theorem walkCtzChain_marks {g : Geometry} {d : Device} {head size : ℕ} {rest : List ℕ}
    {used used' : Bitmap} (hlinks : Descends d (blockCount size g.blockSize - 1) (head :: rest))
    (hlen : (head :: rest).length ≤ blockCount size g.blockSize)
    (h : Alloc.walkCtzChain g d head size used = .ok used') :
    ∀ b ∈ head :: rest, used'.isSet b = true := by
  rw [List.length_cons] at hlen
  unfold Alloc.walkCtzChain at h
  by_cases hzero : size = 0
  · rw [hzero] at hlen
    simp [blockCount] at hlen
  · simp only [if_neg hzero] at h
    split_ifs at h
    exact markChainFrom_marks hlinks (by omega) h

/-- One block of the collecting walk. -/
theorem collectFrom_eq_ok {g : Geometry} {d : Device} {fuel head index : ℕ} {blocks : List ℕ}
    (h : collectFrom g d (fuel + 1) head index = .ok blocks) :
    head < g.blockCount ∧
      (index = 0 ∧ blocks = [head] ∨
        (index ≠ 0 ∧ index % 2 = 0 ∧ (d.get head).word 0 < g.blockCount ∧
          ∃ rest, collectFrom g d fuel ((d.get head).word 1) (index - 2) = .ok rest ∧
            blocks = rest ++ [(d.get head).word 0, head]) ∨
        index % 2 = 1 ∧
          ∃ rest, collectFrom g d fuel ((d.get head).word 0) (index - 1) = .ok rest ∧
            blocks = rest ++ [head]) := by
  rw [collectFrom, bind_eq_ok] at h
  obtain ⟨c, hc, h⟩ := h
  obtain ⟨hbound, rfl⟩ := requireInBounds_eq_ok.1 hc
  refine ⟨hbound, ?_⟩
  by_cases hzero : index = 0
  · rw [if_pos hzero] at h
    cases h
    exact .inl ⟨hzero, rfl⟩
  rw [if_neg hzero, bind_eq_ok] at h
  obtain ⟨b, hread, h⟩ := h
  obtain ⟨-, rfl⟩ := Device.read_eq_ok.1 hread
  by_cases heven : index % 2 = 0
  · rw [if_pos heven, bind_eq_ok] at h
    obtain ⟨ptr, hptr, h⟩ := h
    obtain ⟨hin, rfl⟩ := requireInBounds_eq_ok.1 hptr
    rw [bind_eq_ok] at h
    obtain ⟨rest, hrest, h⟩ := h
    cases h
    exact .inr (.inl ⟨hzero, heven, hin, rest, hrest, rfl⟩)
  · rw [if_neg heven, bind_eq_ok] at h
    obtain ⟨rest, hrest, h⟩ := h
    cases h
    exact .inr (.inr ⟨Nat.mod_two_ne_zero.1 heven, rest, hrest, rfl⟩)

theorem collectFrom_length {g : Geometry} {d : Device} {fuel head index : ℕ} {blocks : List ℕ}
    (h : collectFrom g d fuel head index = .ok blocks) : blocks.length = index + 1 := by
  induction fuel generalizing head index blocks with
  | zero => cases h
  | succ fuel ih =>
      obtain ⟨-, hstep⟩ := collectFrom_eq_ok h
      rcases hstep with ⟨rfl, rfl⟩ | ⟨hzero, heven, -, rest, hrest, rfl⟩ | ⟨hodd, rest, hrest, rfl⟩
      · rfl
      · have hlen := ih hrest
        simp only [List.length_append, List.length_cons, List.length_nil]
        omega
      · have hlen := ih hrest
        simp only [List.length_append, List.length_cons, List.length_nil]
        omega

/-- The collecting walk finds blocks of the device. -/
theorem collectFrom_inBounds {g : Geometry} {d : Device} {fuel head index : ℕ} {blocks : List ℕ}
    (h : collectFrom g d fuel head index = .ok blocks) : ∀ b ∈ blocks, b < g.blockCount := by
  induction fuel generalizing head index blocks with
  | zero => cases h
  | succ fuel ih =>
      obtain ⟨hhead, hstep⟩ := collectFrom_eq_ok h
      rcases hstep with ⟨-, rfl⟩ | ⟨-, -, hptr, rest, hrest, rfl⟩ | ⟨-, rest, hrest, rfl⟩
      · simpa using hhead
      · simpa [or_imp, forall_and, hhead, hptr] using ih hrest
      · simpa [or_imp, forall_and, hhead] using ih hrest

/-- The collecting walk finds the blocks of the upper part it descends through. -/
theorem collectFrom_prefix {g : Geometry} {d : Device} {fuel head index : ℕ} {rest blocks : List ℕ}
    (hlinks : Descends d index (head :: rest)) (hlen : rest.length ≤ index)
    (h : collectFrom g d fuel head index = .ok blocks) : (head :: rest) <+: blocks.reverse := by
  induction fuel generalizing head index rest blocks with
  | zero => cases h
  | succ fuel ih =>
      obtain ⟨-, hstep⟩ := collectFrom_eq_ok h
      obtain ⟨⟨hnext, hskip⟩, hbelow⟩ := hlinks
      rcases hstep with ⟨rfl, rfl⟩ | ⟨-, heven, -, more, hmore, rfl⟩ | ⟨-, more, hmore, rfl⟩
      · rw [List.eq_nil_of_length_eq_zero (Nat.le_zero.1 hlen)]
        exact List.prefix_refl _
      · rw [List.reverse_append]
        change head :: rest <+: head :: (d.get head).word 0 :: more.reverse
        rw [List.prefix_cons_inj]
        cases rest with
        | nil => exact List.nil_prefix
        | cons c rest =>
            rw [hnext c rfl, List.prefix_cons_inj]
            rw [List.length_cons] at hlen
            cases rest with
            | nil => exact List.nil_prefix
            | cons e rest =>
                rw [List.length_cons] at hlen
                rw [hskip heven e rfl] at hmore
                exact ih hbelow.2 (by omega) hmore
      · rw [List.reverse_append]
        change head :: rest <+: head :: more.reverse
        rw [List.prefix_cons_inj]
        cases rest with
        | nil => exact List.nil_prefix
        | cons c rest =>
            rw [List.length_cons] at hlen
            rw [hnext c rfl] at hmore
            exact ih hbelow (by omega) hmore

/-! ## A descent by one block -/

theorem seekBlock_self {g : Geometry} {d : Device} {head index block : ℕ}
    (h : seekBlock g d head index index = .ok block) : block = head := by
  unfold seekBlock at h
  rw [if_neg (Nat.lt_irrefl _), bind_eq_ok] at h
  obtain ⟨c, hc, h⟩ := h
  obtain ⟨-, rfl⟩ := requireInBounds_eq_ok.1 hc
  cases index with
  | zero =>
      cases h
      rfl
  | succ index =>
      rw [seekFrom, if_neg (Nat.lt_irrefl _)] at h
      cases h
      rfl

theorem seekBlock_pred {g : Geometry} {d : Device} {head index block : ℕ}
    (h : seekBlock g d head (index + 1) index = .ok block) : block = (d.get head).word 0 := by
  unfold seekBlock at h
  rw [if_neg (by omega), bind_eq_ok] at h
  obtain ⟨c, hc, h⟩ := h
  obtain ⟨-, rfl⟩ := requireInBounds_eq_ok.1 hc
  have hhop : min (Nat.log2 (index + 1 - index)) (trailingZeros 32 (index + 1)) = 0 := by
    rw [Nat.add_sub_cancel_left]
    exact Nat.zero_min _
  rw [seekFrom, if_pos (Nat.lt_succ_self _)] at h
  simp only [hhop] at h
  rw [bind_eq_ok] at h
  obtain ⟨b, hread, h⟩ := h
  obtain ⟨-, rfl⟩ := Device.read_eq_ok.1 hread
  rw [bind_eq_ok] at h
  obtain ⟨next, hnext, h⟩ := h
  obtain ⟨-, rfl⟩ := requireInBounds_eq_ok.1 hnext
  have hdone : ¬ index < index + 1 - 2 ^ 0 := by omega
  cases index with
  | zero =>
      cases h
      rfl
  | succ index =>
      rw [seekFrom, if_neg hdone] at h
      cases h
      rfl

end Ctz
end LittlefsPure
