import LittlefsPure.Disk.CtzIndex
import LittlefsPure.Fs.Content
import Mathlib.Data.List.GetD
import Mathlib.Data.List.Nodup

/-!
# Content laid out in a chain

`Laid g d blocks content` says that the blocks, in index order, hold the content on the
device: the pointers of each block name the earlier blocks they should, and its cells
behind the pointers hold its share of the content.  What stands behind the end of the
content is left open, so whatever an append that never came to its end has left there
does not matter.

A chain grows block by block, as long as the content fills the blocks there are; it is cut
by dropping blocks, and its last block may be exchanged for a copy.

## Why a prefix is enough

Two contents may lie in one chain at once, the committed one and a longer one that an append has
not finished.  `Laid` asks for the cells of the content and leaves the others open, so the chain
that holds the longer content holds the shorter, and what an append leaves behind it when it
fails needs no description.
-/

namespace LittlefsPure

/-- One cell of a block. -/
def Block.cell (b : Block) (p : ℕ) : Byte := b.bytes.getD p 0xFF

namespace Block

theorem word_of_cells {b b' : Block} {k : ℕ}
    (h : ∀ j < 4, b'.cell (4 * k + j) = b.cell (4 * k + j)) : b'.word k = b.word k :=
  word_congr h

/-- The words behind the first. -/
theorem word_succ (n : ℕ) (rest : List Byte) (k : ℕ) :
    (raw (le32 n ++ rest)).word (k + 1) = (raw rest).word k := by
  have hcell : ∀ j, (le32 n ++ rest).getD (4 * (k + 1) + j) 0xFF = rest.getD (4 * k + j) 0xFF := by
    intro j
    have hlen : (le32 n).length = 4 := rfl
    rw [List.getD_append_right _ _ _ _ (by rw [hlen]; omega), hlen]
    congr 1
    omega
  have h0 := hcell 0
  rw [Nat.add_zero, Nat.add_zero] at h0
  rw [word_eq, word_eq]
  show ofLe32 [(le32 n ++ rest).getD _ _, (le32 n ++ rest).getD _ _, (le32 n ++ rest).getD _ _,
    (le32 n ++ rest).getD _ _] = _
  rw [h0, hcell 1, hcell 2, hcell 3]
  rfl

/-- The words of a block that begins with them. -/
theorem word_pointers {pointers : List ℕ} (rest : List Byte) {k target : ℕ}
    (h : pointers[k]? = some target) (hlt : target < 2 ^ 32) :
    (raw (pointers.flatMap le32 ++ rest)).word k = target := by
  induction pointers generalizing k with
  | nil => cases h
  | cons p ps ih =>
      rw [List.flatMap_cons, List.append_assoc]
      cases k with
      | zero =>
          cases h
          exact word_zero_le32 hlt _
      | succ k =>
          rw [word_succ]
          exact ih h

theorem length_flatMap_le32 (pointers : List ℕ) : (pointers.flatMap le32).length =
    4 * pointers.length := by
  induction pointers with
  | nil => rfl
  | cons p ps ih =>
      have hlen : (le32 p).length = 4 := rfl
      rw [List.flatMap_cons, List.length_append, ih, hlen, List.length_cons]
      omega

end Block

namespace Ctz

/-- The bytes of the pointers of a block. -/
def headerSize (i : ℕ) : ℕ := 4 * skipPointersInBlock i

/-- The content lies in the blocks. -/
structure Laid (g : Geometry) (d : Device) (blocks : List ℕ) (content : List Byte) : Prop where
  nodup : blocks.Nodup
  inBounds : ∀ b ∈ blocks, b < g.blockCount
  pointer : ∀ i block, blocks[i]? = some block → ∀ k < skipPointersInBlock i, ∃ target,
    blocks[i - 2 ^ k]? = some target ∧ (d.get block).word k = target
  stored : ∀ i block, blocks[i]? = some block → ∀ p < contentBytesInBlock i g.blockSize, ∀ byte,
    content[capacityBelow g.blockSize i + p]? = some byte →
      (d.get block).cell (headerSize i + p) = byte
  fits : content.length ≤ capacityBelow g.blockSize blocks.length

/-! ## The image of a new block -/

section Image

variable {g : Geometry} {chain : List ℕ} {i : ℕ} {rest : List Byte}

theorem chainImage_eq : chainImage g chain i rest =
    ((List.range (skipPointersInBlock i)).map fun k => chain.getD (i - 2 ^ k) 0).flatMap le32 ++
      rest.take (contentBytesInBlock i g.blockSize) := by
  rw [chainImage, List.flatMap_map]
  rfl

theorem chainImage_word {k target : ℕ} (hk : k < skipPointersInBlock i)
    (htarget : chain[i - 2 ^ k]? = some target) (hlt : target < 2 ^ 32) :
    (Block.raw (chainImage g chain i rest)).word k = target := by
  rw [chainImage_eq]
  refine Block.word_pointers _ ?_ hlt
  rw [List.getElem?_map, List.getElem?_range hk, Option.map_some, List.getD_eq_getElem?_getD,
    htarget]
  rfl

theorem chainImage_cell (p : ℕ) :
    (Block.raw (chainImage g chain i rest)).cell (headerSize i + p) =
      (rest.take (contentBytesInBlock i g.blockSize)).getD p 0xFF := by
  rw [chainImage_eq]
  have hlen : (((List.range (skipPointersInBlock i)).map
      fun k => chain.getD (i - 2 ^ k) 0).flatMap le32).length = headerSize i := by
    rw [Block.length_flatMap_le32, List.length_map, List.length_range]
    rfl
  show List.getD (_ ++ _) (headerSize i + p) 0xFF = _
  rw [List.getD_append_right _ _ _ _ (by omega), hlen, Nat.add_sub_cancel_left]

end Image

namespace Laid

variable {g : Geometry} {d d' : Device} {blocks : List ℕ} {content : List Byte}

/-- A position of a list with one more block behind. -/
theorem concat_cases {blocks : List ℕ} {b i block : ℕ} (hb : (blocks ++ [b])[i]? = some block) :
    (i < blocks.length ∧ blocks[i]? = some block) ∨ (i = blocks.length ∧ block = b) := by
  have hlt := (List.getElem?_eq_some_iff.1 hb).1
  rw [List.length_append, List.length_singleton] at hlt
  by_cases hi : i < blocks.length
  · rw [List.getElem?_append_left hi] at hb
    exact .inl ⟨hi, hb⟩
  · obtain rfl : i = blocks.length := by omega
    rw [List.getElem?_concat_length] at hb
    exact .inr ⟨rfl, (Option.some.inj hb).symm⟩

/-- No blocks, no content. -/
theorem nil (g : Geometry) (d : Device) : Laid g d [] [] :=
  ⟨List.nodup_nil, fun _ h => absurd h List.not_mem_nil, fun _ _ h => (by cases h),
    fun _ _ h => (by cases h), Nat.le_refl _⟩

/-- Only the pointers and the cells below the end of the content matter. -/
theorem congr (h : Laid g d blocks content)
    (hsame : ∀ i block, blocks[i]? = some block →
      ∀ p < headerSize i + (content.length - capacityBelow g.blockSize i),
        (d'.get block).cell p = (d.get block).cell p) : Laid g d' blocks content where
  nodup := h.nodup
  inBounds := h.inBounds
  pointer i block hb k hk := by
    obtain ⟨target, htarget, hword⟩ := h.pointer i block hb k hk
    refine ⟨target, htarget, ?_⟩
    rw [← hword]
    refine Block.word_of_cells fun j hj => hsame i block hb _ ?_
    rw [headerSize]
    omega
  stored i block hb p hp byte hbyte := by
    have hlt : capacityBelow g.blockSize i + p < content.length :=
      (List.getElem?_eq_some_iff.1 hbyte).1
    rw [hsame i block hb _ (by omega)]
    exact h.stored i block hb p hp byte hbyte
  fits := h.fits

/-- A device that agrees on the blocks. -/
theorem same (h : Laid g d blocks content) (hsame : ∀ b ∈ blocks, d'.get b = d.get b) :
    Laid g d' blocks content := by
  refine h.congr fun i block hb p _ => ?_
  rw [hsame block (List.mem_of_getElem? hb)]

/-- A block more, when those there are are full. -/
theorem snoc (h : Laid g d blocks content)
    (hfull : content.length = capacityBelow g.blockSize blocks.length) {b : ℕ} (hnew : b ∉ blocks)
    (hbound : b < g.blockCount) (hcount : g.blockCount ≤ 2 ^ 32) {chain : List ℕ}
    (hchain : ∀ i < blocks.length, chain[i]? = blocks[i]?) {rest : List Byte}
    (himage : d.get b = .raw (chainImage g chain blocks.length rest)) :
    Laid g d (blocks ++ [b])
      (content ++ rest.take (contentBytesInBlock blocks.length g.blockSize)) := by
  refine ⟨?_, ?_, ?_, ?_, ?_⟩
  · rw [List.nodup_append]
    refine ⟨h.nodup, List.nodup_singleton b, fun x hx y hy hxy => hnew ?_⟩
    rw [← List.mem_singleton.1 hy, ← hxy]
    exact hx
  · intro x hx
    rcases List.mem_append.1 hx with hx | hx
    · exact h.inBounds x hx
    · rw [List.mem_singleton.1 hx]
      exact hbound
  · intro i block hb k hk
    rcases concat_cases hb with ⟨hi, hb⟩ | ⟨rfl, rfl⟩
    · obtain ⟨target, htarget, hword⟩ := h.pointer i block hb k hk
      have hlt := (List.getElem?_eq_some_iff.1 htarget).1
      exact ⟨target, by rw [List.getElem?_append_left hlt, htarget], hword⟩
    · -- the new block points below itself
      have hpos : blocks.length ≠ 0 := by
        intro hzero
        rw [hzero, skipPointersInBlock, if_pos rfl] at hk
        exact absurd hk (Nat.not_lt_zero k)
      have hpow : 0 < 2 ^ k := Nat.two_pow_pos k
      have hlt : blocks.length - 2 ^ k < blocks.length := by omega
      obtain ⟨target, htarget⟩ : ∃ target, blocks[blocks.length - 2 ^ k]? = some target :=
        ⟨_, List.getElem?_eq_getElem hlt⟩
      have hsmall : target < 2 ^ 32 :=
        Nat.lt_of_lt_of_le (h.inBounds target (List.mem_of_getElem? htarget)) hcount
      refine ⟨target, by rw [List.getElem?_append_left hlt, htarget], ?_⟩
      rw [himage]
      exact chainImage_word hk ((hchain _ hlt).trans htarget) hsmall
  · intro i block hb p hp byte hbyte
    rcases concat_cases hb with ⟨hi, hb⟩ | ⟨rfl, rfl⟩
    · have hmono := @capacityBelow_mono g.blockSize _ _ (Nat.succ_le_of_lt hi)
      rw [capacityBelow] at hmono
      rw [List.getElem?_append_left (by omega)] at hbyte
      exact h.stored i block hb p hp byte hbyte
    · rw [List.getElem?_append_right (by omega), hfull, Nat.add_sub_cancel_left] at hbyte
      rw [himage, chainImage_cell, List.getD_eq_getElem?_getD, hbyte]
      rfl
  · rw [List.length_append, List.length_append, List.length_singleton, capacityBelow, hfull,
      List.length_take]
    omega

/-- The first blocks, with content that lies in them. -/
theorem take (h : Laid g d blocks content) {m n : ℕ}
    (hn : n ≤ capacityBelow g.blockSize m) : Laid g d (blocks.take m) (content.take n) := by
  have hsub : ∀ i block, (blocks.take m)[i]? = some block → i < m ∧ blocks[i]? = some block := by
    intro i block hb
    rw [List.getElem?_take] at hb
    split_ifs at hb with hi
    exact ⟨hi, hb⟩
  refine ⟨h.nodup.sublist (List.take_sublist _ _),
    fun b hb => h.inBounds b (List.mem_of_mem_take hb), ?_, ?_, ?_⟩
  · intro i block hb k hk
    obtain ⟨hi, hb⟩ := hsub i block hb
    obtain ⟨target, htarget, hword⟩ := h.pointer i block hb k hk
    have hlt : i - 2 ^ k < m := Nat.lt_of_le_of_lt (Nat.sub_le _ _) hi
    exact ⟨target, by rw [List.getElem?_take_of_lt hlt, htarget], hword⟩
  · intro i block hb p hp byte hbyte
    rw [List.getElem?_take] at hbyte
    split_ifs at hbyte with hlt
    exact h.stored i block (hsub i block hb).2 p hp byte hbyte
  · have hfits := h.fits
    rw [List.length_take, List.length_take]
    rcases Nat.le_total m blocks.length with hm | hm
    · rw [Nat.min_eq_left hm]
      exact Nat.le_trans (Nat.min_le_left _ _) hn
    · rw [Nat.min_eq_right hm]
      exact Nat.le_trans (Nat.min_le_right _ _) hfits

/-- A copy of the last block in its place. -/
theorem replaceLast {a b : ℕ} (h : Laid g d (blocks ++ [a]) content) (hnew : b ∉ blocks)
    (hbound : b < g.blockCount)
    (hcopy : ∀ p < headerSize blocks.length +
        (content.length - capacityBelow g.blockSize blocks.length),
      (d.get b).cell p = (d.get a).cell p) : Laid g d (blocks ++ [b]) content := by
  have hlast : (blocks ++ [a])[blocks.length]? = some a := List.getElem?_concat_length ..
  refine ⟨?_, ?_, ?_, ?_, ?_⟩
  · have hnodup := (List.nodup_append.1 h.nodup).1
    rw [List.nodup_append]
    refine ⟨hnodup, List.nodup_singleton b, fun x hx y hy hxy => hnew ?_⟩
    rw [← List.mem_singleton.1 hy, ← hxy]
    exact hx
  · intro x hx
    rcases List.mem_append.1 hx with hx | hx
    · exact h.inBounds x (List.mem_append_left _ hx)
    · rw [List.mem_singleton.1 hx]
      exact hbound
  · intro i block hb k hk
    have hbelow : ∀ target, (blocks ++ [a])[i - 2 ^ k]? = some target → i ≤ blocks.length →
        i ≠ 0 → (blocks ++ [b])[i - 2 ^ k]? = some target := by
      intro target htarget hi hpos
      have hpow : 0 < 2 ^ k := Nat.two_pow_pos k
      have hlt : i - 2 ^ k < blocks.length := by omega
      rw [List.getElem?_append_left hlt] at htarget ⊢
      exact htarget
    have hpos : i ≠ 0 := by
      rintro rfl
      rw [skipPointersInBlock, if_pos rfl] at hk
      exact absurd hk (Nat.not_lt_zero k)
    rcases concat_cases hb with ⟨hi, hb⟩ | ⟨rfl, rfl⟩
    · have hb' : (blocks ++ [a])[i]? = some block := by
        rw [List.getElem?_append_left hi]
        exact hb
      obtain ⟨target, htarget, hword⟩ := h.pointer i block hb' k hk
      exact ⟨target, hbelow target htarget (Nat.le_of_lt hi) hpos, hword⟩
    · obtain ⟨target, htarget, hword⟩ := h.pointer _ a hlast k hk
      refine ⟨target, hbelow target htarget (Nat.le_refl _) hpos, ?_⟩
      rw [← hword]
      refine Block.word_of_cells fun j hj => hcopy _ ?_
      rw [headerSize]
      omega
  · intro i block hb p hp byte hbyte
    rcases concat_cases hb with ⟨hi, hb⟩ | ⟨rfl, rfl⟩
    · have hb' : (blocks ++ [a])[i]? = some block := by
        rw [List.getElem?_append_left hi]
        exact hb
      exact h.stored i block hb' p hp byte hbyte
    · have hlt := (List.getElem?_eq_some_iff.1 hbyte).1
      rw [hcopy _ (by omega)]
      exact h.stored _ a hlast p hp byte hbyte
  · have hfits := h.fits
    rw [List.length_append, List.length_singleton] at hfits ⊢
    exact hfits

/-- More content in the last block. -/
theorem fill {a : ℕ} {more : List Byte} (h : Laid g d (blocks ++ [a]) content)
    (hlast : capacityBelow g.blockSize blocks.length ≤ content.length)
    (hroom : content.length + more.length ≤ capacityBelow g.blockSize (blocks.length + 1))
    (hmore : ∀ p byte, more[p]? = some byte → (d.get a).cell (headerSize blocks.length +
      (content.length - capacityBelow g.blockSize blocks.length) + p) = byte) :
    Laid g d (blocks ++ [a]) (content ++ more) := by
  refine ⟨h.nodup, h.inBounds, h.pointer, ?_, ?_⟩
  · intro i block hb p hp byte hbyte
    by_cases hold : capacityBelow g.blockSize i + p < content.length
    · rw [List.getElem?_append_left hold] at hbyte
      exact h.stored i block hb p hp byte hbyte
    · rw [List.getElem?_append_right (by omega)] at hbyte
      rcases concat_cases hb with ⟨hi, -⟩ | ⟨rfl, rfl⟩
      · have hmono := @capacityBelow_mono g.blockSize _ _ (Nat.succ_le_of_lt hi)
        rw [capacityBelow] at hmono
        omega
      · have hcell := hmore _ byte hbyte
        rw [← hcell]
        congr 1
        omega
  · rw [List.length_append, List.length_append, List.length_singleton]
    exact hroom

/-- Many blocks more, each with the image that `chainImage` gives it. -/
theorem append {news : List ℕ} {rest : List Byte} (h : Laid g d blocks content)
    (hcount : g.blockCount ≤ 2 ^ 32)
    (hfull : rest = [] ∨ content.length = capacityBelow g.blockSize blocks.length)
    {chain : List ℕ} (hchain : chain = blocks ++ news) (hnodup : chain.Nodup)
    (hbound : ∀ b ∈ news, b < g.blockCount)
    (himage : ∀ j b, news[j]? = some b → d.get b = .raw (chainImage g chain (blocks.length + j)
      (rest.drop (capacityBelow g.blockSize (blocks.length + j) -
        capacityBelow g.blockSize blocks.length))))
    (hroom : content.length + rest.length ≤ capacityBelow g.blockSize chain.length)
    (hneed : news = [] ∨
      capacityBelow g.blockSize (chain.length - 1) < content.length + rest.length) :
    Laid g d chain (content ++ rest) := by
  induction news generalizing blocks content rest with
  | nil =>
      rw [List.append_nil] at hchain
      subst hchain
      have hrest : rest = [] := by
        rcases hfull with hfull | hfull
        · exact hfull
        · exact List.eq_nil_of_length_eq_zero (by omega)
      rw [hrest, List.append_nil]
      exact h
  | cons b news ih =>
      have hlen : chain.length = blocks.length + (news.length + 1) := by
        rw [hchain, List.length_append, List.length_cons]
      have hneed' := hneed.resolve_left (List.cons_ne_nil _ _)
      have hfull' : content.length = capacityBelow g.blockSize blocks.length := by
        rcases hfull with rfl | hfull
        · have hfits := h.fits
          have hmono := @capacityBelow_mono g.blockSize blocks.length (chain.length - 1) (by omega)
          rw [List.length_nil, Nat.add_zero] at hneed'
          omega
        · exact hfull
      have hsplit : chain = (blocks ++ [b]) ++ news := by
        rw [hchain, List.append_assoc, List.singleton_append]
      have hfresh : b ∉ blocks := by
        intro hmem
        rw [hchain, List.nodup_append] at hnodup
        exact hnodup.2.2 b hmem b (List.mem_cons_self ..) rfl
      have hfirst : d.get b = .raw (chainImage g chain blocks.length rest) := by
        have himage₀ := himage 0 b rfl
        rw [Nat.add_zero, Nat.sub_self, List.drop_zero] at himage₀
        exact himage₀
      have hsnoc := h.snoc hfull' hfresh (hbound b (List.mem_cons_self ..)) hcount
        (fun i hi => by rw [hchain, List.getElem?_append_left hi]) hfirst
      -- the share of the block, and what is left for the others
      set cap := contentBytesInBlock blocks.length g.blockSize with hcap
      have hnext : capacityBelow g.blockSize (blocks ++ [b]).length =
          capacityBelow g.blockSize blocks.length + cap := by
        rw [List.length_append, List.length_singleton, capacityBelow]
      have hsum : (content ++ rest.take cap).length + (rest.drop cap).length =
          content.length + rest.length := by
        rw [List.length_append, List.length_take, List.length_drop]
        omega
      have hfullNext : rest.drop cap = [] ∨ (content ++ rest.take cap).length =
          capacityBelow g.blockSize (blocks ++ [b]).length := by
        by_cases hmore : cap ≤ rest.length
        · refine .inr ?_
          rw [hnext, List.length_append, List.length_take, Nat.min_eq_left hmore, hfull']
        · exact .inl (List.drop_eq_nil_of_le (Nat.le_of_not_le hmore))
      have himageNext : ∀ j x, news[j]? = some x → d.get x = .raw (chainImage g chain
          ((blocks ++ [b]).length + j) ((rest.drop cap).drop
            (capacityBelow g.blockSize ((blocks ++ [b]).length + j) -
              capacityBelow g.blockSize (blocks ++ [b]).length))) := by
        intro j x hx
        have himage' := himage (j + 1) x hx
        have hindex : blocks.length + (j + 1) = (blocks ++ [b]).length + j := by
          rw [List.length_append, List.length_singleton]
          omega
        have hmono := @capacityBelow_mono g.blockSize (blocks ++ [b]).length
          ((blocks ++ [b]).length + j) (Nat.le_add_right _ _)
        rw [hindex] at himage'
        rw [himage', List.drop_drop]
        congr 3
        omega
      have hrest := ih hsnoc hfullNext hsplit (fun x hx => hbound x (List.mem_cons_of_mem _ hx))
        himageNext (by rw [hsum]; exact hroom) (by rw [hsum]; exact .inr hneed')
      rw [List.append_assoc, List.take_append_drop] at hrest
      exact hrest

end Laid
end Ctz
end LittlefsPure
