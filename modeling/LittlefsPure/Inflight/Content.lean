import Mathlib.Data.List.GetD
import Mathlib.Data.List.Nodup
import LittlefsPure.Disk.CtzIndex
import LittlefsPure.Inflight.Commit

/-!
# Blocks in flight and file content

A chain that is built or extended is in flight until its entry names it.  Its blocks
in flight are the upper part of the chain, so a rescan that walks the chain finds
them: each new block is written with pointers to the two blocks below it, and a copy
of an old tail keeps the pointers of the original.

## Why the head is enough

A rescan is given one chain, by its head and size, beside the list of excluded blocks.  The blocks
of a chain under construction are reached from the topmost one that has been written.  So an
operation hands over the head that it has just written, and everything below it is found by the
walk; the block that is about to be written is excluded by name.
-/

namespace LittlefsPure

open FsM Logic

variable {g : Geometry}

/-! ## Pointers -/

namespace Ctz

/-- Pointers in front of some content, at least as many as the block has. -/
theorem links_of_pointers {d : Device} {block i : ℕ} {rest pointers : List ℕ} {content : List Byte}
    (hcontent : d.get block = .raw (pointers.flatMap le32 ++ content))
    (hcount : pointers.length = skipPointersInBlock i) (hrest : rest.length ≤ i)
    (hword : ∀ c ∈ rest, c < 2 ^ 32)
    (hnext : ∀ c p, rest[0]? = some c → pointers[0]? = some p → p = c)
    (hskip : ∀ c p, rest[1]? = some c → pointers[1]? = some p → p = c) :
    Links d i block rest := by
  constructor
  · intro c hc
    have hmem : c ∈ rest := List.mem_of_getElem? hc
    have hi : i ≠ 0 := by
      have := List.length_pos_of_mem hmem
      omega
    have hpos := skipPointers_pos hi
    match pointers, hcount with
    | p :: ps, _ =>
        obtain rfl := hnext c p hc rfl
        rw [hcontent, List.flatMap_cons, List.append_assoc]
        exact Block.word_zero_le32 (hword p hmem) _
    | [], hcount => rw [← hcount] at hpos; cases hpos
  · intro heven c hc
    have hmem : c ∈ rest := List.mem_of_getElem? hc
    have hi : i ≠ 0 := by
      have := List.length_pos_of_mem hmem
      omega
    have htwo := two_le_skipPointers hi heven
    match pointers, hcount with
    | p :: q :: ps, _ =>
        obtain rfl := hskip c q hc rfl
        rw [hcontent, List.flatMap_cons, List.flatMap_cons, List.append_assoc, List.append_assoc]
        exact Block.word_one_le32 (hword q hmem) p _
    | [p], hcount => rw [← hcount] at htwo; simp at htwo
    | [], hcount => rw [← hcount] at htwo; simp at htwo

/-- A block with the same bytes in its header has the same links. -/
theorem Links.congr {d d' : Device} {i block block' : ℕ} {rest : List ℕ} (h : Links d i block rest)
    (hrest : rest.length ≤ i)
    (hsame : ∀ p < 4 * skipPointersInBlock i,
      (d'.get block').bytes.getD p 0xFF = (d.get block).bytes.getD p 0xFF) :
    Links d' i block' rest := by
  have hword : ∀ k < skipPointersInBlock i, (d'.get block').word k = (d.get block).word k :=
    fun k hk => Block.word_congr fun j hj => hsame _ (by omega)
  constructor
  · intro c hc
    have hlen : 0 < rest.length := List.length_pos_of_mem (List.mem_of_getElem? hc)
    rw [hword 0 (skipPointers_pos (by omega))]
    exact h.next c hc
  · intro heven c hc
    have hlen : 0 < rest.length := List.length_pos_of_mem (List.mem_of_getElem? hc)
    rw [hword 1 (two_le_skipPointers (by omega) heven)]
    exact h.skip heven c hc

end Ctz

/-! ## A new chain -/

/-- A chain in flight with nothing else: what a handle, or an operation that has written
content, holds. -/
structure Holding (g : Geometry) (head size : ℕ) (s : Fs) : Prop where
  exposed : s.unpublished.exposed = []
  shielded : ∃ upper, Shielded g [] (some (head, size)) upper s

/-- The first `i` blocks of a new chain are built. -/
structure Built (chain : List ℕ) (i : ℕ) (s : Fs) : Prop where
  blocks : s.unpublished.blocks = chain.take i
  exposed : s.unpublished.exposed = []
  cached : ∀ b ∈ chain, s.Cached b
  linked : Ctz.Descends s.device (i - 1) (chain.take i).reverse

variable {E : Fs → Prop}

theorem chainImage_links {d : Device} {chain : List ℕ} {i block : ℕ} {content : List Byte}
    (hi : i ≤ chain.length) (htracked : ∀ b ∈ chain, b < maxTrackedBlocks)
    (hcontent : d.get block = .raw (chainImage g chain i content)) :
    Ctz.Links d i block (chain.take i).reverse := by
  have hlen : (chain.take i).reverse.length = i := by
    rw [List.length_reverse, List.length_take, Nat.min_eq_left hi]
  have hrev : ∀ k < i, (chain.take i).reverse[k]? = chain[i - 1 - k]? := by
    intro k hk
    rw [List.getElem?_reverse (by rw [List.length_take]; omega), List.length_take,
      Nat.min_eq_left hi, List.getElem?_take_of_lt (by omega)]
  have hpointers : ∀ k p, ((List.range (Ctz.skipPointersInBlock i)).map
      fun k => chain.getD (i - 2 ^ k) 0)[k]? = some p → p = chain.getD (i - 2 ^ k) 0 := by
    intro k p hp
    rw [List.getElem?_map, Option.map_eq_some_iff] at hp
    obtain ⟨k', hk', rfl⟩ := hp
    obtain ⟨hlt, hk'⟩ := List.getElem?_eq_some_iff.1 hk'
    rw [List.getElem_range] at hk'
    rw [hk']
  have himage : d.get block = .raw (((List.range (Ctz.skipPointersInBlock i)).map
      fun k => chain.getD (i - 2 ^ k) 0).flatMap le32 ++
        content.take (g.blockSize - 4 * Ctz.skipPointersInBlock i)) := by
    rw [hcontent, chainImage, List.flatMap_map]
  refine Ctz.links_of_pointers himage (by simp) (Nat.le_of_eq hlen) ?_ ?_ ?_
  · intro c hc
    have := htracked c (List.mem_of_mem_take (List.mem_reverse.1 hc))
    simp only [maxTrackedBlocks] at this
    omega
  · intro c p hc hp
    have hpos : 0 < i := by
      have := List.length_pos_of_mem (List.mem_of_getElem? hc)
      omega
    rw [hrev 0 hpos] at hc
    rw [hpointers 0 p hp, List.getD_eq_getElem?_getD]
    simp only [Nat.sub_zero] at hc
    rw [Nat.pow_zero, hc]
    rfl
  · intro c p hc hp
    have hpos : 1 < i := by
      rw [← hlen]
      exact (List.getElem?_eq_some_iff.1 hc).1
    rw [hrev 1 hpos] at hc
    rw [hpointers 1 p hp, List.getD_eq_getElem?_getD]
    rw [Nat.sub_sub] at hc
    rw [Nat.pow_one, hc]
    rfl

theorem guarded_buildChainFrom {chain todo : List ℕ} {i : ℕ} (hnodup : chain.Nodup)
    (htracked : ∀ b ∈ chain, b < maxTrackedBlocks) (htodo : chain.drop i = todo)
    (hi : i + todo.length = chain.length) (content : List Byte) :
    Guarded g (Built chain i) (buildChainFrom g chain todo i content)
      (fun worn s => match worn with
        | none => Built chain chain.length s
        | some _ => Settled s) E := by
  induction todo generalizing i content with
  | nil => exact Triple.pure fun s hs => by rw [← hi]; exact hs
  | cons block todo ih =>
      rw [List.length_cons] at hi
      have hget : chain[i]? = some block := by
        rw [← List.head?_drop, htodo]
        rfl
      have htake : chain.take (i + 1) = chain.take i ++ [block] := by
        rw [List.take_add_one, hget]
        rfl
      have hfresh : block ∉ chain.take i := by
        intro hmem
        have hsplit : (chain.take i ++ chain.drop i).Nodup := by
          rw [List.take_append_drop]
          exact hnodup
        rw [htodo] at hsplit
        exact (List.nodup_append.1 hsplit).2.2 block hmem block (List.mem_cons_self ..) rfl
      have hstable : Stable block (Built chain i) := by
        intro s s' hs hw
        refine ⟨by rw [hw.unpublished]; exact hs.blocks, by rw [hw.unpublished]; exact hs.exposed,
          fun b hb used hused => ?_, hs.linked.congr fun b hb => hw.sameLinks fun heq => ?_⟩
        · rw [hw.usedCache] at hused
          exact hs.cached b hb used hused
        · rw [heq] at hb
          exact hfresh (List.mem_reverse.1 hb)
      refine Triple.bind (guarded_eraseAndProgramBytes hstable (fun s hs => ?_) _) fun ok => ?_
      · rw [hs.blocks]
        exact hfresh
      refine Triple.ite (fun hok => ?_) fun _ => ?_
      · refine Triple.seq (R := Built chain (i + 1)) (Triple.modify ?_)
          (ih (by rw [← List.drop_drop, htodo]; rfl) (by omega) _)
        rintro s ⟨hs, hcontent⟩
        refine ⟨?_, hs.exposed, hs.cached, ?_⟩
        · rw [htake, ← hs.blocks]
        · rw [htake, List.reverse_append]
          exact ⟨chainImage_links (by omega) htracked (hcontent hok), hs.linked⟩
      · refine Triple.seq (R := Settled) (Triple.modify ?_) (Triple.pure fun _ h => h)
        rintro s ⟨hs, -⟩
        refine ⟨?_, ?_⟩
        · rw [List.filter_eq_nil_iff]
          intro b hb
          rw [hs.blocks] at hb
          simp [List.mem_of_mem_take hb]
        · simp [hs.exposed]

/-- A fresh allocation is a chain of which nothing is built. -/
theorem Fresh.built {excluded blocks : List ℕ} {chain : Option (ℕ × ℕ)} {want : ℕ} {s : Fs}
    (h : Fresh g excluded chain want blocks s)
    (hs : Settled s) : Built blocks 0 s :=
  ⟨hs.blocks, hs.exposed, h.cached, True.intro⟩

/-- A chain that is built is what `holdChain` announces. -/
theorem Built.holding {chain : List ℕ} {s : Fs} (h : Built chain chain.length s)
    (hnodup : chain.Nodup) (htracked : ∀ b ∈ chain, b < maxTrackedBlocks) {size : ℕ}
    (hcount : Ctz.blockCount size g.blockSize = chain.length) (hpos : 0 < chain.length) :
    Holding g (chain.getD (chain.length - 1) noBlock) size
      { s with unpublished := ⟨s.unpublished.blocks.filter (· ∉ s.unpublished.exposed), [],
        some (chain.getD (chain.length - 1) noBlock, size)⟩ } := by
  have hblocks : s.unpublished.blocks.filter (· ∉ s.unpublished.exposed) = chain := by
    rw [h.exposed, h.blocks, List.take_length]
    simp
  have hlast : chain.getD (chain.length - 1) noBlock = chain.reverse.head (by
      rw [ne_eq, List.reverse_eq_nil_iff, ← List.length_eq_zero_iff]
      omega) := by
    rw [List.head_reverse, List.getLast_eq_getElem, List.getD_eq_getElem]
  have hlinked := h.linked
  rw [List.take_length] at hlinked
  refine ⟨rfl, chain.reverse, ?_, ?_, ⟨List.nodup_reverse.2 hnodup, ?_, .inr ?_⟩, ?_⟩
  · simp only [hblocks]
    exact fun b hb => h.cached b hb
  · simp only [hblocks]
    exact fun b hb => .inr (.inl (List.mem_reverse.2 hb))
  · exact fun b hb => htracked b (List.mem_reverse.1 hb)
  · refine ⟨_, _, chain.reverse.tail, rfl, ?_, ?_, ?_⟩
    · rw [hlast, List.cons_head_tail]
    · rw [List.length_reverse, hcount]
    · rw [hcount]
      exact hlinked
  · simp only [hblocks]
    exact fun b hb => List.mem_reverse.1 hb

/-- A new chain is in flight once it is built. -/
theorem guarded_allocChain {content : List Byte} {total : ℕ}
    (hcount : Ctz.blockCount content.length g.blockSize = total) (hpos : 0 < total) (left : ℕ)
    (excluded : List ℕ) :
    Guarded g Settled (allocChain g content total left excluded)
      (fun chain => Holding g (chain.getD (total - 1) noBlock) content.length) fun _ => True := by
  have halloc : ∀ excluded, Guarded g Settled (allocBlocks g false excluded none total)
      (fun chain s => Built chain 0 s ∧ chain.Nodup ∧ (∀ b ∈ chain, b < maxTrackedBlocks) ∧
        chain.length = total) fun _ => True := by
    intro excluded
    have h := @guarded_allocBlocks g Settled (fun _ => True) [] excluded [] none nofun
      (fun s cache h => ⟨h.blocks, h.exposed⟩) false total fun _ _ _ => True.intro
    refine h.conseq (fun s hs => ⟨hs.shielded _ _, hs⟩) ?_ fun _ _ h => h
    rintro chain s ⟨-, hs, hfresh⟩
    exact ⟨hfresh.built hs, hfresh.nodup, hfresh.tracked, hfresh.length⟩
  have hbuild : ∀ chain : List ℕ, Guarded g
      (fun s => Built chain 0 s ∧ chain.Nodup ∧ (∀ b ∈ chain, b < maxTrackedBlocks) ∧
        chain.length = total) (tryBuildCtzChain g chain content)
      (fun worn s => match worn with
        | none => (Built chain chain.length s ∧ chain.Nodup ∧ (∀ b ∈ chain, b < maxTrackedBlocks) ∧
            chain.length = total)
        | some _ => Settled s) fun _ => True := by
    intro chain
    refine Triple.pre fun ⟨hnodup, htracked, hlen⟩ => ?_
    refine (guarded_buildChainFrom hnodup htracked rfl (Nat.zero_add _) content).weaken ?_
    intro worn s hs
    cases worn with
    | none => exact ⟨hs, hnodup, htracked, hlen⟩
    | some bad => exact hs
  have hannounce : ∀ chain : List ℕ, Guarded g
      (fun s => Built chain chain.length s ∧ chain.Nodup ∧ (∀ b ∈ chain, b < maxTrackedBlocks) ∧
        chain.length = total)
      (do holdChain (chain.getD (total - 1) noBlock) content.length; pure chain)
      (fun chain => Holding g (chain.getD (total - 1) noBlock) content.length) fun _ => True := by
    intro chain
    refine Triple.pre fun ⟨hnodup, htracked, hlen⟩ => ?_
    subst hlen
    exact Triple.seq (Triple.modify fun s hs => hs.holding hnodup htracked hcount hpos)
      (Triple.pure fun _ h => h)
  induction left generalizing excluded with
  | zero =>
      refine Triple.bind (halloc excluded) fun chain => Triple.bind (hbuild chain) fun worn => ?_
      cases worn with
      | none => exact hannounce chain
      | some bad => exact Triple.fail fun _ _ => True.intro
  | succ left ih =>
      refine Triple.bind (halloc excluded) fun chain => Triple.bind (hbuild chain) fun worn => ?_
      cases worn with
      | none => exact hannounce chain
      | some bad => exact Triple.seq (Triple.modify fun s h => ⟨h.blocks, h.exposed⟩) (ih _)

end LittlefsPure
