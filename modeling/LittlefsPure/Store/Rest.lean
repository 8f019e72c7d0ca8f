import LittlefsPure.Limits.Writer
import LittlefsPure.Scan.Raw
import LittlefsPure.Split.Lower
import Mathlib.Data.List.Nodup

/-!
# A directory at rest

What the blocks of a directory hold between two commits: each pair of the chain has its
log on one half, and the other half yields to it.  Nothing else of the device matters, so
whatever is written elsewhere, or is left there by a power cut, leaves the directory as it
is.

The directory here is the root of a filesystem that holds inline files and no other
directories, so what the tags of either half name is the chain itself.

## Why one half is enough

Between two commits a reader sees the newer half of each pair.  The other half holds the log of an
earlier commit, what a torn erase or program left of one, or nothing.  It is asked to yield, and to
name no pair outside the directory, as the single-buffer scan reads it too.
-/

namespace LittlefsPure

open Logic

/-! ## Power cuts -/

/-- What a power cut in an erase leaves: the block as it was, erased, or torn; the checksums
of a torn block do not come out right by accident. -/
def Block.CutErase (g : Geometry) (b b' : Block) : Prop :=
  b' = b ∨ b' = .erased ∨
    ∃ n, b' = b.tornErase n ∧ ∀ t ∈ (b'.reader g).tags, t ∈ (b.reader g).tags

/-- What a power cut in the program of a log leaves: the block as it was, a block without a
verified commit where a whole log was under way, or a dirty window behind a log. -/
def Block.CutProgram (b b' : Block) : Prop :=
  b' = b ∨ (b = .erased ∧ ∃ revision, b' = .log ⟨revision, [], false⟩) ∨
    ∃ l, b = .log l ∧ b' = .log { l with erased := false }

/-- The devices that a power cut in a device call leaves. -/
def Event.Image (g : Geometry) : Event → Device → Prop
  | .erase before addr _, d => ∃ b, (before.get addr).CutErase g b ∧ d = before.write addr b
  | .program before addr, d => ∃ b, (before.get addr).CutProgram b ∧ d = before.write addr b
  | _, _ => False

/-- Whatever a power cut in a device call leaves is good. -/
def Event.Survives (g : Geometry) (Good : Device → Prop) (e : Event) : Prop :=
  ∀ d, e.Image g d → Good d

/-- An erased block shows no tags. -/
theorem Block.erased_tags (g : Geometry) : (Block.erased.reader g).tags = [] := by
  have hnone : (Block.erased.reader g).hasCommits = false := Block.reader_short g (Nat.zero_le 4)
  rwa [MetadataLog.hasCommits, Bool.not_eq_false', List.isEmpty_iff] at hnone

/-- A cut erase keeps the tags a block shows, or loses some. -/
theorem Block.CutErase.tags {g : Geometry} {b b' : Block} (h : b.CutErase g b') :
    ∀ t ∈ (b'.reader g).tags, t ∈ (b.reader g).tags := by
  rcases h with rfl | rfl | ⟨n, -, h⟩
  · exact fun _ => id
  · rw [Block.erased_tags]
    exact nofun
  · exact h

/-- A cut erase leaves the other half of the pair active. -/
theorem Block.CutErase.yields {g : Geometry} {b b' : Block} (h : b.CutErase g b') {p : BlockPair}
    {x : ℕ} {l : MetadataLog} (hb : b.Yields g p x l) : b'.Yields g p x l := by
  have htags := h.tags
  rcases h with rfl | rfl | ⟨n, rfl, -⟩
  · exact hb
  · exact Block.erased_yields
  · rcases hb with hb | hb
    · refine .inl ?_
      rw [MetadataLog.hasCommits, Bool.not_eq_false', List.isEmpty_iff] at hb ⊢
      rw [hb] at htags
      exact List.eq_nil_iff_forall_not_mem.2 fun t ht => List.not_mem_nil (htags t ht)
    · by_cases hn : 4 ≤ n
      · exact .inr (hb.congr (Block.tornErase_revision hn b))
      · refine .inl (Block.reader_short g ?_)
        rw [List.length_take]
        omega

/-! ## Nodes -/

/-- A pair of a directory, with its log and what that says. -/
structure Node where
  pair : BlockPair
  active : ℕ
  alternate : ℕ
  log : MetadataLog
  entries : Entries

/-- The blocks of a node. -/
def Node.blocks (n : Node) : List ℕ := [n.active, n.alternate]

/-- A tag that names no chain of blocks, and no pair but those listed. -/
def TagEntry.Flat (pairs : List BlockPair) (t : TagEntry) : Prop :=
  t.rawChain = none ∧ ∀ c, t.rawChild = some c → c ∈ pairs

/-- The content of an entry is inline. -/
def Entry.Inline (e : Entry) : Prop := ∀ st, e.struct = some st → st.1 = .inlineStruct

/-- A node as it stands on the device. -/
structure Node.Stands (g : Geometry) (d : Device) (pairs : List BlockPair) (n : Node) : Prop where
  halves : n.pair.Halves n.active n.alternate
  bounds : g.pairInBounds n.pair = true
  tracked : ∀ b ∈ n.blocks, b < maxTrackedBlocks
  stored : d.get n.active = .log n.log
  yields : (d.get n.alternate).Yields g n.pair n.active n.log
  commits : n.log.hasCommits = true
  carries : n.log.Carries n.entries zeroMove zeroRelocate n.log.tailLink
  room : n.entries.length ≤ maxLiveEntries
  gathered : ∃ slots, gatherLiveSlots n.log = .ok slots
  inline : ∀ e ∈ n.entries, e.Inline
  flat : ∀ t ∈ n.log.tags, t.Flat pairs
  stale : ∀ t ∈ ((d.get n.alternate).reader g).tags, t.Flat pairs

/-- A chain of nodes from the root on. -/
structure AtRest (g : Geometry) (d : Device) (root : BlockPair) (chain : List Node) : Prop where
  size : d.blocks.length = g.blockCount
  linked : Linked (some (root, true)) none (chain.map fun n => (n.pair, n.log))
  stands : ∀ n ∈ chain, n.Stands g d (chain.map Node.pair)
  apart : (chain.flatMap Node.blocks).Nodup
  short : chain.length ≤ maxQueuedPairs

/-- The blocks of a chain of nodes. -/
abbrev nodeBlocks (chain : List Node) : List ℕ := chain.flatMap Node.blocks

theorem mem_nodeBlocks {chain : List Node} {x : ℕ} :
    x ∈ nodeBlocks chain ↔ ∃ n ∈ chain, x = n.active ∨ x = n.alternate := by
  simp [nodeBlocks, Node.blocks]

section Nodes

variable {g : Geometry} {d d' : Device} {root : BlockPair} {pairs pairs' : List BlockPair}
  {n : Node} {chain : List Node}

theorem TagEntry.Flat.mono {t : TagEntry} (h : t.Flat pairs) (hsub : ∀ p ∈ pairs, p ∈ pairs') :
    t.Flat pairs' := ⟨h.1, fun c hc => hsub c (h.2 c hc)⟩

/-- A node depends on its two blocks. -/
theorem Node.Stands.congr (h : n.Stands g d pairs) (hactive : d'.get n.active = d.get n.active)
    (halternate : d'.get n.alternate = d.get n.alternate) : n.Stands g d' pairs :=
  { h with
    stored := hactive.trans h.stored
    yields := halternate ▸ h.yields
    stale := halternate ▸ h.stale }

theorem Node.Stands.mono (h : n.Stands g d pairs) (hsub : ∀ p ∈ pairs, p ∈ pairs') :
    n.Stands g d pairs' :=
  { h with
    flat := fun t ht => (h.flat t ht).mono hsub
    stale := fun t ht => (h.stale t ht).mono hsub }

/-- The frame rule: a directory at rest depends on its blocks. -/
theorem AtRest.congr (h : AtRest g d root chain) (hsame : SameOn (nodeBlocks chain) d d') :
    AtRest g d' root chain where
  size := hsame.length.trans h.size
  linked := h.linked
  stands n hn := (h.stands n hn).congr (hsame.get _ (mem_nodeBlocks.2 ⟨n, hn, .inl rfl⟩))
    (hsame.get _ (mem_nodeBlocks.2 ⟨n, hn, .inr rfl⟩))
  apart := h.apart
  short := h.short

theorem Node.Stands.active_lt (h : n.Stands g d pairs) (hsize : d.blocks.length = g.blockCount) :
    n.active < d.blocks.length := by
  obtain ⟨ha, hb⟩ := Geometry.pairInBounds_iff.1 h.bounds
  rcases h.halves with ⟨h₁, -⟩ | ⟨-, h₁⟩ <;> omega

theorem Node.Stands.alternate_lt (h : n.Stands g d pairs) (hsize : d.blocks.length = g.blockCount) :
    n.alternate < d.blocks.length := by
  obtain ⟨ha, hb⟩ := Geometry.pairInBounds_iff.1 h.bounds
  rcases h.halves with ⟨-, h₁⟩ | ⟨h₁, -⟩ <;> omega

theorem Node.apart (h : n.blocks.Nodup) : n.active ≠ n.alternate := by
  simpa [Node.blocks] using h

theorem AtRest.node_apart (h : AtRest g d root chain) (hn : n ∈ chain) :
    n.active ≠ n.alternate :=
  Node.apart ((List.nodup_flatMap.1 h.apart).1 n hn)

/-- The fetch of a node finds its log. -/
theorem Node.Stands.fetch (h : n.Stands g d pairs) (hsize : d.blocks.length = g.blockCount)
    (hne : n.active ≠ n.alternate) :
    d.fetch g n.pair = .ok ⟨n.active, n.alternate, n.log⟩ := by
  rw [Device.fetch_eq_active h.halves hne h.bounds (h.active_lt hsize) (h.alternate_lt hsize),
    h.stored]
  exact ⟨rfl, h.commits, h.yields⟩

theorem AtRest.fetch (h : AtRest g d root chain) (hn : n ∈ chain) :
    d.fetch g n.pair = .ok ⟨n.active, n.alternate, n.log⟩ :=
  (h.stands n hn).fetch h.size (h.node_apart hn)

/-- A directory at rest has a first pair, the root. -/
theorem AtRest.head (h : AtRest g d root chain) :
    ∃ first rest, chain = first :: rest ∧ first.pair = root := by
  cases chain with
  | nil => cases h.linked
  | cons first rest =>
      obtain ⟨htail, -⟩ := h.linked
      cases htail
      exact ⟨first, rest, rfl, rfl⟩

/-- The chain as a reader finds it. -/
theorem AtRest.directory (h : AtRest g d root chain) :
    d.Directory g root (chain.map fun n => (n.pair, n.log)) := by
  have hfollows : d.Follows g (some (root, true))
      ((chain.map fun n => (n.pair, n.log)) ++ []) := by
    refine h.linked.follows (fun c hc => ?_) nofun
    obtain ⟨n, hn, rfl⟩ := List.mem_map.1 hc
    exact ⟨_, _, h.fetch hn⟩
  rwa [List.append_nil] at hfollows

end Nodes

end LittlefsPure
