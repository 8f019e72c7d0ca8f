import LittlefsPure.Disk.Reader
import LittlefsPure.Fs.DeviceSpec
import Mathlib.Data.List.GetD

/-!
# Which half of a pair is active

A pair is two blocks, and `MetadataPair::parse` takes the log of the newer one unless
that has no commit.  So a half yields to the other as long as it is older, or has no
commit to show, and this is how a commit stays invisible until its last byte: the
block it is written to is erased, then torn, then suddenly newer.

## Why a torn erase is looked at

An erase that is cut off leaves the beginning of what was there.  The beginning of a log is a log,
so the half may still have a commit, as it had before; but then it is older than the other one, as
it was before.  What must not happen is that a half without a commit comes to have one, and this is
what `ErasesQuietly` excludes.
-/

namespace LittlefsPure

/-- A pair consists of two blocks, in one order or the other. -/
def BlockPair.Halves (p : BlockPair) (x y : ℕ) : Prop := p.a = x ∧ p.b = y ∨ p.a = y ∧ p.b = x

theorem BlockPair.Halves.symm {p : BlockPair} {x y : ℕ} (h : p.Halves x y) : p.Halves y x :=
  Or.symm h

/-- The log at `x` is taken before the one at the other half, by its revision. -/
def Prevails (p : BlockPair) (x : ℕ) (l other : MetadataLog) : Prop :=
  if p.a = x then revNotOlder l.revision other.revision = true
  else revNotOlder other.revision l.revision = false

theorem Prevails.congr {p : BlockPair} {x : ℕ} {l other other' : MetadataLog}
    (h : Prevails p x l other) (hrev : other'.revision % 2 ^ 32 = other.revision % 2 ^ 32) :
    Prevails p x l other' := by
  unfold Prevails revNotOlder at h ⊢
  rw [hrev]
  exact h

/-- The next revision is newer, also where the counter wraps around. -/
theorem prevails_next {p : BlockPair} {x : ℕ} {l other : MetadataLog}
    (h : l.revision = (other.revision + 1) % 2 ^ 32) : Prevails p x l other := by
  unfold Prevails revNotOlder
  rw [h]
  split_ifs
  · exact decide_eq_true (by omega)
  · exact decide_eq_false (by omega)

/-- The log at `x` is the active one if it has a commit and the other one is older or has
none. -/
theorem MetadataPair.parse_eq_active {p : BlockPair} {x y : ℕ} (hp : p.Halves x y) (hne : x ≠ y)
    (lx ly : MetadataLog) :
    MetadataPair.parse p (if p.a = x then lx else ly) (if p.a = x then ly else lx) =
        .ok ⟨x, y, lx⟩ ↔
      lx.hasCommits = true ∧ (ly.hasCommits = false ∨ Prevails p x lx ly) := by
  rcases hp with ⟨rfl, rfl⟩ | ⟨rfl, rfl⟩
  · simp only [if_true, MetadataPair.parse, Prevails]
    cases hnewer : revNotOlder lx.revision ly.revision <;> cases hx : lx.hasCommits <;>
      cases hy : ly.hasCommits <;> simp [hx, hy, hne.symm]
  · simp only [if_neg hne.symm, MetadataPair.parse, Prevails]
    cases hnewer : revNotOlder ly.revision lx.revision <;> cases hx : lx.hasCommits <;>
      cases hy : ly.hasCommits <;> simp [hx, hy, hne.symm]

/-- The other half of a pair leaves the log at `x` the active one. -/
def Block.Yields (g : Geometry) (p : BlockPair) (x : ℕ) (l : MetadataLog) (b : Block) : Prop :=
  (b.reader g).hasCommits = false ∨ Prevails p x l (b.reader g)

/-- The fetch of a pair by its active half. -/
theorem Device.fetch_eq_active {g : Geometry} {d : Device} {p : BlockPair} {x y : ℕ}
    (hp : p.Halves x y) (hne : x ≠ y) (hbounds : g.pairInBounds p = true)
    (hx : x < d.blocks.length) (hy : y < d.blocks.length) (l : MetadataLog) :
    d.fetch g p = .ok ⟨x, y, l⟩ ↔
      (d.get x).reader g = l ∧ l.hasCommits = true ∧ (d.get y).Yields g p x l := by
  have hfetch : d.fetch g p = MetadataPair.parse p
      (if p.a = x then (d.get x).reader g else (d.get y).reader g)
      (if p.a = x then (d.get y).reader g else (d.get x).reader g) := by
    unfold Device.fetch Device.readers
    rw [if_pos hbounds]
    rcases hp with ⟨rfl, rfl⟩ | ⟨rfl, rfl⟩
    · rw [if_pos rfl, if_pos rfl, Device.read_eq_ok.2 ⟨hx, rfl⟩, Device.read_eq_ok.2 ⟨hy, rfl⟩]
      rfl
    · rw [if_neg hne.symm, if_neg hne.symm, Device.read_eq_ok.2 ⟨hx, rfl⟩,
        Device.read_eq_ok.2 ⟨hy, rfl⟩]
      rfl
  rw [hfetch]
  constructor
  · intro h
    have hl : (d.get x).reader g = l := by
      rcases hp with ⟨rfl, rfl⟩ | ⟨rfl, rfl⟩
      · rw [if_pos rfl, if_pos rfl] at h
        rcases MetadataPair.parse_eq_ok h with h | h
        · rw [MetadataPair.mk.injEq] at h
          exact h.2.2.symm
        · rw [MetadataPair.mk.injEq] at h
          exact absurd h.1 hne
      · rw [if_neg hne.symm, if_neg hne.symm] at h
        rcases MetadataPair.parse_eq_ok h with h | h
        · rw [MetadataPair.mk.injEq] at h
          exact absurd h.1 hne
        · rw [MetadataPair.mk.injEq] at h
          exact h.2.2.symm
    rw [hl] at h ⊢
    exact ⟨rfl, (MetadataPair.parse_eq_active hp hne l _).1 h⟩
  · rintro ⟨rfl, h⟩
    exact (MetadataPair.parse_eq_active hp hne _ _).2 h

/-! ## Torn erases -/

/-- An interrupted erase of the block brings no commit to light. -/
def Block.ErasesQuietly (g : Geometry) (b : Block) : Prop :=
  (b.reader g).hasCommits = false → ∀ n, ((b.tornErase n).reader g).hasCommits = false

theorem Block.erased_erasesQuietly (g : Geometry) : Block.erased.ErasesQuietly g := by
  intro _ n
  refine Block.reader_short g ?_
  simp [Block.erased, Block.bytes]

section Yields

variable {g : Geometry} {p : BlockPair} {x : ℕ} {l : MetadataLog} {b b' : Block}

theorem Block.erased_yields : Block.erased.Yields g p x l :=
  .inl (Block.reader_short g (Nat.zero_le 4))

theorem Block.torn_yields (revision : ℕ) (erased : Bool) :
    (Block.log ⟨revision, [], erased⟩).Yields g p x l := .inl rfl

theorem ofLe32_le32_mod (n : ℕ) (rest : List Byte) : ofLe32 (le32 n ++ rest) = n % 2 ^ 32 := by
  simp only [ofLe32, le32, List.cons_append, List.getD_cons_zero, List.getD_cons_succ,
    BitVec.toNat_ofNat]
  omega

/-- A word depends on its first four bytes. -/
theorem ofLe32_take {bs : List Byte} {n : ℕ} (hn : 4 ≤ n) (hbs : n ≤ bs.length)
    (rest rest' : List Byte) : ofLe32 (bs.take n ++ rest) = ofLe32 (bs ++ rest') := by
  have hget : ∀ i < 4, (bs.take n ++ rest).getD i 0 = (bs ++ rest').getD i 0 := by
    intro i hi
    rw [List.getD_append _ _ _ _ (by rw [List.length_take]; omega), List.getD_append _ _ _ _
      (by omega)]
    simp only [List.getD_eq_getElem?_getD, List.getElem?_take, if_pos (show i < n by omega)]
  simp only [ofLe32, hget 0 (by omega), hget 1 (by omega), hget 2 (by omega), hget 3 (by omega)]

/-- A torn erase that reaches behind the revision leaves it as it was. -/
theorem Block.tornErase_revision {n : ℕ} (hn : 4 ≤ n) (b : Block) :
    ((b.tornErase n).reader g).revision % 2 ^ 32 = (b.reader g).revision % 2 ^ 32 := by
  by_cases hlen : n ≤ b.bytes.length
  · show ofLe32 (b.bytes.take n ++ _) % 2 ^ 32 = _
    cases b with
    | log l =>
        rw [ofLe32_take hn hlen _ []]
        show ofLe32 (l.bytes ++ []) % 2 ^ 32 = l.revision % 2 ^ 32
        rw [MetadataLog.bytes, List.append_assoc, ofLe32_le32_mod, Nat.mod_mod]
    | raw bs =>
        rw [ofLe32_take hn hlen]
        rfl
  · have hall : b.bytes.take n = b.bytes := List.take_of_length_le (by omega)
    show ((Block.raw (b.bytes.take n)).reader g).revision % 2 ^ 32 = _
    rw [hall]
    cases b with
    | log l =>
        show ofLe32 (l.bytes ++ _) % 2 ^ 32 = l.revision % 2 ^ 32
        rw [MetadataLog.bytes, List.append_assoc, ofLe32_le32_mod, Nat.mod_mod]
    | raw bs => rfl

/-- An erase under way leaves the other half active. -/
theorem Block.Yields.erasing (h : b.Yields g p x l) (hquiet : b.ErasesQuietly g)
    (hb : b.Erasing b') : b'.Yields g p x l := by
  rcases hb with rfl | rfl | ⟨n, rfl⟩
  · exact h
  · exact Block.erased_yields
  · rcases h with h | h
    · exact .inl (hquiet h n)
    · by_cases hn : 4 ≤ n
      · exact .inr (h.congr (Block.tornErase_revision hn b))
      · refine .inl (Block.reader_short g ?_)
        rw [List.length_take]
        omega

end Yields

end LittlefsPure
