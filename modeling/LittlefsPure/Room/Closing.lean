import LittlefsPure.Fs.WriteOp

/-!
# Where a commit ends

`finish_padded` closes a commit at the first program boundary that leaves twenty
bytes for a forward CRC and a checksum, or at the end of the block when less is
left.  The bytes up to that boundary become the body of the checksum tag, whose
length field has ten bits.  `Commit.ClosingFits` is the condition on the offset for
the body to be short enough, and `Commit.finishPadded_iff` says that nothing else
can go wrong in a block that still has room for a checksum.

## Why twenty bytes

A commit is closed by a forward CRC, twelve bytes with its tag, and a checksum, eight.  If the next
boundary leaves both their room the commit ends there; if not it ends at the boundary behind, or at
the end of the block where no later commit can follow and no forward CRC is called for.
-/

namespace LittlefsPure

namespace Commit

/-! ## The program grid -/

section Grid

variable {n unit limit : ℕ}

theorem alignUp_mod (n unit : ℕ) : alignUp n unit % unit = 0 := Nat.mul_mod_left _ _

theorem le_alignUp (hunit : 0 < unit) : n ≤ alignUp n unit := by
  have hdiv := Nat.div_add_mod (n + unit - 1) unit
  have hmod := Nat.mod_lt (n + unit - 1) hunit
  rw [Nat.mul_comm] at hdiv
  unfold alignUp
  omega

theorem alignUp_lt (hunit : 0 < unit) : alignUp n unit < n + unit := by
  have hle := Nat.div_mul_le_self (n + unit - 1) unit
  unfold alignUp
  omega

/-- Rounding up does not pass a limit on the grid. -/
theorem alignUp_le (hunit : 0 < unit) (hlimit : limit % unit = 0) (hn : n ≤ limit) :
    alignUp n unit ≤ limit := by
  obtain ⟨k, rfl⟩ := Nat.dvd_of_mod_eq_zero hlimit
  have hk : (n + unit - 1) / unit < k + 1 := by
    rw [Nat.div_lt_iff_lt_mul hunit, Nat.add_mul, Nat.mul_comm k]
    omega
  have hle : (n + unit - 1) / unit ≤ k := Nat.lt_succ_iff.1 hk
  calc
    alignUp n unit ≤ k * unit := Nat.mul_le_mul_right unit hle
    _ = unit * k := Nat.mul_comm ..

theorem alignUp_self (hunit : 0 < unit) (hlimit : limit % unit = 0) :
    alignUp limit unit = limit :=
  Nat.le_antisymm (alignUp_le hunit hlimit le_rfl) (le_alignUp hunit)

end Grid

/-! ## The closing tags -/

/-- What closes a commit: a forward CRC or none, then a checksum of `n` bytes. -/
def closing (g : Geometry) (fcrc : Bool) (n : ℕ) : List TagEntry :=
  (if fcrc then [fcrcTag g] else []) ++ [⟨.commitCrc 0, idNone, .checksum n⟩]

theorem tagsSize_closing (g : Geometry) (fcrc : Bool) (n : ℕ) :
    tagsSize (closing g fcrc n) = (if fcrc then 12 else 0) + (4 + n) := by
  cases fcrc <;> simp [closing, fcrcTag, TagEntry.dsize, Body.length]

/-- A commit is closed: the closing tags follow its own, the checksum fits its length
field, and the end lies on the program grid and in the block. -/
structure Closed (g : Geometry) (c c' : Commit) (fcrc : Bool) (n : ℕ) : Prop where
  tags : c'.tags = c.tags ++ closing g fcrc n
  offset : c'.offset = c.offset + tagsSize (closing g fcrc n)
  length_pos : 4 ≤ n
  length_field : n ≤ 0x3FE
  aligned : c'.offset % g.progSize = 0
  inside : c'.offset ≤ g.blockSize

/-- The bytes from an offset to the next program boundary. -/
def padding (g : Geometry) (n : ℕ) : ℕ := alignUp n g.progSize - n

/-- The padding up to the end of a commit leaves its checksum a length that ten bits
hold.  A forward CRC takes twelve of the bytes, and it is written when a program unit
follows the end. -/
def ClosingFits (g : Geometry) (off : ℕ) : Prop :=
  off + 20 ≤ g.blockSize →
    padding g (off + 20) ≤ 1006 ∨
      padding g (off + 20) ≤ 1018 ∧ alignUp (off + 20) g.progSize + g.progSize ≤ g.blockSize

instance (g : Geometry) (off : ℕ) : Decidable (ClosingFits g off) :=
  inferInstanceAs (Decidable (_ → _))

/-- A program unit of up to 1007 bytes never stretches a checksum too far. -/
theorem closingFits_of_progSize {g : Geometry} (hpos : 0 < g.progSize) (h : g.progSize ≤ 1007)
    (off : ℕ) : ClosingFits g off := by
  intro _
  have hlt := alignUp_lt (n := off + 20) hpos
  refine .inl ?_
  unfold padding
  omega

section Finish

variable {g : Geometry} {c c' : Commit} {fcrc : Bool}

/-- Where `finish_padded` puts the end of a commit that leaves room for a checksum. -/
theorem stop_spec (hpos : 0 < g.progSize) (hgrid : g.blockSize % g.progSize = 0)
    (hroom : c.offset + 8 ≤ g.blockSize) :
    (c.offset + 20 ≤ g.blockSize ∧
        alignUp (min (c.offset + 20) g.blockSize) g.progSize =
          c.offset + 20 + padding g (c.offset + 20) ∧
        c.offset + 20 + padding g (c.offset + 20) ≤ g.blockSize) ∨
      (g.blockSize < c.offset + 20 ∧
        alignUp (min (c.offset + 20) g.blockSize) g.progSize = g.blockSize) := by
  by_cases hclip : c.offset + 20 ≤ g.blockSize
  · have hle := le_alignUp (n := c.offset + 20) hpos
    have htop := alignUp_le hpos hgrid hclip
    rw [Nat.min_eq_left hclip]
    refine .inl ⟨hclip, ?_, ?_⟩ <;> unfold padding <;> omega
  · rw [Nat.min_eq_right (by omega)]
    exact .inr ⟨by omega, alignUp_self hpos hgrid⟩

/-- What `finish_padded` returns, if it returns. -/
theorem finishPadded_closed (h : c.finishPadded g = .ok (c', fcrc)) :
    ∃ n, Closed g c c' fcrc n := by
  have hmod := alignUp_mod (min (c.offset + 20) g.blockSize) g.progSize
  simp only [finishPadded] at h
  generalize alignUp (min (c.offset + 20) g.blockSize) g.progSize = stop at h hmod
  split_ifs at h with htop hroom hemit hlen hlen
  · obtain ⟨hfront, -⟩ : c.offset + 20 ≤ stop ∧ stop + g.progSize ≤ g.blockSize := by
      simpa [fcrcFits] using hemit
    cases h
    have hsize : tagsSize [fcrcTag g] = 12 := rfl
    rw [hsize] at hlen
    refine ⟨stop - (c.offset + 12) - 4, ⟨?_, ?_, by omega, by omega, hmod, Nat.le_of_not_lt htop⟩⟩
    · simp [closing, hemit, hsize]
    · simp only [tagsSize_closing, hemit, if_true]
      omega
  · have hemit' : fcrcFits g c.offset stop = false := Bool.eq_false_iff.2 hemit
    cases h
    simp only [tagsSize_nil, Nat.add_zero] at hlen ⊢
    refine ⟨stop - c.offset - 4, ⟨?_, ?_, by omega, by omega, hmod, Nat.le_of_not_lt htop⟩⟩
    · simp [closing, hemit']
    · simp only [tagsSize_closing, hemit', Bool.false_eq_true, if_false]
      omega

/-- A commit with room for a checksum closes exactly when the padding lets it. -/
theorem finishPadded_iff (hpos : 0 < g.progSize) (hgrid : g.blockSize % g.progSize = 0)
    (hroom : c.offset + 8 ≤ g.blockSize) :
    (∃ c' fcrc, c.finishPadded g = .ok (c', fcrc)) ↔ ClosingFits g c.offset := by
  unfold ClosingFits
  rcases stop_spec hpos hgrid hroom with ⟨hclip, hstop, htop⟩ | ⟨hclip, hstop⟩
  · have hal : alignUp (c.offset + 20) g.progSize = c.offset + 20 + padding g (c.offset + 20) := by
      rw [Nat.min_eq_left hclip] at hstop
      exact hstop
    simp only [finishPadded, hstop, hal]
    generalize padding g (c.offset + 20) = pad at htop
    rw [if_neg (by omega), if_neg (by omega)]
    by_cases hnext : c.offset + 20 + pad + g.progSize ≤ g.blockSize
    · have hemit : fcrcFits g c.offset (c.offset + 20 + pad) = true := by
        simp [fcrcFits, hnext]
      have hsize : tagsSize [fcrcTag g] = 12 := rfl
      simp only [hemit, if_true, hsize]
      split_ifs with hlen
      · refine ⟨fun h => ?_, fun h => by have := h hclip; omega⟩
        obtain ⟨_, _, h⟩ := h
        cases h
      · exact ⟨fun _ _ => .inr ⟨by omega, hnext⟩, fun _ => ⟨_, _, rfl⟩⟩
    · have hemit : fcrcFits g c.offset (c.offset + 20 + pad) = false := by
        simp [fcrcFits, Nat.lt_of_not_le hnext]
      simp only [hemit, Bool.false_eq_true, if_false, tagsSize_nil, Nat.add_zero]
      split_ifs with hlen
      · refine ⟨fun h => ?_, fun h => by have := h hclip; omega⟩
        obtain ⟨_, _, h⟩ := h
        cases h
      · exact ⟨fun _ _ => .inl (by omega), fun _ => ⟨_, _, rfl⟩⟩
  · have hemit : fcrcFits g c.offset g.blockSize = false := by
      simp [fcrcFits, hclip]
    simp only [finishPadded, hstop, hemit, Bool.false_eq_true, if_false, tagsSize_nil, Nat.add_zero]
    rw [if_neg (by omega), if_neg (by omega), if_neg (by omega)]
    exact ⟨fun _ h => absurd h (by omega), fun _ => ⟨_, _, rfl⟩⟩

end Finish

/-! ## A run of tags -/

/-- A run of tags that fits the block is added exactly when the tag words can say their
lengths. -/
theorem addTags_iff {blockSize : ℕ} {c : Commit} {ts : List TagEntry}
    (hcrc : ∀ t ∈ ts, t.tagType.isCcrc = false) (hroom : c.offset + tagsSize ts ≤ blockSize) :
    c.addTags blockSize ts = .ok ⟨c.offset + tagsSize ts, c.tags ++ ts⟩ ↔
      ∀ t ∈ ts, t.body.length < lenSpecial := by
  constructor
  · intro h t ht
    exact Nat.lt_of_le_of_lt ((addTags_eq_ok h).2 t ht).2 (by decide)
  · intro h
    induction ts generalizing c with
    | nil => simp [addTags]
    | cons t ts ih =>
        have hlen := h t List.mem_cons_self
        have hone : c.tag blockSize t = .ok ⟨c.offset + t.dsize, c.tags ++ [t]⟩ := by
          rw [tagsSize_cons] at hroom
          unfold tag
          rw [if_neg (by simp [hcrc t List.mem_cons_self]), if_neg (by omega), if_neg (by omega)]
        have hrest := ih (c := ⟨c.offset + t.dsize, c.tags ++ [t]⟩)
          (fun u hu => hcrc u (List.mem_cons_of_mem t hu))
          (by rw [tagsSize_cons] at hroom; simp only; omega)
          (fun u hu => h u (List.mem_cons_of_mem t hu))
        rw [addTags, hone]
        simpa [Except.bind, Nat.add_assoc] using hrest

end Commit

end LittlefsPure
