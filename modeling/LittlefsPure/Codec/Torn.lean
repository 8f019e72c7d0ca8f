import LittlefsPure.Codec.Writes

/-!
# Torn commits

What the reader makes of a block whose last commit was cut off: some bytes of the commit,
then erased cells.  `Walk.turn` is one turn of the loop.  As long as no check passes behind
the log, the reader finds the log as it was (`walk_stops`); and a stored checksum that is cut
off is whole, or is another word (`torn_word`).

## Why erased cells stop the reader

Behind the last byte of a torn commit the block is erased, and a word of erased cells combined with
the tag before it is a word whose valid bit says that there is no tag.  A torn tag is partly
written and partly erased; it may read as a tag, of some other type or length, and then its body
reaches into the erased cells or past the end.  Either way no checksum is met that was written.
-/

namespace LittlefsPure.Codec

/-! ## Turns of the loop -/

section Turns

variable {block : List Byte} {w : Walk}

/-- One turn of the loop; none where it ends. -/
def Walk.turn (block : List Byte) (w : Walk) : Option Walk :=
  (nextTag block block.length w.off w.ptag).bind fun (off, tag) =>
    let crc := Crc.update w.runningCrc ((block.drop off).take 4)
    if tag.isCcrc then
      if tag.bodyLen < 4 then none
      else if crc ≠ leWord (block.drop (off + 4)) then none
      else some (w.verify off tag)
    else some (w.pass off tag crc (bodyAt block off tag))

theorem walk_succ (fuel : ℕ) (w : Walk) :
    walk block (fuel + 1) w = (w.turn block).elim w (walk block fuel) := by
  rw [walk, Walk.turn]
  cases nextTag block block.length w.off w.ptag with
  | none => rfl
  | some x =>
      obtain ⟨off, tag⟩ := x
      simp only [Option.bind_some]
      split_ifs <;> rfl

theorem walk_of_turn_none (h : w.turn block = none) (fuel : ℕ) : walk block fuel w = w := by
  cases fuel with
  | zero => rw [walk]
  | succ fuel => rw [walk_succ, h, Option.elim_none]

/-- The loop goes on from where it was. -/
theorem walk_add (n fuel : ℕ) (w : Walk) :
    walk block (n + fuel) w = walk block fuel (walk block n w) := by
  induction n generalizing w with
  | zero => rw [Nat.zero_add, walk]
  | succ n ih =>
      rw [Nat.add_right_comm, walk_succ, walk_succ]
      cases hturn : w.turn block with
      | none => rw [Option.elim_none, Option.elim_none, walk_of_turn_none hturn]
      | some w' => rw [Option.elim_some, Option.elim_some, ih]

/-- What a tag that a loop goes on with is like. -/
theorem nextTag_eq_some {limit off k : ℕ} {ptag tag : Tag}
    (h : nextTag block limit off ptag = some (k, tag)) :
    k = off + ptag.dsize ∧ tag.isValid = true ∧ k + tag.dsize ≤ limit ∧
      tag.bits ^^^ ptag.bits = beWord (block.drop k) := by
  simp only [nextTag] at h
  split_ifs at h with h1 h2 h3
  cases h
  refine ⟨rfl, h2, Nat.le_of_not_lt h3, ?_⟩
  rw [BitVec.xor_assoc, BitVec.xor_self, BitVec.xor_zero]

/-- A turn verifies a commit, or takes in a tag. -/
theorem turn_cases {w' : Walk} (h : w.turn block = some w') :
    (∃ tag, w.Verifies block w.pos tag ∧ w' = w.verify w.pos tag) ∨
      ∃ tag, nextTag block block.length w.off w.ptag = some (w.pos, tag) ∧ tag.isCcrc = false ∧
        w' = w.pass w.pos tag (Crc.update w.runningCrc ((block.drop w.pos).take 4))
          (bodyAt block w.pos tag) := by
  obtain ⟨⟨k, tag⟩, hnext, hturn⟩ := Option.bind_eq_some_iff.1 h
  obtain ⟨rfl, -⟩ := nextTag_eq_some hnext
  simp only at hturn
  split_ifs at hturn with hccrc hshort hcrc
  · cases hturn
    exact .inl ⟨tag, ⟨hnext, hccrc, Nat.le_of_not_lt hshort, not_not.1 hcrc⟩, rfl⟩
  · cases hturn
    exact .inr ⟨tag, hnext, Bool.eq_false_iff.2 hccrc, rfl⟩

/-- Where no check passes, the loop verifies nothing. -/
theorem walk_stops (h : ∀ n k tag, ¬ (walk block n w).Verifies block k tag) (fuel : ℕ) :
    Walk.SameEnd w (walk block fuel w) := by
  induction fuel generalizing w with
  | zero => exact .refl
  | succ fuel ih =>
      rw [walk_succ]
      cases hturn : w.turn block with
      | none => exact .refl
      | some w' =>
          have hrest : ∀ n k tag, ¬ (walk block n w').Verifies block k tag := by
            intro n k tag hverifies
            refine h (n + 1) k tag ?_
            rw [walk_succ, hturn]
            exact hverifies
          rcases turn_cases hturn with ⟨tag, hverifies, -⟩ | ⟨tag, -, -, rfl⟩
          · exact absurd hverifies (h 0 _ tag)
          · exact Walk.SameEnd.pass.trans (ih hrest)

/-- The loop does not go back. -/
theorem pos_le_walk (fuel : ℕ) (w : Walk) : w.pos ≤ (walk block fuel w).pos := by
  induction fuel generalizing w with
  | zero => exact Nat.le_refl _
  | succ fuel ih =>
      rw [walk_succ]
      cases hturn : w.turn block with
      | none => exact Nat.le_refl _
      | some w' =>
          have hstep : w.pos ≤ w'.pos := by
            rcases turn_cases hturn with ⟨tag, -, rfl⟩ | ⟨tag, -, -, rfl⟩
            · exact Nat.le_add_right _ _
            · exact Nat.le_add_right _ _
          exact hstep.trans (ih w')

/-- What is verified stays verified. -/
theorem committedEnd_le_walk (h : w.committedEnd ≤ w.pos) (fuel : ℕ) :
    w.committedEnd ≤ (walk block fuel w).committedEnd := by
  induction fuel generalizing w with
  | zero => exact Nat.le_refl _
  | succ fuel ih =>
      rw [walk_succ]
      cases hturn : w.turn block with
      | none => exact Nat.le_refl _
      | some w' =>
          rcases turn_cases hturn with ⟨tag, hverifies, rfl⟩ | ⟨tag, -, -, rfl⟩
          · have hvalid := (nextTag_eq_some hverifies.next).2.1
            have hend : (w.verify w.pos tag).committedEnd = (w.verify w.pos tag).pos := by
              show w.pos + tag.dsize = w.pos + tag.perturb.dsize
              rw [Tag.dsize_perturb hvalid]
            have hgrows : w.committedEnd ≤ (w.verify w.pos tag).committedEnd :=
              h.trans (Nat.le_add_right _ _)
            exact hgrows.trans (ih (Nat.le_of_eq hend))
          · have hkeeps := h.trans (Nat.le_add_right w.pos tag.dsize)
            exact ih (w := w.pass _ tag _ _) hkeeps

end Turns
/-! ## The word of a checksum -/

theorem four_bytes {bytes : List Byte} (h : 4 ≤ bytes.length) :
    ∃ b0 b1 b2 b3 rest, bytes = b0 :: b1 :: b2 :: b3 :: rest := by
  rcases bytes with _ | ⟨b0, _ | ⟨b1, _ | ⟨b2, _ | ⟨b3, rest⟩⟩⟩⟩
  · simp at h
  · simp at h
  · simp at h
  · simp at h
  · exact ⟨b0, b1, b2, b3, rest, rfl⟩

theorem toLe_leWord {bytes : List Byte} (h : 4 ≤ bytes.length) :
    toLe (leWord bytes) = bytes.take 4 := by
  obtain ⟨b0, b1, b2, b3, rest, rfl⟩ := four_bytes h
  have hbyte : ∀ b : Byte, b.toNat < 256 := fun b => b.isLt
  have h0 := hbyte b0
  have h1 := hbyte b1
  have h2 := hbyte b2
  have h3 := hbyte b3
  have hword : (leWord (b0 :: b1 :: b2 :: b3 :: rest)).toNat =
      b0.toNat + 0x100 * b1.toNat + 0x10000 * b2.toNat + 0x1000000 * b3.toNat := by
    simp only [leWord, ofLe32, List.getD_cons_zero, List.getD_cons_succ, BitVec.toNat_ofNat]
    omega
  simp only [toLe, hword, le32, List.take_succ_cons, List.take_zero, List.cons.injEq, and_true]
  refine ⟨?_, ?_, ?_, ?_⟩
  · apply BitVec.eq_of_toNat_eq
    simp only [BitVec.toNat_ofNat]
    omega
  · apply BitVec.eq_of_toNat_eq
    simp only [BitVec.toNat_ofNat]
    omega
  · apply BitVec.eq_of_toNat_eq
    simp only [BitVec.toNat_ofNat]
    omega
  · apply BitVec.eq_of_toNat_eq
    simp only [BitVec.toNat_ofNat]
    omega

/-- A checksum that is padded with erased cells, cut off anywhere, is whole or has another
word. -/
theorem torn_word {x : BitVec 32} {p j n : ℕ} (hroom : 4 + p ≤ min j (4 + p) + n)
    (h : leWord ((toLe x ++ List.replicate p 0xFF).take j ++ List.replicate n 0xFF) = x) :
    ∃ n', (toLe x ++ List.replicate p (0xFF : Byte)).take j ++ List.replicate n 0xFF =
      toLe x ++ List.replicate p 0xFF ++ List.replicate n' 0xFF := by
  have hbody : (toLe x ++ List.replicate p (0xFF : Byte)).length = 4 + p := by
    rw [List.length_append, length_toLe, List.length_replicate]
  have hlen : ((toLe x ++ List.replicate p (0xFF : Byte)).take j ++
      List.replicate n 0xFF).length = min j (4 + p) + n := by
    rw [List.length_append, List.length_take, hbody, List.length_replicate]
  have htake := @toLe_leWord ((toLe x ++ List.replicate p 0xFF).take j ++
    List.replicate n 0xFF) (by omega)
  rw [h] at htake
  have hdrop : ∃ q, ((toLe x ++ List.replicate p (0xFF : Byte)).take j ++
      List.replicate n 0xFF).drop 4 = List.replicate q 0xFF := by
    have hpad : (toLe x ++ List.replicate p (0xFF : Byte)).drop 4 = List.replicate p 0xFF :=
      List.drop_left' rfl
    rw [List.drop_append, List.drop_take, hpad, List.take_replicate, List.drop_replicate,
      List.replicate_append_replicate]
    exact ⟨_, rfl⟩
  obtain ⟨q, hq⟩ := hdrop
  have hcells := List.take_append_drop 4 ((toLe x ++ List.replicate p (0xFF : Byte)).take j ++
    List.replicate n 0xFF)
  rw [hq, ← htake] at hcells
  have hq' : 4 + q = min j (4 + p) + n := by
    have hlen' := congrArg List.length hcells
    rw [hlen, List.length_append, length_toLe, List.length_replicate] at hlen'
    exact hlen'
  refine ⟨q - p, ?_⟩
  rw [← hcells, List.append_assoc, List.replicate_append_replicate]
  congr 2
  omega

end LittlefsPure.Codec
