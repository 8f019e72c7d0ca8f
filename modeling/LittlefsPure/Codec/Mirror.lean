import LittlefsPure.Codec.Passed
import LittlefsPure.Logic.Iterate

/-!
# Both directions of a log

`TagIter` decodes a tag with the one before it and flips the valid bit behind a commit CRC;
`TagIterRev` starts from the last base and decodes each tag with the one behind it, the
valid bit masked.  Whatever a block holds, the second yields what the first does, from the
end on.

## Why no hypothesis

The forward iterator decides what has been passed, and the backward one is started from its end.
Whatever the first has yielded, each tag names the one before it by an exclusive or that is its own
inverse, and the length in a tag says how far back it begins.  Nothing about the block is used, so
the result holds for garbage as it does for logs.
-/

namespace LittlefsPure.Codec

open Logic

variable {block : List Byte} {r : MetadataReader} {es : List RawEntry}

/-- The iterator that `iter_tags` starts. -/
def MetadataReader.forward (r : MetadataReader) : TagIter := ⟨r.block, 0, r.committedEnd, .erased⟩

/-- The iterator that `iter_tags_rev` starts. -/
def MetadataReader.backward (r : MetadataReader) : TagIterRev :=
    ⟨r.block, r.committedEnd, r.nextPtag⟩

/-- Where the next tag of the forward iterator begins. -/
def TagIter.pos (it : TagIter) : ℕ := it.offset + it.ptag.dsize

/-- A turn of the forward iterator moves on by the entry it yields. -/
theorem TagIter.next_pos {it it' : TagIter} {e : RawEntry} (he : e.Sized)
    (h : it.next = some (e, it')) : it'.pos = it.pos + e.size := by
  rw [TagIter.next, Option.map_eq_some_iff] at h
  obtain ⟨⟨off, tag⟩, hnext, h⟩ := h
  cases h
  obtain ⟨rfl, hvalid, -⟩ := nextTag_eq_some hnext
  rw [he.size]
  show it.offset + it.ptag.dsize + tag.perturb.dsize = _
  rw [Tag.dsize_perturb hvalid]
  rfl

/-- A turn of the backward iterator moves back by the entry it yields. -/
theorem TagIterRev.next_off {it it' : TagIterRev} {e : RawEntry} (he : e.Sized)
    (h : it.next = some (e, it')) : it.off = it'.off + e.size := by
  simp only [TagIterRev.next] at h
  split_ifs at h with hroom
  cases h
  rw [he.size]
  show it.off = it.off - (⟨it.ntag.bits &&& mask⟩ : Tag).dsize +
      (⟨it.ntag.bits &&& mask⟩ : Tag).dsize
  omega

namespace MetadataReader

/-- The entries of a log as both iterators yield them. -/
structure Mirrors (r : MetadataReader) (es : List RawEntry) (last : TagIter) (first : TagIterRev) :
    Prop where
  forward : Yields TagIter.next r.forward es last
  backward : Yields TagIterRev.next r.backward es.reverse first
  /-- The forward iterator ends where the last verified commit does. -/
  committedEnd : es ≠ [] → last.pos = r.committedEnd
  /-- The backward iterator ends at the revision header. -/
  header : es ≠ [] → first.off = 4
  empty : es = [] ↔ r.committedEnd = 0
  inside : r.committedEnd ≤ r.block.length

theorem Decodes.inside (h : r.Decodes block es) : r.committedEnd ≤ r.block.length := by
  obtain ⟨rest, himage⟩ := h.image
  have hlen := congrArg List.length himage
  rw [List.length_drop, List.length_append, length_encode] at hlen
  rw [h.committedEnd, h.bytes]
  split_ifs with hnil
  · exact Nat.zero_le _
  · have hpos : 0 < runSize es := by
      obtain ⟨e, es, rfl⟩ := List.exists_cons_of_ne_nil hnil
      rw [runSize_cons, RawEntry.size]
      omega
    omega

theorem Decodes.yields (h : r.Decodes block es) :
    ∃ last, Yields TagIter.next r.forward es last := by
  refine Yields.of_collect TagIter.collect (fun n it hnone => ?_) (fun n it e it' hsome => ?_)
    fun fuel => ?_
  · rw [TagIter.collect, hnone]
  · rw [TagIter.collect, hsome]
  obtain ⟨rest, himage⟩ := h.image
  rw [MetadataReader.forward, h.bytes, h.committedEnd]
  by_cases hnil : es = []
  · subst hnil
    exact collect_no_commits _
  · have hread := collect_encode h.sized fuel
      (show block.drop (0 + Tag.erased.dsize) = encode Tag.erased es ++ rest from himage)
    rw [dsize_erased] at hread
    rw [if_neg hnil]
    exact hread

theorem Decodes.yieldsRev (h : r.Decodes block es) :
    ∃ first, Yields TagIterRev.next r.backward es.reverse first := by
  refine Yields.of_collect TagIterRev.collect (fun n it hnone => ?_)
    (fun n it e it' hsome => ?_) fun fuel => ?_
  · rw [TagIterRev.collect, hnone]
  · rw [TagIterRev.collect, hsome]
  obtain ⟨rest, himage⟩ := h.image
  rw [MetadataReader.backward, h.bytes, h.committedEnd, h.nextPtag, List.length_reverse]
  by_cases hnil : es = []
  · subst hnil
    exact collect_rev_no_commits _
  · rw [if_neg hnil]
    exact collect_rev_encode h.sized himage rfl fuel

theorem Decodes.mirrors (h : r.Decodes block es) : ∃ last first, r.Mirrors es last first := by
  obtain ⟨last, hforward⟩ := h.yields
  obtain ⟨first, hbackward⟩ := h.yieldsRev
  refine ⟨last, first, hforward, hbackward, fun hne => ?_, fun hne => ?_, ?_, h.inside⟩
  · have hpos := hforward.gains h.sized fun _ _ _ => TagIter.next_pos
    rw [hpos, h.committedEnd, if_neg hne, TagIter.pos, MetadataReader.forward, dsize_erased]
    rfl
  · have hsized : ∀ e ∈ es.reverse, e.Sized := fun e he => h.sized e (List.mem_reverse.1 he)
    have hoff := hbackward.spends TagIterRev.off hsized fun _ _ _ => TagIterRev.next_off
    have hsum : (es.reverse.map RawEntry.size).sum = runSize es := by
      rw [List.map_reverse, List.sum_reverse]
      rfl
    have hstart : r.backward.off = 4 + runSize es := by
      rw [MetadataReader.backward, h.committedEnd, if_neg hne]
    omega
  · rw [h.committedEnd]
    by_cases hnil : es = []
    · simp [hnil]
    · simp [hnil]

end MetadataReader

/-- On a block of any bytes the backward iterator yields what the forward one does, in reversed
order, with the same tags and bodies. -/
theorem reverse_mirrors_forward (block : List Byte) :
    block.length < 4 ∧ MetadataReader.new block = .error .corrupt ∨
      ∃ r es last first, MetadataReader.new block = .ok r ∧ r.Mirrors es last first := by
  by_cases hshort : block.length < 4
  · exact .inl ⟨hshort, if_pos hshort⟩
  · cases hnew : MetadataReader.new block with
    | error e =>
        rw [MetadataReader.new, if_neg hshort] at hnew
        cases hnew
    | ok r =>
        obtain ⟨es, hdecodes⟩ := new_decodes hnew
        obtain ⟨last, first, hmirrors⟩ := hdecodes.mirrors
        exact .inr ⟨r, es, last, first, rfl, hmirrors⟩

end LittlefsPure.Codec
