import LittlefsPure.Codec.Builder
import LittlefsPure.Codec.Log
import LittlefsPure.Logic.Except

/-!
# What the builder writes

The builder writes into erased cells, so its buffer is at every moment the revision, the
image of the entries so far, and erased cells.  `Recipe.commit` is the commit a recipe
makes behind a given offset, base and checksum: its tags, the forward CRC if there is room
for one, and the commit CRC.  `write_builds` is the step and `writeMore_builds` the run.

## Why the recipe comes first

What a commit looks like depends on where it begins: the padding reaches to the next program
boundary, and the forward CRC is there only if it has room.  `Recipe.commit` computes the commit
from the offset alone, before anything is written, so that the step lemma can say that the buffer
afterwards holds this and nothing else.
-/

namespace LittlefsPure.Codec

open Logic

/-- Bytes put behind others into erased cells. -/
theorem put_behind (pre bytes : List Byte) (n : ℕ) :
    put (pre ++ List.replicate n 0xFF) pre.length bytes =
      pre ++ bytes ++ List.replicate (n - bytes.length) 0xFF := by
  have htake : (pre ++ List.replicate n (0xFF : Byte)).take pre.length = pre := List.take_left' rfl
  have hdrop : (pre ++ List.replicate n (0xFF : Byte)).drop (pre.length + bytes.length) =
      List.replicate (n - bytes.length) 0xFF := by
    rw [← List.drop_drop, List.drop_left' rfl, List.drop_replicate]
  rw [put, htake, hdrop]

/-! ## Recipes -/

namespace Recipe

/-- The forward CRC of a commit whose tags end at an offset. -/
def fcrcOf (r : Recipe) (off : ℕ) : List RawEntry :=
  match r.closing with
  | .finish _ => []
  | .finishPadded _ progSize blockSize =>
      if progSize = 0 then []
      else Commit.fcrcEntries off (Commit.paddedEnd off progSize blockSize) progSize blockSize

/-- The length of the commit CRC of a commit whose tags end at an offset. -/
def ccrcLen (r : Recipe) (off : ℕ) : ℕ :=
  match r.closing with
  | .finish _ => 4
  | .finishPadded _ progSize blockSize =>
      if progSize = 0 then 4
      else Commit.paddedEnd off progSize blockSize - (off + runSize (r.fcrcOf off)) - 4

/-- A commit with its checksum: the commit CRC holds the checksum of the entries and of its
own tag, then erased cells. -/
def sealed (entries : List RawEntry) (chunk bodyLen : ℕ) (ptag : Tag) (crc : BitVec 32) :
    RawCommit where
  entries := entries
  ccrc :=
    ⟨Commit.ccrcTag chunk bodyLen,
      toLe (Crc.update crc (encode ptag entries ++
        toBe ((Commit.ccrcTag chunk bodyLen).bits ^^^ (baseAfter ptag entries).bits))) ++
        List.replicate (bodyLen - 4) 0xFF⟩

/-- The commit a recipe makes. -/
def commit (r : Recipe) (off : ℕ) (ptag : Tag) (crc : BitVec 32) : RawCommit :=
  sealed (r.tags ++ r.fcrcOf (off + runSize r.tags)) r.closing.chunk
    (r.ccrcLen (off + runSize r.tags)) ptag crc

/-- A recipe with valid tags and a chunk of seven bits. -/
structure Valid (r : Recipe) : Prop where
  tags : ∀ e ∈ r.tags, e.tag.isValid = true
  chunk : r.closing.chunk ≤ 0x7f

theorem sealed_sound {entries : List RawEntry} {chunk bodyLen : ℕ} {ptag : Tag} {crc : BitVec 32}
    (hentries : ∀ e ∈ entries, e.Plain) (hchunk : chunk ≤ 0x7f) (hroom : 4 ≤ bodyLen)
    (hlen : bodyLen ≤ 0x3FE) : (sealed entries chunk bodyLen ptag crc).Sound ptag crc := by
  have hdomain : (TagType.commitCrc chunk).InDomain := Nat.lt_succ_of_le hchunk
  have hbody : (Commit.ccrcTag chunk bodyLen).bodyLen = bodyLen := Tag.bodyLen_new hdomain hlen
  constructor
  · exact hentries
  · refine ⟨Tag.isValid_new hdomain, ?_⟩
    show (_ ++ _ : List Byte).length = (Commit.ccrcTag chunk bodyLen).bodyLen
    rw [hbody, List.length_append, length_toLe, List.length_replicate]
    omega
  · show (Commit.ccrcTag chunk bodyLen).tagType.isCcrc = true
    rw [Commit.ccrcTag, Tag.tagType_new hdomain]
    rfl
  · exact hbody.symm ▸ hroom
  · exact leWord_toLe_append _ _

theorem sealed_ccrc_perturb {entries : List RawEntry} {chunk bodyLen : ℕ} {ptag : Tag}
    {crc : BitVec 32} (hchunk : chunk ≤ 0x7f) :
    (sealed entries chunk bodyLen ptag crc).ccrc.tag.perturb =
      ⟨(Commit.ccrcTag chunk bodyLen).bits ^^^ BitVec.ofNat 32 (chunk % 2 * 0x80000000)⟩ := by
  have hdomain : (TagType.commitCrc chunk).InDomain := Nat.lt_succ_of_le hchunk
  have htype : (Commit.ccrcTag chunk bodyLen).tagType = .commitCrc chunk := Tag.tagType_new hdomain
  have hccrc : (Commit.ccrcTag chunk bodyLen).ccrcChunk = some chunk := by
    rw [Tag.ccrcChunk, htype]
  show (Commit.ccrcTag chunk bodyLen).perturb = _
  rw [Tag.perturb, hccrc]

end Recipe

namespace Commit

/-- The builder has written these entries behind the revision, into erased cells. -/
structure Builds (c : Commit) (size : ℕ) (revision : BitVec 32) (es : List RawEntry) : Prop where
  buf : c.buf = toLe revision ++ encode .erased es ++ List.replicate (size - c.offset) 0xFF
  offset : c.offset = 4 + runSize es
  fits : c.offset ≤ size
  ptag : c.ptag = baseAfter .erased es

section Builds

variable {c c' : Commit} {size : ℕ} {revision : BitVec 32} {es : List RawEntry}

theorem Builds.length (h : c.Builds size revision es) : c.buf.length = size := by
  have hfits := h.fits
  have hoffset := h.offset
  rw [h.buf, List.length_append, List.length_append, length_toLe, length_encode,
    List.length_replicate]
  omega

/-- What a builder writes at its offset. -/
theorem Builds.put (h : c.Builds size revision es) (bytes : List Byte) :
    put c.buf c.offset bytes = toLe revision ++ encode .erased es ++ bytes ++
      List.replicate (size - (c.offset + bytes.length)) 0xFF := by
  have hlen : (toLe revision ++ encode .erased es).length = c.offset := by
    rw [List.length_append, length_toLe, length_encode, h.offset]
  have hput := put_behind (toLe revision ++ encode .erased es) bytes (size - c.offset)
  rw [hlen] at hput
  rw [h.buf, hput, Nat.sub_sub]

/-- A tag word and what follows it, written one behind the other. -/
theorem Builds.put_put (h : c.Builds size revision es) (raw body : List Byte)
    (hraw : raw.length = 4) :
    Codec.put (Codec.put c.buf c.offset raw) (c.offset + 4) body =
      toLe revision ++ encode .erased es ++ raw ++ body ++
        List.replicate (size - (c.offset + 4 + body.length)) 0xFF := by
  have hlen : (toLe revision ++ encode .erased es ++ raw).length = c.offset + 4 := by
    rw [List.length_append, List.length_append, length_toLe, length_encode, h.offset, hraw]
  have hput := put_behind (toLe revision ++ encode .erased es ++ raw) body (size - (c.offset + 4))
  rw [hlen] at hput
  rw [h.put, hraw, hput, Nat.sub_sub]

theorem new_builds (h : new (List.replicate size 0xFF) revision = .ok c) :
    c.Builds size revision [] ∧ c.crc = Crc.update Crc.init (toLe revision) := by
  rw [new] at h
  split_ifs at h with hsize
  cases h
  rw [List.length_replicate] at hsize
  have hput := put_behind [] (toLe revision) size
  rw [List.nil_append, List.nil_append, List.length_nil] at hput
  have hfits : 4 ≤ size := by omega
  refine ⟨⟨?_, rfl, hfits, rfl⟩, ?_⟩
  · show Codec.put _ 0 _ = _
    rw [hput, encode, List.append_nil]
    rfl
  · show Crc.update Crc.init ((Codec.put _ 0 _).take 4) = _
    rw [hput]
    exact congrArg _ (List.take_left' rfl)

theorem tag_builds (h : c.Builds size revision es) {e : RawEntry} (hvalid : e.tag.isValid = true)
    (htag : c.tag e = .ok c') :
    e.Plain ∧ c'.Builds size revision (es ++ [e]) ∧
      c'.crc = Crc.update c.crc (encode c.ptag [e]) := by
  rw [tag] at htag
  split_ifs at htag with hccrc hbody hroom
  cases htag
  have hplain : e.Plain := ⟨hvalid, Bool.eq_false_iff.2 hccrc, not_not.1 hbody⟩
  rw [h.length] at hroom
  refine ⟨hplain, ⟨?_, ?_, Nat.le_of_not_lt hroom, ?_⟩, ?_⟩
  · have hput := h.put_put (toBe (e.tag.bits ^^^ c.ptag.bits)) e.body rfl
    have hsize : c.offset + 4 + e.body.length = c.offset + e.tag.dsize := by
      rw [Tag.dsize, hplain.body, Nat.add_assoc]
    rw [hsize, h.ptag] at hput
    rw [h.ptag, encode_append]
    simp only [encode, List.append_nil, List.append_assoc] at hput ⊢
    exact hput
  · rw [runSize_append, runSize_cons, runSize_nil, hplain.size, ← Nat.add_assoc, ← h.offset]
    rfl
  · rw [baseAfter_append]
    exact (Tag.perturb_plain hplain.notCcrc).symm
  · simp only [encode, List.append_nil]
    rw [Crc.update_append]

theorem addTags_builds {ts : List RawEntry} (h : c.Builds size revision es)
    (hvalid : ∀ e ∈ ts, e.tag.isValid = true) (htags : c.addTags ts = .ok c') :
    (∀ e ∈ ts, e.Plain) ∧ c'.Builds size revision (es ++ ts) ∧
      c'.crc = Crc.update c.crc (encode c.ptag ts) := by
  induction ts generalizing c es with
  | nil =>
      cases htags
      rw [List.append_nil]
      exact ⟨fun e he => absurd he List.not_mem_nil, h, rfl⟩
  | cons e ts ih =>
      cases htag : c.tag e with
      | error err =>
          rw [addTags, htag] at htags
          cases htags
      | ok c₁ =>
          rw [addTags, htag] at htags
          obtain ⟨hplain, hbuilds, hcrc⟩ := tag_builds h (hvalid e (List.mem_cons_self ..)) htag
          obtain ⟨hrest, hbuilds', hcrc'⟩ :=
            ih hbuilds (fun e' he' => hvalid e' (List.mem_cons_of_mem _ he')) htags
          have hptag : c₁.ptag = baseAfter c.ptag [e] := by
            rw [hbuilds.ptag, baseAfter_append, h.ptag]
          refine ⟨?_, ?_, ?_⟩
          · intro e' he'
            rcases List.mem_cons.1 he' with rfl | he'
            · exact hplain
            · exact hrest e' he'
          · rw [List.append_assoc] at hbuilds'
            exact hbuilds'
          · have hsplit := encode_append c.ptag [e] ts
            rw [List.singleton_append] at hsplit
            rw [hcrc', hcrc, hptag, hsplit, Crc.update_append]

/-- A commit CRC written behind entries makes a commit of them. -/
theorem putCcrc_builds (h : c.Builds size revision es) (entries : List RawEntry) (ptag : Tag)
    (crc : BitVec 32) {chunk bodyLen stop : ℕ} (hchunk : chunk ≤ 0x7f) (hroom : 4 ≤ bodyLen)
    (hstop : stop = c.offset + 4 + bodyLen) (hfits : stop ≤ size)
    (hptag : c.ptag = baseAfter ptag entries)
      (hcrc : c.crc = Crc.update crc (encode ptag entries)) :
    (c.putCcrc chunk bodyLen stop).Builds size revision
      (es ++ [(Recipe.sealed entries chunk bodyLen ptag crc).ccrc]) := by
  have hsum : Crc.update c.crc (toBe ((ccrcTag chunk bodyLen).bits ^^^ c.ptag.bits)) =
      Crc.update crc (encode ptag entries ++
        toBe ((ccrcTag chunk bodyLen).bits ^^^ (baseAfter ptag entries).bits)) := by
    rw [Crc.update_append, ← hcrc, hptag]
  have hsize : (Recipe.sealed entries chunk bodyLen ptag crc).ccrc.size = 4 + bodyLen := by
    show 4 + (_ ++ _ : List Byte).length = _
    rw [List.length_append, length_toLe, List.length_replicate]
    omega
  refine ⟨?_, ?_, hfits, ?_⟩
  · have hput := h.put_put (toBe ((ccrcTag chunk bodyLen).bits ^^^ c.ptag.bits))
      (toLe (Crc.update c.crc (toBe ((ccrcTag chunk bodyLen).bits ^^^ c.ptag.bits)))) rfl
    show Codec.put (Codec.put c.buf c.offset _) (c.offset + 4) _ = _
    -- the padding of the commit CRC is erased cells
    have hpad : List.replicate (size - (c.offset + 4 + 4)) (0xFF : Byte) =
        List.replicate (bodyLen - 4) 0xFF ++ List.replicate (size - stop) 0xFF := by
      rw [List.replicate_append_replicate]
      congr 1
      omega
    rw [length_toLe, hpad, hsum] at hput
    rw [hsum, encode_append, ← h.ptag]
    simp only [Recipe.sealed, encode, List.append_nil, List.append_assoc] at hput ⊢
    exact hput
  · rw [runSize_append, runSize_cons, runSize_nil, hsize, Nat.add_zero, ← Nat.add_assoc, ← h.offset,
      ← Nat.add_assoc]
    exact hstop
  · rw [baseAfter_append]
    exact (Recipe.sealed_ccrc_perturb hchunk).symm

theorem fcrcEntry_valid (progSize : ℕ) : (fcrcEntry progSize).tag.isValid = true :=
  Tag.isValid_new trivial

theorem runSize_fcrcEntries (off stop progSize blockSize : ℕ) :
    runSize (fcrcEntries off stop progSize blockSize) = 0 ∨
      runSize (fcrcEntries off stop progSize blockSize) = 12 ∧ off + 20 ≤ stop := by
  rw [fcrcEntries]
  split_ifs with h
  · exact .inr ⟨rfl, h.1⟩
  · exact .inl rfl

/-- The builder inside a commit: it has written some entries of it, behind a base and with a
checksum started before them. -/
structure Within (c : Commit) (size : ℕ) (revision : BitVec 32) (es : List RawEntry) (ptag : Tag)
    (crc : BitVec 32) (entries : List RawEntry) : Prop where
  plain : ∀ e ∈ entries, e.Plain
  builds : c.Builds size revision (es ++ entries)
  base : c.ptag = baseAfter ptag entries
  sum : c.crc = Crc.update crc (encode ptag entries)

section Within

variable {ptag : Tag} {crc : BitVec 32} {entries : List RawEntry}

theorem Within.addTags {ts : List RawEntry} (h : c.Within size revision es ptag crc entries)
    (hvalid : ∀ e ∈ ts, e.tag.isValid = true) (htags : c.addTags ts = .ok c') :
    c'.Within size revision es ptag crc (entries ++ ts) := by
  obtain ⟨hplain, hbuilds, hcrc⟩ := addTags_builds h.builds hvalid htags
  rw [List.append_assoc] at hbuilds
  refine ⟨?_, hbuilds, ?_, ?_⟩
  · intro e he
    rcases List.mem_append.1 he with he | he
    · exact h.plain e he
    · exact hplain e he
  · rw [hbuilds.ptag, ← List.append_assoc, baseAfter_append, ← h.builds.ptag, h.base,
      baseAfter_append]
  · rw [hcrc, h.sum, h.base, encode_append, Crc.update_append]

/-- What a close of the commit leaves. -/
def Closed (c : Commit) (size : ℕ) (revision : BitVec 32) (es : List RawEntry) (ptag : Tag)
    (crc : BitVec 32) (rc : RawCommit) : Prop :=
  rc.Sound ptag crc ∧ c.Builds size revision (es ++ rc.all) ∧ c.crc = Crc.init

theorem Within.putCcrc (h : c.Within size revision es ptag crc entries) {chunk bodyLen stop : ℕ}
    (hchunk : chunk ≤ 0x7f) (hroom : 4 ≤ bodyLen) (hlen : bodyLen ≤ 0x3FE)
    (hstop : stop = c.offset + 4 + bodyLen) (hfits : stop ≤ size) :
    (c.putCcrc chunk bodyLen stop).Closed size revision es ptag crc
      (Recipe.sealed entries chunk bodyLen ptag crc) := by
  have hbuilds := putCcrc_builds h.builds entries ptag crc hchunk hroom hstop hfits h.base h.sum
  rw [List.append_assoc] at hbuilds
  exact ⟨Recipe.sealed_sound h.plain hchunk hroom hlen, hbuilds, rfl⟩

theorem Within.finish (h : c.Within size revision es ptag crc entries) {chunk : ℕ}
    (hchunk : chunk ≤ 0x7f) (hclose : c.finish chunk = .ok c') :
    c'.Closed size revision es ptag crc (Recipe.sealed entries chunk 4 ptag crc) := by
  rw [Commit.finish, h.builds.length] at hclose
  split_ifs at hclose with hroom
  cases hclose
  exact h.putCcrc hchunk (Nat.le_refl 4) (by decide) rfl (Nat.le_of_not_lt hroom)

theorem Within.finishPadded (h : c.Within size revision es ptag crc entries)
    {chunk progSize blockSize : ℕ} (hchunk : chunk ≤ 0x7f) (hprog : progSize ≠ 0)
    (hclose : c.finishPadded chunk progSize blockSize = .ok c') :
    c'.Closed size revision es ptag crc (Recipe.sealed
      (entries ++ fcrcEntries c.offset (paddedEnd c.offset progSize blockSize) progSize blockSize)
      chunk
      (paddedEnd c.offset progSize blockSize - (c.offset + runSize
        (fcrcEntries c.offset (paddedEnd c.offset progSize blockSize) progSize blockSize)) - 4)
      ptag crc) := by
  simp only [Commit.finishPadded, if_neg hprog] at hclose
  generalize paddedEnd c.offset progSize blockSize = stop at hclose ⊢
  split_ifs at hclose with hblock hsmall
  obtain ⟨c₁, htags, hclose⟩ := bind_eq_ok.1 hclose
  have hsize := runSize_fcrcEntries c.offset stop progSize blockSize
  have h₁ : c₁.Within size revision es ptag crc
      (entries ++ fcrcEntries c.offset stop progSize blockSize) := by
    refine h.addTags (fun e he => ?_) htags
    rw [fcrcEntries] at he
    split_ifs at he
    · rw [List.mem_singleton.1 he]
      exact fcrcEntry_valid progSize
    · cases he
  have hoffset : c₁.offset =
      c.offset + runSize (fcrcEntries c.offset stop progSize blockSize) := by
    rw [h₁.builds.offset, h.builds.offset, ← List.append_assoc, runSize_append (es ++ entries),
      Nat.add_assoc]
  rw [← hoffset]
  have hstop : c₁.offset + 8 ≤ stop := by
    rw [hoffset]
    omega
  split_ifs at hclose with hlong hroom
  cases hclose
  rw [h₁.builds.length] at hroom
  exact h₁.putCcrc hchunk (by omega) (by omega) (by omega) (by omega)

end Within

/-- One commit: what a recipe makes is sound, and the builder has written it. -/
theorem write_builds (h : c.Builds size revision es) {r : Recipe} (hr : r.Valid)
    (hwrite : c.write r = .ok c') :
    c'.Closed size revision es c.ptag c.crc (r.commit c.offset c.ptag c.crc) := by
  obtain ⟨tags, closing⟩ := r
  obtain ⟨c₁, htags, hclose⟩ := bind_eq_ok.1 hwrite
  have hstart : c.Within size revision es c.ptag c.crc [] :=
    ⟨nofun, by rw [List.append_nil]; exact h, rfl, rfl⟩
  have h₁ := hstart.addTags hr.tags htags
  have hoffset : c₁.offset = c.offset + runSize tags := by
    rw [h₁.builds.offset, List.nil_append, runSize_append, h.offset, Nat.add_assoc]
  rw [List.nil_append] at h₁
  have hplain : ∀ {chunk}, (Recipe.mk tags closing).fcrcOf (c.offset + runSize tags) = [] →
      (Recipe.mk tags closing).ccrcLen (c.offset + runSize tags) = 4 → closing.chunk = chunk →
      (Recipe.mk tags closing).commit c.offset c.ptag c.crc =
        Recipe.sealed tags chunk 4 c.ptag c.crc := by
    intro chunk hfcrc hlen hchunk
    simp only [Recipe.commit, hfcrc, hlen, hchunk, List.append_nil]
  cases closing with
  | finish chunk =>
      rw [hplain rfl rfl rfl]
      exact h₁.finish hr.chunk hclose
  | finishPadded chunk progSize blockSize =>
      by_cases hprog : progSize = 0
      · rw [hplain (if_pos hprog) (if_pos hprog) rfl]
        refine h₁.finish hr.chunk ?_
        have hfinish := hclose
        rw [close, Commit.finishPadded, if_pos hprog] at hfinish
        exact hfinish
      · have hclosed := h₁.finishPadded hr.chunk hprog hclose
        rw [hoffset] at hclosed
        simp only [Recipe.commit, Recipe.fcrcOf, Recipe.ccrcLen, if_neg hprog]
        exact hclosed

end Builds
end Commit
end LittlefsPure.Codec
