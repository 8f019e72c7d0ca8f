import LittlefsPure.Replay.History
import LittlefsPure.Room.Closing

/-!
# What the append test promises

`can_append` compares the end of the log plus `op_dsize_of` and its three
companions with the block size, and the append is then built without another test
of the room.  The sizes it predicts are exact.  Two things can still go wrong: a
body of 1023 bytes, whose length is the deletion sentinel, and a padding too long
for the length field of the closing checksum.

## Why both of the failures are real

The sentinel length is one that a tag cannot carry, so a body of 1023 bytes is refused when its tag
is built and not when the room is checked.  The padding is the other case of a ten bit length: a
program size of a kilobyte leaves a gap that the closing tag cannot name.  Neither is seen by a
comparison with the block size, and both are conditions on sizes known before the append.
-/

namespace LittlefsPure

open Commit Logic

/-! ## Sizes -/

/-- The names, contents and values an operation carries. -/
def WriteOp.bodies : WriteOp → List Body
  | .create _ name content attrs => name :: content :: attrs.map Prod.snd
  | .createCtz _ name _ _ attrs | .createDir _ name _ attrs => name :: attrs.map Prod.snd
  | .update _ content => [content]
  | .renameInPlace _ _ newName => [newName]
  | .setAttr _ _ value => [value]
  | _ => []

theorem Body.length_bytes (bs : List Byte) : (Body.bytes bs).length = bs.length := rfl

theorem Body.length_words (ws : List ℕ) : (Body.words ws).length = 4 * ws.length := rfl

theorem dsize_le_tagsSize {t : TagEntry} {ts : List TagEntry} (ht : t ∈ ts) :
    t.dsize ≤ tagsSize ts := by
  obtain ⟨front, back, rfl⟩ := List.append_of_mem ht
  rw [tagsSize_append, tagsSize_cons]
  omega

/-- `op_dsize_of` is the size of the tags of the operation and of a closing checksum. -/
theorem tagsSize_emitOp (op : WriteOp) : tagsSize op.emitOp + 8 = op.opDsizeOf := by
  cases op with
  | create | createCtz | createDir =>
      simp only [WriteOp.emitOp, WriteOp.newEntryTags, WriteOp.opDsizeOf, tagsSize_cons,
        tagsSize_attrTags, TagEntry.dsize, Body.length_bytes, Body.length_words, Body.length_ofPair,
        List.length_nil, List.length_cons]
      omega
  | removeAttr => rfl
  | _ =>
      simp [WriteOp.emitOp, WriteOp.opDsizeOf, TagEntry.dsize, Body.length_bytes,
        Body.length_words]

theorem attrTags_bodies (id : ℕ) (attrs : StagedAttrs) :
    (WriteOp.attrTags id attrs).map TagEntry.body = attrs.map Prod.snd := by
  simp [WriteOp.attrTags, Function.comp_def]

/-- What the tags of an operation carry, beside its own bodies, is short. -/
theorem emitOp_bodies (op : WriteOp) {b : Body} (hb : b ∈ op.emitOp.map TagEntry.body) :
    b ∈ op.bodies ∨ b.length ≤ 8 := by
  cases op with
  | create =>
      simp only [WriteOp.emitOp, WriteOp.newEntryTags, List.map_cons, attrTags_bodies,
        List.mem_cons] at hb
      rcases hb with rfl | hb
      · exact .inr (Nat.zero_le _)
      · exact .inl (by simpa [WriteOp.bodies] using hb)
  | createCtz | createDir =>
      simp only [WriteOp.emitOp, WriteOp.newEntryTags, List.map_cons, attrTags_bodies,
        List.mem_cons] at hb
      rcases hb with rfl | rfl | rfl | hb
      · exact .inr (Nat.zero_le _)
      · exact .inl List.mem_cons_self
      · exact .inr (Nat.le_refl 8)
      · exact .inl (List.mem_cons_of_mem _ hb)
  | noop => cases hb
  | update | renameInPlace | setAttr =>
      obtain rfl := List.mem_singleton.1 hb
      exact .inl List.mem_cons_self
  | updateCtz | updateDirStruct =>
      obtain rfl := List.mem_singleton.1 hb
      exact .inr (Nat.le_refl 8)
  | remove | removeAttr =>
      obtain rfl := List.mem_singleton.1 hb
      exact .inr (Nat.zero_le _)

/-- The tags of an operation carry its own bodies. -/
theorem bodies_emitOp (op : WriteOp) {b : Body} (hb : b ∈ op.bodies) :
    b ∈ op.emitOp.map TagEntry.body := by
  cases op with
  | create | createCtz | createDir =>
      simp only [WriteOp.emitOp, WriteOp.newEntryTags, List.map_cons, attrTags_bodies]
      simp only [WriteOp.bodies, List.mem_cons] at hb ⊢
      tauto
  | update | renameInPlace | setAttr => exact hb
  | _ => cases hb

/-- What the append test reserves for a request. -/
def CommitRequest.dsize (r : CommitRequest) : ℕ :=
  r.op.opDsizeOf + (if r.extraMove.isSome then 4 + 12 else 0) +
    (if r.extraRelocate.isSome then 4 + 16 else 0) + if r.newTail.isSome then 4 + 8 else 0

theorem canAppend_room {g : Geometry} {l : MetadataLog} {r : CommitRequest}
    (h : canAppend g l r = true) : l.committedEnd + r.dsize ≤ g.blockSize := by
  simp only [canAppend, Bool.and_eq_true, decide_eq_true_eq] at h
  exact h.1.2

theorem appendTags_eq (l : MetadataLog) (r : CommitRequest) :
    appendTags l r = r.op.emitOp ++ foldTags l .moveState 3 r.extraMove ++
      foldTags l .relocateState 4 r.extraRelocate ++ r.newTail.toList.map tailTag := rfl

theorem tagsSize_foldTags {l : MetadataLog} {type : TagType} {words : ℕ}
    {delta : Option (List ℕ)} (hdelta : ∀ d, delta = some d → d.length = words) :
    tagsSize (foldTags l type words delta) = if delta.isSome then 4 + 4 * words else 0 := by
  cases delta with
  | none => rfl
  | some d =>
      have hlen := xorWords_length (length_latestState l type words) (hdelta d rfl)
      simp [foldTags, TagEntry.dsize, Body.length, hlen]

theorem tagsSize_tailTags (tail : Option TailLink) :
    tagsSize (tail.toList.map tailTag) = if tail.isSome then 4 + 8 else 0 := by
  cases tail <;> rfl

/-- The tags of an append have the size the test reserves, but for the checksum. -/
theorem tagsSize_appendTags (l : MetadataLog) {r : CommitRequest} (hr : r.Sized) :
    tagsSize (appendTags l r) + 8 = r.dsize := by
  have hop := tagsSize_emitOp r.op
  simp only [appendTags_eq, tagsSize_append, tagsSize_foldTags hr.move,
    tagsSize_foldTags hr.relocate,
    tagsSize_tailTags, CommitRequest.dsize, Nat.reduceMul]
  omega

/-! ## The tags of an append -/

/-- The bodies of an append fit their tag words when those of the operation do. -/
theorem appendTags_bodies {l : MetadataLog} {r : CommitRequest} (hr : r.Sized) :
    (∀ t ∈ appendTags l r, t.body.length < lenSpecial) ↔
      ∀ b ∈ r.op.bodies, b.length < lenSpecial := by
  constructor
  · intro h b hb
    obtain ⟨t, ht, rfl⟩ := List.mem_map.1 (bodies_emitOp r.op hb)
    refine h t ?_
    simp only [appendTags_eq, List.append_assoc]
    exact List.mem_append_left _ ht
  · intro h t ht
    have hdsize : ∀ {us : List TagEntry}, t ∈ us →
        tagsSize us ≤ 20 → t.body.length < lenSpecial := by
      intro us hu hle
      have hone := dsize_le_tagsSize hu
      simp only [TagEntry.dsize, lenSpecial] at hone hle ⊢
      omega
    simp only [appendTags_eq, List.mem_append] at ht
    rcases ht with ((ht | ht) | ht) | ht
    · rcases emitOp_bodies r.op (List.mem_map_of_mem ht) with hb | hb
      · exact h _ hb
      · exact Nat.lt_of_le_of_lt hb (by decide)
    · refine hdsize ht ?_
      rw [tagsSize_foldTags hr.move]
      split_ifs <;> decide
    · refine hdsize ht ?_
      rw [tagsSize_foldTags hr.relocate]
      split_ifs <;> decide
    · refine hdsize ht ?_
      rw [tagsSize_tailTags]
      split_ifs <;> decide

theorem tailTag_isCcrc (link : TailLink) : (tailTag link).tagType.isCcrc = false := by
  unfold tailTag
  cases link.2 <;> rfl

/-- No tag of an append is a checksum. -/
theorem appendTags_isCcrc {l : MetadataLog} {r : CommitRequest} (hname : r.op.WritesName) :
    ∀ t ∈ appendTags l r, t.tagType.isCcrc = false := by
  intro t ht
  simp only [appendTags_eq, List.mem_append] at ht
  rcases ht with ((ht | ht) | ht) | ht
  · have hconcerns := emitOp_concernsEntry hname t ht
    cases htype : t.tagType <;> rw [htype] at hconcerns <;> first | rfl | cases hconcerns
  · rw [foldTags_type t ht]
    rfl
  · rw [foldTags_type t ht]
    rfl
  · obtain ⟨link, -, rfl⟩ := List.mem_map.1 ht
    exact tailTag_isCcrc link

/-! ## The append -/

/-- An append turns out as the test says: it is built, the tags in front of the closing
ones take what was reserved, and the end lies on the program grid and in the block. -/
structure AppendsInto (g : Geometry) (l : MetadataLog) (r : CommitRequest) (fcrc : Bool)
    (n : ℕ) : Prop where
  build : buildAppend g l r =
    .ok ⟨l.revision, l.tags ++ (appendTags l r ++ closing g fcrc n), fcrc⟩
  size : tagsSize (appendTags l r) + 8 = r.dsize
  aligned : (l.committedEnd + tagsSize (appendTags l r ++ closing g fcrc n)) % g.progSize = 0
  inside : l.committedEnd + tagsSize (appendTags l r ++ closing g fcrc n) ≤ g.blockSize
  length_field : n ≤ 0x3FE

/-- Behind the append test, an append turns out as predicted exactly when no body has the
length of the deletion sentinel and the padding fits the checksum's length field. -/
theorem append_test_sufficient {g : Geometry} (hg : g.Admitted) {l : MetadataLog}
    {r : CommitRequest} (hname : r.op.WritesName) (hr : r.Sized)
    (hcan : canAppend g l r = true) :
    (∃ fcrc n, AppendsInto g l r fcrc n) ↔
      (∀ b ∈ r.op.bodies, b.length < lenSpecial) ∧
        ClosingFits g (l.committedEnd + (r.dsize - 8)) := by
  have hroom := canAppend_room hcan
  have hsize := tagsSize_appendTags l hr
  have hoff : l.committedEnd + tagsSize (appendTags l r) = l.committedEnd + (r.dsize - 8) := by
    omega
  have hnew : newAppending g.blockSize l.committedEnd = .ok ⟨l.committedEnd, []⟩ := by
    rw [newAppending, if_neg (by omega)]
  have hadd := @addTags_iff g.blockSize ⟨l.committedEnd, []⟩ _
    (appendTags_isCcrc (l := l) hname) (by simp only; omega)
  have hfinish := finishPadded_iff (g := g)
    (c := ⟨l.committedEnd + tagsSize (appendTags l r), [] ++ appendTags l r⟩) hg.progSize_pos
    hg.blockSize_grid (by simp only; omega)
  rw [appendTags_bodies hr] at hadd
  simp only [hoff] at hfinish
  constructor
  · rintro ⟨fcrc, n, h⟩
    have hbuild := h.build
    rw [buildAppend, hnew] at hbuild
    obtain ⟨_, ⟨⟩, hbuild⟩ := bind_eq_ok.1 hbuild
    obtain ⟨c, hc, hbuild⟩ := bind_eq_ok.1 hbuild
    obtain ⟨⟨c', fcrc'⟩, hc', -⟩ := bind_eq_ok.1 hbuild
    have hceq := (addTags_eq_ok hc).1
    rw [hceq] at hc hc'
    refine ⟨hadd.1 hc, hfinish.1 ⟨c', fcrc', ?_⟩⟩
    rw [← hoff]
    exact hc'
  · rintro ⟨hbodies, hclosing⟩
    obtain ⟨c', fcrc, hc'⟩ := hfinish.2 hclosing
    rw [← hoff] at hc'
    obtain ⟨n, hclosed⟩ := finishPadded_closed hc'
    have hend : c'.offset = l.committedEnd + tagsSize (appendTags l r ++ closing g fcrc n) := by
      rw [hclosed.offset, tagsSize_append, Nat.add_assoc]
    refine ⟨fcrc, n, ⟨?_, hsize, ?_, ?_, hclosed.length_field⟩⟩
    · rw [buildAppend, hnew]
      show (addTags g.blockSize ⟨l.committedEnd, []⟩ (appendTags l r)).bind _ = _
      rw [hadd.2 hbodies]
      show (finishPadded g _).bind _ = _
      rw [hc']
      show Except.ok _ = _
      rw [hclosed.tags, List.nil_append]
    · rw [← hend]
      exact hclosed.aligned
    · rw [← hend]
      exact hclosed.inside

/-- A file created in an empty directory of 256-byte blocks. -/
theorem append_test_sufficient_create : ∃ fcrc n,
    AppendsInto ⟨16, 16, 256, 24, 1⟩ ⟨1, [⟨.commitCrc 0, idNone, .checksum 24⟩], true⟩
      { pair := ⟨2, 3⟩, op := .create 0 (.bytes [97]) (.bytes [1, 2]) [(7, .bytes [5])],
        extraMove := some [1, 2, 3], newTail := some (⟨4, 5⟩, false) } fcrc n := by
  refine (append_test_sufficient (Geometry.admitted_iff.1 (by decide)) ?_ ⟨?_, ?_⟩
    (by decide)).2 ⟨by decide, by decide⟩
  · exact True.intro
  · rintro d ⟨⟩
    rfl
  · exact nofun

/-- On a formatted root, a file of 1023 bytes passes the append test although its length is the
deletion sentinel; in an empty directory on program units of 1016 bytes, a file of 984 bytes
passes it although the checksum would have to cover 1031 bytes. -/
theorem append_test_insufficient :
    (∃ l, formatLog ⟨16, 16, 4096, 24, 500⟩ = .ok l ∧
      canAppend ⟨16, 16, 4096, 24, 500⟩ l
        { pair := rootBlockPair,
          op := .create 1 (.bytes [97]) (.bytes (List.replicate 1023 0)) [] } = true ∧
      buildAppend ⟨16, 16, 4096, 24, 500⟩ l
        { pair := rootBlockPair,
          op := .create 1 (.bytes [97]) (.bytes (List.replicate 1023 0)) [] } =
        .error .invalidTag) ∧
    ∃ l, emptyDirLog ⟨8, 1016, 3048, 24, 500⟩ none = .ok l ∧
      canAppend ⟨8, 1016, 3048, 24, 500⟩ l
        { pair := ⟨2, 3⟩,
          op := .create 0 (.bytes [97]) (.bytes (List.replicate 984 0)) [] } = true ∧
      buildAppend ⟨8, 1016, 3048, 24, 500⟩ l
        { pair := ⟨2, 3⟩,
          op := .create 0 (.bytes [97]) (.bytes (List.replicate 984 0)) [] } =
        .error .outOfRange := by
  refine ⟨⟨⟨1, [⟨.superblock, 0, magic⟩,
      ⟨.inlineStruct, 0, (formatSuperblock ⟨16, 16, 4096, 24, 500⟩).toBody⟩] ++
      closing ⟨16, 16, 4096, 24, 500⟩ true 4, true⟩, ?_, ?_, ?_⟩,
    ⟨⟨1, closing ⟨8, 1016, 3048, 24, 500⟩ true 996, true⟩, ?_, ?_, ?_⟩⟩
  · rfl
  · decide +kernel
  · decide +kernel
  · set_option maxRecDepth 8000 in rfl
  · decide +kernel
  · decide +kernel

end LittlefsPure
