import LittlefsPure.Codec.Parsing
import LittlefsPure.Codec.RoundTrip

/-!
# A commit that is cut off

A power cut in the middle of a program leaves the first bytes of a commit and erased cells
behind them.  A checksum passes only when the bytes it covers are all present: that is
assumed of a block (`Trusted`), as nothing can be proved of a checksum that passes by
chance.  Then a block with a commit that is cut off is either the block with the whole
commit, or one that holds the log in front of it and nothing else (`cut_or_whole`).

## Why an assumption is needed

The cells of a torn commit are what they are, and the four bytes that the reader takes for a
checksum may happen to be that of the bytes in front of them.  `Trusted` says that they do not.
It is assumed of the block at hand and of no other, and only of bytes that are not a whole commit,
so it never rules out what the code writes.
-/

namespace LittlefsPure.Codec

/-! ## Words and entries -/

theorem toBe_injective {x y : BitVec 32} (h : toBe x = toBe y) : x = y := by
  have hx := beWord_toBe_append x []
  have hy := beWord_toBe_append y []
  rw [h] at hx
  exact hx.symm.trans hy

section Agree

variable {base : Tag} {e d f : RawEntry} {es ds : List RawEntry} {rest rest' : List Byte}

/-- Two runs of entries whose first words agree begin with the same tag. -/
theorem tag_agree {n : ℕ} (hn : 4 ≤ n)
    (h : (encode base (e :: es) ++ rest).take n = (encode base (d :: ds) ++ rest').take n) :
    e.tag = d.tag := by
  have hword := congrArg (List.take 4) h
  rw [List.take_take, List.take_take, Nat.min_eq_left hn, encode, encode, List.append_assoc,
    List.append_assoc, List.append_assoc, List.append_assoc, List.take_left' (length_toBe _),
    List.take_left' (length_toBe _)] at hword
  have hbits := toBe_injective hword
  have hxor := congrArg (· ^^^ base.bits) hbits
  simp only [BitVec.xor_assoc, BitVec.xor_self, BitVec.xor_zero] at hxor
  exact congrArg Tag.mk hxor

/-- Behind entries of one length the rests agree. -/
theorem rest_agree {n : ℕ} (he : e.Sized) (hd : d.Sized) (htag : e.tag = d.tag)
    (h : (encode base (e :: es) ++ rest).take (e.size + n) =
      (encode base (d :: ds) ++ rest').take (e.size + n)) :
    e = d ∧
      (encode e.tag.perturb es ++ rest).take n = (encode e.tag.perturb ds ++ rest').take n := by
  have hbody : e.body.length = d.body.length := by
    rw [he.body, hd.body, htag]
  have hsplit : ∀ (x : RawEntry) (xs : List RawEntry) (r : List Byte),
      x.body.length = e.body.length →
      (encode base (x :: xs) ++ r).take (e.size + n) =
        (toBe (x.tag.bits ^^^ base.bits) ++ x.body) ++ (encode x.tag.perturb xs ++ r).take n := by
    intro x xs r hx
    have hlen : (toBe (x.tag.bits ^^^ base.bits) ++ x.body).length = e.size := by
      rw [List.length_append, length_toBe, hx, RawEntry.size]
    rw [encode, List.append_assoc, List.take_append, hlen, Nat.add_sub_cancel_left,
      List.take_of_length_le (by rw [hlen]; omega)]
  rw [hsplit e es rest rfl, hsplit d ds rest' hbody.symm] at h
  obtain ⟨hfirst, hrest⟩ := List.append_inj h (by
    rw [List.length_append, List.length_append, hbody, length_toBe, length_toBe])
  obtain ⟨-, hsame⟩ := List.append_inj hfirst rfl
  obtain ⟨te, be⟩ := e
  obtain ⟨td, bd⟩ := d
  cases htag
  cases hsame
  exact ⟨rfl, hrest⟩

/-- The entries in front of a commit CRC are known from the bytes up to its tag. -/
theorem entries_agree (hes : ∀ e ∈ es, e.Plain) (hf : f.tag.isCcrc = true)
    (hds : ∀ e ∈ ds, e.Plain) (hd : d.tag.isCcrc = true)
    (h : (encode base (es ++ [f]) ++ rest).take (runSize es + 4) =
      (encode base (ds ++ [d]) ++ rest').take (runSize es + 4)) :
    es = ds ∧ f.tag = d.tag := by
  induction es generalizing base ds with
  | nil =>
      rw [runSize_nil, Nat.zero_add, List.nil_append] at h
      cases ds with
      | nil => exact ⟨rfl, tag_agree (Nat.le_refl 4) h⟩
      | cons x ds =>
          have hplain := (hds x (List.mem_cons_self ..)).notCcrc
          rw [List.cons_append] at h
          rw [← tag_agree (Nat.le_refl 4) h, hf] at hplain
          cases hplain
  | cons e es ih =>
      have he := hes e (List.mem_cons_self ..)
      rw [runSize_cons, Nat.add_assoc, List.cons_append] at h
      have hword : 4 ≤ e.size + (runSize es + 4) := by omega
      cases ds with
      | nil =>
          have hplain := he.notCcrc
          rw [tag_agree hword h, hd] at hplain
          cases hplain
      | cons x ds =>
          have hx := hds x (List.mem_cons_self ..)
          rw [List.cons_append] at h
          have htag := tag_agree hword h
          obtain ⟨rfl, hrest⟩ := rest_agree he.sized hx.sized htag h
          obtain ⟨rfl, hlast⟩ := ih (fun y hy => hes y (List.mem_cons_of_mem _ hy))
            (fun y hy => hds y (List.mem_cons_of_mem _ hy)) hrest
          exact ⟨rfl, hlast⟩

end Agree

/-! ## Commits that are cut off -/

/-- What a checksum that agrees is trusted with: a check that passes covers bytes that are all
present, the first so many of a block, and a window that has its checksum is erased. -/
structure Trusted (block : List Byte) (present : ℕ) : Prop where
  checks : ∀ fuel k tag, (walk block fuel (.start block)).Verifies block k tag → k + 4 ≤ present
  window : ∀ size expected,
    (walk block block.length (.start block)).lastFcrc = some (size, expected) →
    MetadataReader.windowErased block (walk block block.length (.start block)) = true →
      (block.drop (walk block block.length (.start block)).committedEnd).take size =
        List.replicate size 0xFF

section Cut

variable {block rest : List Byte} {revision : BitVec 32} {cs : List RawCommit} {c d : RawCommit}

theorem logImage_snoc (revision : BitVec 32) (cs : List RawCommit) (c : RawCommit) :
    logImage revision (cs ++ [c]) =
      logImage revision cs ++ encode (baseAfter .erased (logEntries cs)) c.all := by
  rw [logImage, logEntries_append, encode_append, logEntries_cons, logEntries_nil, List.append_nil,
    ← List.append_assoc, logImage]

/-- The loop finds the check of the last commit of a log passed. -/
theorem verifies_last (hsound : SoundImage revision (cs ++ [d]))
    (h : block = logImage revision (cs ++ [d]) ++ rest) :
    ∃ fuel, (walk block fuel (.start block)).Verifies block
      (4 + runSize (logEntries cs) + runSize d.entries) d.ccrc.tag := by
  rw [logImage_snoc, List.append_assoc] at h
  obtain ⟨hcs, hd⟩ := (soundImage_snoc h).1 hsound
  obtain ⟨hpos, hptag, hbehind⟩ := commits_behind hcs h
  rw [← hptag] at hbehind
  have hverifies := hd.verifies hbehind
  rw [RawCommit.all, encode_append, List.append_assoc] at hbehind
  rw [Walk.run_pos hd.plain, hpos] at hverifies
  refine ⟨(logEntries cs).length + (d.entries.length + 0), ?_⟩
  rw [walk_log (sound_start hcs h) (drop_image h), walk_run hd.plain hbehind, walk]
  exact hverifies

/-- The image of a commit up to the word of its checksum. -/
theorem encode_all (base : Tag) (c : RawCommit) :
    encode base c.all = c.covered base ++ c.ccrc.body := by
  rw [RawCommit.all, encode_append, encode, encode, List.append_nil, RawCommit.covered,
    List.append_assoc]

theorem length_covered (base : Tag) (c : RawCommit) :
    (c.covered base).length = runSize c.entries + 4 := by
  rw [RawCommit.covered, List.length_append, length_encode, length_toBe]

/-- A block with a commit that is cut off holds the whole commit, or nothing verifies behind
the log in front of it. -/
theorem cut_or_whole (hsound : SoundImage revision (cs ++ [c])) {x : BitVec 32} {p n m : ℕ}
    (hbody : c.ccrc.body = toLe x ++ List.replicate p 0xFF)
    (hlog : (logImage revision cs).length ≤ n) (hle : n ≤ (logImage revision (cs ++ [c])).length)
    (hroom : (logImage revision (cs ++ [c])).length ≤ n + m)
    (h : block = (logImage revision (cs ++ [c])).take n ++ List.replicate m 0xFF)
    (htrust : Trusted block n) :
    (∃ k, block = logImage revision (cs ++ [c]) ++ List.replicate k 0xFF) ∨
      ∀ fuel, Walk.SameEnd ((Walk.start block).commits cs)
        (walk block fuel ((Walk.start block).commits cs)) := by
  rw [logImage_snoc] at h hle hroom ⊢
  rw [List.length_append, length_encode] at hle hroom
  rw [length_logImage] at hlog hle hroom
  rw [List.take_append, List.take_of_length_le (by rw [length_logImage]; exact hlog),
    length_logImage, List.append_assoc] at h
  obtain ⟨hcs, hc⟩ := (soundImage_snoc h).1 hsound
  rcases commit_or_stop hcs h with ⟨d, rest', hmore, hblock, -⟩ | hstop
  · refine .inl ?_
    obtain ⟨fuel, hverifies⟩ := verifies_last hmore hblock
    have hpresent := htrust.checks _ _ _ hverifies
    have hd := ((soundImage_snoc h).1 hmore).2
    obtain ⟨-, hptag, -⟩ := commits_behind hcs h
    rw [hptag] at hc hd
    rw [logImage_snoc, List.append_assoc, h] at hblock
    have hcells := (List.append_cancel_left hblock).symm
    rw [encode_all _ c] at hcells ⊢
    generalize baseAfter .erased (logEntries cs) = base at h hc hd hcells hle hroom ⊢
    rw [RawCommit.all, runSize_append, runSize_cons, runSize_nil, RawEntry.size, hbody,
      List.length_append, length_toLe, List.length_replicate] at hle hroom
    have hcut : runSize d.entries + 4 ≤ n - (4 + runSize (logEntries cs)) := by omega
    have hinside : runSize d.entries + 4 ≤
        ((c.covered base ++ c.ccrc.body).take (n - (4 + runSize (logEntries cs)))).length := by
      rw [List.length_take, List.length_append, length_covered, hbody, List.length_append,
        length_toLe, List.length_replicate]
      omega
    -- the entries in front of the commit CRC are those of the commit
    have hsame : (encode base (d.entries ++ [d.ccrc]) ++ rest').take (runSize d.entries + 4) =
        (encode base (c.entries ++ [c.ccrc]) ++ []).take (runSize d.entries + 4) := by
      have htake := congrArg (List.take (runSize d.entries + 4)) hcells
      rw [List.take_append_of_le_length hinside, List.take_take, Nat.min_eq_left hcut,
        ← encode_all] at htake
      rw [List.append_nil]
      exact htake
    obtain ⟨hentries, htag⟩ := entries_agree hd.plain hd.isCcrc hc.plain hc.isCcrc hsame
    have hcovered : d.covered base = c.covered base := by
      rw [RawCommit.covered, RawCommit.covered, hentries, htag]
    -- so the stored word has to be its checksum
    have hword : leWord d.ccrc.body = x := by
      rw [hd.checks, hcovered, ← hc.checks, hbody]
      exact leWord_toLe_append _ _
    rw [encode_all, hcovered, List.append_assoc, List.take_append,
      List.take_of_length_le (by rw [length_covered, ← hentries]; exact hcut),
      List.append_assoc] at hcells
    have hstored := List.append_cancel_left hcells
    have hfour : 4 ≤ d.ccrc.body.length := by
      rw [hd.sized.body]
      exact hd.room
    rw [hentries] at hcut
    obtain ⟨k, hwhole⟩ := @torn_word x p
      (n - (4 + runSize (logEntries cs)) - (c.covered base).length) m
      (by rw [length_covered]; omega)
      (by rw [← hbody, ← hstored, leWord, ofLe32_append hfour]; exact hword)
    refine ⟨k, ?_⟩
    rw [h, encode_all, List.append_assoc, List.append_assoc, hbody, List.take_append,
      List.take_of_length_le (by rw [length_covered]; exact hcut)]
    rw [List.append_assoc, hwhole]
  · exact .inr hstop

/-! ## Whole logs -/

/-- A check that passes takes in a commit. -/
theorem Walk.Verifies.turn {w : Walk} {k : ℕ} {tag : Tag} (h : w.Verifies block k tag) :
    w.turn block = some (w.verify k tag) := by
  rw [Walk.turn, h.next, Option.bind_some]
  simp only [h.isCcrc, if_true, if_neg (Nat.not_lt_of_le h.room), h.checks, ne_eq,
    not_true_eq_false, if_false]

/-- Where nothing verifies behind a log, every check that passes is inside of it. -/
theorem verifies_inside (hsound : SoundImage revision cs) (h : block = logImage revision cs ++ rest)
    (hstop : ∀ fuel, Walk.SameEnd ((Walk.start block).commits cs)
      (walk block fuel ((Walk.start block).commits cs)))
    {fuel k : ℕ} {tag : Tag} (hverifies : (walk block fuel (.start block)).Verifies block k tag) :
    k + 4 ≤ logEnd cs := by
  have hnext : walk block (fuel + 1) (.start block) =
      (walk block fuel (.start block)).verify k tag := by
    rw [walk_add, walk_succ, hverifies.turn, Option.elim_some, walk]
  have hvalid := (nextTag_eq_some hverifies.next).2.1
  have hend : ((walk block fuel (.start block)).verify k tag).committedEnd ≤
      ((walk block fuel (.start block)).verify k tag).pos := by
    show k + tag.dsize ≤ k + tag.perturb.dsize
    rw [Tag.dsize_perturb hvalid]
  -- later turns do not go back, and they end at the end of the log
  have hlater := @committedEnd_le_walk block _ hend (logEntries cs).length
  rw [← hnext, ← walk_add, Nat.add_comm (fuel + 1), walk_log (sound_start hsound h) (drop_image h),
    (hstop _).committedEnd, (commits_verified hsound h).1, hnext] at hlater
  have hsize : k + (4 + tag.bodyLen) ≤ logEnd cs := hlater
  omega

/-- A block that holds a log up to what is present is to be trusted. -/
theorem trusted_of_log {present : ℕ} (hsound : SoundImage revision cs)
    (h : block = logImage revision cs ++ rest)
    (hstop : ∀ fuel, Walk.SameEnd ((Walk.start block).commits cs)
      (walk block fuel ((Walk.start block).commits cs)))
    (hpresent : logEnd cs ≤ present)
    (hrest : windowMatches block (logEnd cs) (lastFcrc cs) = true →
      rest = List.replicate rest.length 0xFF) : Trusted block present := by
  refine ⟨fun fuel k tag hverifies => (verifies_inside hsound h hstop hverifies).trans hpresent, ?_⟩
  obtain ⟨hend, -, hlast⟩ := walk_of_stop hsound h hstop
  intro size expected hfcrc herased
  rw [hlast] at hfcrc
  rw [MetadataReader.windowErased, hlast, hend, hfcrc] at herased
  have hne : cs ≠ [] := by
    rintro rfl
    cases hfcrc
  have hdrop : block.drop (logEnd cs) = rest := by
    rw [logEnd, if_neg hne, ← length_logImage revision, h]
    exact List.drop_left' rfl
  have hfits : logEnd cs + size ≤ block.length :=
    of_decide_eq_true (Bool.and_eq_true_iff.1 herased).1
  have hcells := hrest (by rw [hfcrc]; exact herased)
  have hlen := congrArg List.length hdrop
  rw [List.length_drop] at hlen
  rw [hend, hdrop, hcells, List.take_replicate, Nat.min_eq_left (by omega)]

/-- A block whose reader finds only what is present, and a window that is not erased. -/
theorem trusted_of_new {reader : MetadataReader} {present : ℕ}
    (hnew : MetadataReader.new block = .ok reader) (hend : reader.committedEnd ≤ present)
    (herased : reader.erased = false) : Trusted block present := by
  have hlen : 4 ≤ block.length := by
    rw [MetadataReader.new] at hnew
    split_ifs at hnew with hshort
    exact Nat.le_of_not_lt hshort
  obtain ⟨ds, rest, hsound, himage, hstop⟩ := @exists_extension block _ _ [] trivial
    (revision_image hlen)
  obtain ⟨r, hread, hreads⟩ := reads_of_stop hsound himage hstop
  rw [hnew] at hread
  cases hread
  refine trusted_of_log hsound himage hstop (hreads.committedEnd ▸ hend) fun hmatch => ?_
  rw [hreads.erased, hmatch] at herased
  cases herased

end Cut

end LittlefsPure.Codec
