import LittlefsPure.Chain.Extend

/-!
# The chain operations keep the content

`stream_ctz_extend` and `shrink_ctz_head`: each leaves the chain it starts from as it was,
and when it succeeds its result is the head of a chain with the new content.

## Why the old chain is in every statement

An append may fail at any of its device calls, and the entry still names the old chain then.  It
may also succeed and never be recorded.  So each of these triples says two things: what the
result is worth when there is one, and that the old chain holds the old content wherever the run
stands.  The second is the same for all of them, and it is carried by the condition that no call
touches a block in use.
-/

namespace LittlefsPure

open FsM Logic

variable {g : Geometry}

/-! ## Programming erased cells -/

theorem getD_andBytes (xs ys : List Byte) (p : ℕ) :
    (andBytes xs ys).getD p 0xFF = xs.getD p 0xFF &&& ys.getD p 0xFF := by
  have hid : ∀ x : Byte, 0xFF &&& x = x ∧ x &&& 0xFF = x := by decide
  induction xs generalizing ys p with
  | nil =>
      rw [andBytes, List.getD_nil, (hid _).1]
  | cons x xs ih =>
      cases ys with
      | nil =>
          rw [andBytes, List.getD_nil, (hid _).2]
          exact fun h => (by cases h)
      | cons y ys =>
          cases p with
          | zero => rfl
          | succ p => exact ih ys p

/-- From the offset on a program clears bits. -/
theorem cell_programAt_add (b : Block) (off p : ℕ) (data : List Byte) :
    (Block.raw (programAt b.bytes off data)).cell (off + p) =
      b.cell (off + p) &&& data.getD p 0xFF := by
  have hlen : (b.bytes.take off ++ List.replicate (off - b.bytes.length) (0xFF : Byte)).length =
      off := by
    simp only [List.length_append, List.length_replicate, List.length_take]
    omega
  have hcell : (b.bytes.drop off).getD p 0xFF = b.cell (off + p) := by
    rw [List.getD_eq_getElem?_getD, List.getElem?_drop, ← List.getD_eq_getElem?_getD]
    rfl
  show (programAt b.bytes off data).getD (off + p) 0xFF = _
  rw [programAt, List.getD_append_right _ _ _ _ (by omega), hlen, Nat.add_sub_cancel_left,
    getD_andBytes, hcell]

/-- A program puts its data down where the cells are erased. -/
theorem cell_programAt {b : Block} {off p : ℕ} {data : List Byte} {byte : Byte}
    (herased : b.cell (off + p) = 0xFF) (hp : data[p]? = some byte) :
    (Block.raw (programAt b.bytes off data)).cell (off + p) = byte := by
  have hid : ∀ x : Byte, 0xFF &&& x = x := by decide
  rw [cell_programAt_add, herased, hid, List.getD_eq_getElem?_getD, hp]
  rfl

/-! ## The plan for the tail -/

/-- What the fill of the tail block takes of the data: all of it, or what the block has
room for. -/
structure Consumes (g : Geometry) (blocks : List ℕ) (content data : List Byte) (consumed : ℕ) :
    Prop where
  le : consumed ≤ data.length
  room : content.length + consumed ≤ Ctz.capacityBelow g.blockSize blocks.length
  full : consumed = data.length ∨
    content.length + consumed = Ctz.capacityBelow g.blockSize blocks.length

/-- The chain as the tail plan leaves it. -/
inductive TailPlan (g : Geometry) (blocks : List ℕ) (content data : List Byte) (head : ℕ) :
    ℕ × Option (ℕ × List Byte) × ℕ → Fs → Prop
  /-- The fill is in its place, on a copy of the tail when there is one. -/
  | placed {tail consumed : ℕ} {tailBlocks : List ℕ} {s : Fs}
      (takes : Consumes g blocks content data consumed)
      (resides : Resides g tailBlocks (content ++ data.take consumed) s)
      (length : tailBlocks.length = blocks.length) (tip : Tip tailBlocks tail) :
      TailPlan g blocks content data head (tail, none, consumed) s
  /-- The fill is left for later, over cells that are erased. -/
  | deferred {off consumed : ℕ} {s : Fs} (takes : Consumes g blocks content data consumed)
      (pos : 0 < blocks.length)
      (offset : off = Ctz.headerSize (blocks.length - 1) +
        (content.length - Ctz.capacityBelow g.blockSize (blocks.length - 1)))
      (lower : Ctz.capacityBelow g.blockSize (blocks.length - 1) ≤ content.length)
      (erased : ∀ p < consumed, (s.device.get head).cell (off + p) = 0xFF) :
      TailPlan g blocks content data head (head, some (off, data.take consumed), consumed) s

section Plan

variable {blocks : List ℕ} {content data : List Byte} {head : ℕ}

/-- The chain with a copy of its tail, and the fill in it. -/
theorem Resides.copyTail {s : Fs} (h : Resides g blocks content s) (htip : Tip blocks head)
    (hpos : 0 < blocks.length) {i fresh off : ℕ} (hi : i = blocks.length - 1)
    (hoff : off = Ctz.headerSize i + (content.length - Ctz.capacityBelow g.blockSize i))
    (hlower : Ctz.capacityBelow g.blockSize i ≤ content.length) {fill : List Byte}
    (hroom : content.length + fill.length ≤ Ctz.capacityBelow g.blockSize (i + 1))
    (hcopied : Copied g blocks head off fill fresh s) :
    Resides g (blocks.take i ++ [fresh]) (content ++ fill) s := by
  subst hi hoff
  have hlen : (blocks.take (blocks.length - 1)).length = blocks.length - 1 := by
    rw [List.length_take]
    omega
  have hlaid := h.laid
  rw [htip.concat_eq hpos] at hlaid
  have hunused : fresh ∉ blocks.take (blocks.length - 1) :=
    fun hmem => hcopied.unused (List.mem_of_mem_take hmem)
  have hreplaced := hlaid.replaceLast hunused hcopied.inBounds (by
    rw [hlen]
    exact fun p hp => hcopied.cell hp)
  refine ⟨h.size, hreplaced.fill (by rw [hlen]; exact hlower) (by rw [hlen]; exact hroom) ?_⟩
  rw [hlen]
  exact fun p byte hbyte => hcopied.cell_fill hbyte

theorem sparing_planTail (hB : 128 ≤ g.blockSize)
    (hcount : blocks.length = Ctz.blockCount content.length g.blockSize)
    (hmax : blocks.length ≤ Ctz.maxCtzBlocks) (htip : Tip blocks head) :
    Sparing g blocks content.length (Resides g blocks content) (planTail g head content.length data)
      (fun plan s => Resides g blocks content s ∧ TailPlan g blocks content data head plan s)
      (Resides g blocks content) := by
  have hsize : Ctz.SizeInRange g.blockSize content.length := by
    refine Ctz.sizeInRange_of_blockCount hB ?_
    rw [← hcount]
    exact Nat.le_trans hmax (by decide)
  have hcover : content.length ≤ Ctz.capacityBelow g.blockSize blocks.length := by
    rw [hcount]
    exact (Ctz.blockCount_le_iff hB hsize).1 (Nat.le_refl _)
  have hnothing : Consumes g blocks content data 0 →
      Sparing g blocks content.length (Resides g blocks content) (pure (head, none, 0))
        (fun plan s => Resides g blocks content s ∧ TailPlan g blocks content data head plan s)
        (Resides g blocks content) := by
    intro htakes
    refine Triple.pure fun s hs => ⟨hs, .placed htakes ?_ rfl htip⟩
    rw [List.take_zero, List.append_nil]
    exact hs
  rw [planTail, ← hcount]
  refine Triple.ite (fun hzero => hnothing ?_) fun hpos => ?_
  · have hempty : content.length = 0 := by
      rw [hzero, Ctz.capacityBelow] at hcover
      exact Nat.le_zero.1 hcover
    refine ⟨Nat.zero_le _, Nat.le_of_eq ?_, .inr ?_⟩
    · rw [hzero, hempty, Ctz.capacityBelow]
    · rw [hzero, hempty, Ctz.capacityBelow]
  have hcontent : 0 < content.length := by
    by_contra hzero
    rw [hcount, Nat.eq_zero_of_not_pos hzero] at hpos
    exact hpos rfl
  have hends := endsIn_of_blockCount hB hcontent hsize
  rw [← hcount] at hends
  obtain ⟨hlower, hupper, -, hused⟩ := hends
  set i := blocks.length - 1 with hi
  have hlast : i + 1 = blocks.length := by omega
  have hcap : Ctz.capacityBelow g.blockSize blocks.length =
      Ctz.capacityBelow g.blockSize i + Ctz.contentBytesInBlock i g.blockSize := by
    rw [← hlast, Ctz.capacityBelow]
  rw [Ctz.headerSize] at hused
  simp only [hused]
  set fill := min (Ctz.contentBytesInBlock i g.blockSize -
    (content.length - Ctz.capacityBelow g.blockSize i)) data.length with hfill
  have htakes : Consumes g blocks content data fill := ⟨by omega, by omega, by omega⟩
  refine Triple.ite (fun hzero => hnothing (hzero ▸ htakes)) fun hsome => ?_
  have hoff : 4 * Ctz.skipPointersInBlock i +
      (content.length - Ctz.capacityBelow g.blockSize i) =
        Ctz.headerSize i + (content.length - Ctz.capacityBelow g.blockSize i) := rfl
  rw [hoff]
  refine Triple.bind (sparing_readBlock fun _ hs => hs) fun tail =>
    Triple.ite (fun hclean => ?_) fun _ => ?_
  · refine Triple.pure ?_
    rintro s ⟨hs, rfl⟩
    refine ⟨hs, .deferred htakes (by omega) rfl (Nat.le_of_lt hlower) fun p hp => ?_⟩
    have hcell := @Block.getElem?_slice (s.device.get head)
      (Ctz.headerSize i + (content.length - Ctz.capacityBelow g.blockSize i)) fill p hp
    exact eq_of_beq (List.all_eq_true.1 hclean _ (List.mem_of_getElem? hcell))
  · have hmem : head ∈ blocks := by
      rw [htip.concat_eq (by omega)]
      exact List.mem_append_right _ (List.mem_singleton_self _)
    have hrebuild := @sparing_rebuildTail g blocks blocks content.length
      (Resides g blocks content) head
      (Resides.onBlocks blocks content) hmem (some (head, content.length))
      (fun _ _ _ hb => .inl hb)
      (Ctz.headerSize i + (content.length - Ctz.capacityBelow g.blockSize i)) (data.take fill)
      maxBadBlockRetries []
    refine Triple.bind (Triple.strengthen hrebuild fun s hs => hs.1) fun fresh => Triple.pure ?_
    rintro s ⟨hs, hcopied⟩
    have hlen : (data.take fill).length = fill := by
      rw [List.length_take]
      exact Nat.min_eq_left htakes.le
    refine ⟨hs, .placed htakes (hs.copyTail htip (by omega) hi rfl (Nat.le_of_lt hlower) ?_ hcopied)
      ?_ (tip_concat _ _)⟩
    · rw [hlen, hlast]
      exact htakes.room
    · rw [List.length_append, List.length_take, List.length_singleton]
      omega

end Plan

/-! ## The blocks behind the tail -/

section Blocks

variable {live used tailBlocks blocks news : List ℕ} {tail size : ℕ} {P : Fs → Prop}
  {content data rest : List Byte}

theorem sparing_appendBlocks (hP : OnBlocks used P)
    (hlaid : ∀ s, P s → ∃ content, Resides g tailBlocks content s) (htip : Tip tailBlocks tail)
    (hcount : tailBlocks.length = Ctz.blockCount size g.blockSize)
    (hmax : tailBlocks.length ≤ Ctz.maxCtzBlocks) (hsub : ∀ b ∈ tailBlocks, b ∈ used)
    (hlive : ∀ b ∈ used, b ∈ live ∨ b ∈ tailBlocks) {newCount : ℕ}
    (hpos : rest ≠ [] → 0 < newCount) :
    Sparing g live size P (appendBlocks g tail size newCount rest)
      (fun head s => ∃ news,
        Extended g used tailBlocks P rest (if rest = [] then 0 else newCount) news s ∧
          Tip (tailBlocks ++ news) head) P := by
  refine Triple.ite (fun hnone => ?_) fun hsome => ?_
  · refine Triple.pure fun s hs => ⟨[], ⟨?_, Programmed.zero hs⟩, ?_⟩
    · rw [if_pos hnone]
      exact ⟨List.nodup_nil, fun b hb => absurd hb List.not_mem_nil,
        fun b hb => absurd hb List.not_mem_nil, rfl⟩
    · rw [List.append_nil]
      exact htip
  · have hused : ∀ s, P s → ∀ b ∈ used, b ∈ live ∨
        b ∈ namedChain g s.device (if 0 < Ctz.blockCount size g.blockSize then some (tail, size)
          else none) := by
      intro s hs b hb
      refine (hlive b hb).imp_right fun hmem => ?_
      obtain ⟨content, h⟩ := hlaid s hs
      rw [if_pos (hcount ▸ List.length_pos_of_mem hmem), h.namedChain htip hcount hmax]
      exact hmem
    have hchain := @sparing_extendChain g live used tailBlocks size tail P rest hP
      (fun s hs => (hlaid s hs).elim fun content h => ⟨h.size, content, h.laid⟩) htip hsub _ hused
      newCount maxBadBlockRetries []
    rw [hcount] at hchain
    refine Triple.bind hchain fun news => Triple.pure fun s hs => ⟨news, ?_, ?_⟩
    · rw [if_neg hsome]
      exact hs
    · have hnews : 0 < news.length := by
        rw [hs.handed.length]
        exact hpos hsome
      intro b hb
      rw [List.getLast?_append_of_ne_nil _ (List.ne_nil_of_length_pos hnews),
        List.getLast?_eq_getElem?, hs.handed.length] at hb
      rw [List.getD_eq_getElem?_getD, hb]
      rfl

/-- The number of blocks behind the tail. -/
theorem Consumes.count (hB : 128 ≤ g.blockSize) {consumed : ℕ}
    (h : Consumes g blocks content data consumed)
    (hcount : blocks.length = Ctz.blockCount content.length g.blockSize)
    (hsize : Ctz.SizeInRange g.blockSize (content.length + data.length)) :
    blocks.length + (if data.drop consumed = [] then 0
        else Ctz.blockCount (content.length + data.length) g.blockSize - blocks.length) =
      Ctz.blockCount (content.length + data.length) g.blockSize ∧
    (data.drop consumed ≠ [] →
      0 < Ctz.blockCount (content.length + data.length) g.blockSize - blocks.length) := by
  have hmono := Ctz.blockCount_mono hB hsize (Nat.le_add_right content.length data.length)
  rw [← hcount] at hmono
  obtain ⟨hle, hroom, hfull⟩ := h
  by_cases hrest : data.drop consumed = []
  · have hall : data.length ≤ consumed := List.drop_eq_nil_iff.1 hrest
    have hcover : Ctz.blockCount (content.length + data.length) g.blockSize ≤ blocks.length := by
      rw [Ctz.blockCount_le_iff hB hsize]
      omega
    rw [if_pos hrest]
    exact ⟨by omega, fun hne => absurd hrest hne⟩
  · have hmore : consumed < data.length := by
      by_contra hge
      exact hrest (List.drop_eq_nil_of_le (Nat.le_of_not_lt hge))
    have hover : ¬ Ctz.blockCount (content.length + data.length) g.blockSize ≤ blocks.length := by
      rw [Ctz.blockCount_le_iff hB hsize]
      omega
    rw [if_neg hrest]
    exact ⟨by omega, fun _ => by omega⟩

/-- The chain with the blocks behind its tail. -/
theorem Extended.resides (hB : 128 ≤ g.blockSize) (hbound : g.blockCount ≤ 2 ^ 32) {consumed n : ℕ}
    {s : Fs} (hlaid : Resides g tailBlocks (content ++ data.take consumed) s)
    (h : Extended g used tailBlocks P (data.drop consumed) n news s)
    (hsub : ∀ b ∈ tailBlocks, b ∈ used) (htakes : Consumes g blocks content data consumed)
    (hlength : tailBlocks.length = blocks.length)
    (hsize : Ctz.SizeInRange g.blockSize (content.length + data.length))
    (hchain : (tailBlocks ++ news).length =
      Ctz.blockCount (content.length + data.length) g.blockSize) :
    Resides g (tailBlocks ++ news) (content ++ data) s := by
  obtain ⟨hle, hroom, hfull⟩ := htakes
  have hcontent : (content ++ data.take consumed).length = content.length + consumed := by
    rw [List.length_append, List.length_take, Nat.min_eq_left hle]
  have htotal : (content ++ data.take consumed).length + (data.drop consumed).length =
      content.length + data.length := by
    rw [hcontent, List.length_drop]
    omega
  have hnodup : (tailBlocks ++ news).Nodup := by
    rw [List.nodup_append]
    refine ⟨hlaid.laid.nodup, h.handed.nodup, fun x hx y hy hxy => h.handed.unused y hy (hsub y ?_)⟩
    rw [← hxy]
    exact hx
  have himage : ∀ j b, news[j]? = some b → s.device.get b =
      .raw (chainImage g (tailBlocks ++ news) (tailBlocks.length + j) ((data.drop consumed).drop
        (Ctz.capacityBelow g.blockSize (tailBlocks.length + j) -
          Ctz.capacityBelow g.blockSize tailBlocks.length))) := by
    intro j b hb
    refine h.written.image j (List.getElem?_eq_some_iff.1 hb).1 b ?_
    rw [List.getElem?_append_right (Nat.le_add_right _ _), Nat.add_sub_cancel_left]
    exact hb
  have hfull' : data.drop consumed = [] ∨ (content ++ data.take consumed).length =
      Ctz.capacityBelow g.blockSize tailBlocks.length := by
    rw [hcontent, hlength]
    exact hfull.imp_left fun hall => by rw [hall, List.drop_length]
  have hcover : (content ++ data.take consumed).length + (data.drop consumed).length ≤
      Ctz.capacityBelow g.blockSize (tailBlocks ++ news).length := by
    rw [htotal, hchain]
    exact (Ctz.blockCount_le_iff hB hsize).1 (Nat.le_refl _)
  have hneed : news = [] ∨ Ctz.capacityBelow g.blockSize ((tailBlocks ++ news).length - 1) <
      (content ++ data.take consumed).length + (data.drop consumed).length := by
    by_cases hnews : news = []
    · exact .inl hnews
    · have hpos := List.length_pos_of_ne_nil hnews
      have hless : ¬ Ctz.blockCount (content.length + data.length) g.blockSize ≤
          (tailBlocks ++ news).length - 1 := by
        rw [← hchain, List.length_append]
        omega
      rw [Ctz.blockCount_le_iff hB hsize] at hless
      rw [htotal]
      exact .inr (Nat.lt_of_not_le hless)
  have happend := hlaid.laid.append hbound hfull' rfl hnodup h.handed.inBounds himage hcover hneed
  rw [List.append_assoc, List.take_append_drop] at happend
  exact ⟨hlaid.size, happend⟩

end Blocks

/-! ## The fill in place -/

section Fill

variable {live blocks : List ℕ} {content : List Byte} {head off size : ℕ} {fill : List Byte}

/-- What the deferred fill can leave behind: of the device only the head has changed, and in
the head no cell before the fill. -/
theorem sparing_fillTail {P : Fs → Prop} (hlast : live.getLast? = some head)
    (hoff : off = Ctz.headerSize (live.length - 1) +
      (size - Ctz.capacityBelow g.blockSize (live.length - 1)))
    (herased : ∀ s, P s → ∀ p < fill.length, (s.device.get head).cell (off + p) = 0xFF) :
    Sparing g live size P (fillTail head (some (off, fill)))
      (fun _ s' => ∃ s, P s ∧ WritesOnly head s s' ∧
        s'.device.get head = .raw (programAt (s.device.get head).bytes off fill))
      (fun s' => ∃ s, P s ∧ WritesOnly head s s' ∧
        ∀ p < off, (s'.device.get head).cell p = (s.device.get head).cell p) := by
  refine Triple.bind (R := fun report s' => ∃ s, P s ∧ WritesOnly head s s' ∧
    (∀ p < off, (s'.device.get head).cell p = (s.device.get head).cell p) ∧
    (report = .verified →
      s'.device.get head = .raw (programAt (s.device.get head).bytes off fill))) ?_ fun report => ?_
  · refine (triple_programBytes off fill (fun _ _ => True.intro)
      fun s hs => .inr ⟨hlast, hoff, herased s hs⟩).weaken ?_
    rintro report s' ⟨s, hs, hw, hcontent, hverified⟩
    refine ⟨s, hs, hw, fun p hp => ?_, hverified⟩
    rcases hcontent with hcontent | ⟨n, hcontent⟩
    · rw [hcontent]
    · rw [hcontent]
      exact getD_programAt hp
  · refine Triple.ite (fun hok => Triple.pure ?_) fun _ => Triple.fail ?_
    · rintro s' ⟨s, hs, hw, -, hverified⟩
      exact ⟨s, hs, hw, hverified (eq_of_beq hok)⟩
    · rintro s' ⟨s, hs, hw, hcells, -⟩
      exact ⟨s, hs, hw, hcells⟩

/-- A write to the head behind the end of the content. -/
theorem Resides.writesBehind {s s' : Fs} (h : Resides g blocks content s) (htip : Tip blocks head)
    (hpos : 0 < blocks.length)
    (hoff : off = Ctz.headerSize (blocks.length - 1) +
      (content.length - Ctz.capacityBelow g.blockSize (blocks.length - 1)))
    (hw : WritesOnly head s s')
    (hcells : ∀ p < off, (s'.device.get head).cell p = (s.device.get head).cell p) :
    Resides g blocks content s' := by
  refine ⟨hw.length.trans h.size, h.laid.congr fun i block hblock p hp => ?_⟩
  by_cases heq : block = head
  · subst heq
    have hlast : blocks[blocks.length - 1]? = some block := by
      conv_lhs => rw [htip.concat_eq hpos]
      have hlen : (blocks.take (blocks.length - 1)).length = blocks.length - 1 := by
        rw [List.length_take]
        omega
      rw [List.length_append, List.length_singleton, hlen, Nat.add_sub_cancel,
        List.getElem?_append_right (Nat.le_of_eq hlen), hlen, Nat.sub_self]
      rfl
    obtain ⟨hlt, hi⟩ := List.getElem?_eq_some_iff.1 hblock
    obtain ⟨hlt', hi'⟩ := List.getElem?_eq_some_iff.1 hlast
    have hindex : i = blocks.length - 1 :=
      (List.Nodup.getElem_inj_iff h.laid.nodup).1 (hi.trans hi'.symm)
    rw [hindex, ← hoff] at hp
    exact hcells p hp
  · rw [hw.other block heq]

/-- The fill over erased cells. -/
theorem Resides.filled {s s' : Fs} (h : Resides g blocks content s') (htip : Tip blocks head)
    (hpos : 0 < blocks.length)
    (hoff : off = Ctz.headerSize (blocks.length - 1) +
      (content.length - Ctz.capacityBelow g.blockSize (blocks.length - 1)))
    (hlower : Ctz.capacityBelow g.blockSize (blocks.length - 1) ≤ content.length)
    (hroom : content.length + fill.length ≤ Ctz.capacityBelow g.blockSize blocks.length)
    (herased : ∀ p < fill.length, (s.device.get head).cell (off + p) = 0xFF)
    (hget : s'.device.get head = .raw (programAt (s.device.get head).bytes off fill)) :
    Resides g blocks (content ++ fill) s' := by
  have hlaid := h.laid
  have htaken : (blocks.take (blocks.length - 1)).length = blocks.length - 1 := by
    rw [List.length_take]
    omega
  rw [htip.concat_eq hpos] at hlaid
  have hfilled := hlaid.fill (by rw [htaken]; exact hlower)
    (by rw [htaken, Nat.sub_add_cancel hpos]; exact hroom) fun p byte hbyte => by
      rw [htaken, ← hoff, hget]
      exact cell_programAt (herased p (List.getElem?_eq_some_iff.1 hbyte).1) hbyte
  rw [← htip.concat_eq hpos] at hfilled
  exact ⟨h.size, hfilled⟩

end Fill

/-! ## The operations -/

/-- A file on the device: the coordinates of a chain that holds its content. -/
structure FileAt (g : Geometry) (blocks : List ℕ) (content : List Byte) (head size : ℕ) (s : Fs) :
    Prop where
  resides : Resides g blocks content s
  tip : Tip blocks head
  count : blocks.length = Ctz.blockCount content.length g.blockSize
  max : blocks.length ≤ Ctz.maxCtzBlocks
  size : size = content.length

theorem FileAt.device {blocks : List ℕ} {content : List Byte} {head size : ℕ} {s s' : Fs}
    (h : FileAt g blocks content head size s) (hdevice : s'.device = s.device) :
    FileAt g blocks content head size s' :=
  ⟨(Resides.onBlocks _ _).device s s' h.resides hdevice, h.tip, h.count, h.max, h.size⟩

/-- The file as it was, and a file with new content. -/
def Replaces (g : Geometry) (blocks : List ℕ) (content content' : List Byte) (head size : ℕ)
    (s : Fs) : Prop :=
  Resides g blocks content s ∧ ∃ blocks', FileAt g blocks' content' head size s

section Operations

variable {blocks : List ℕ} {content content' data : List Byte} {head size : ℕ}

theorem sparing_announce {α : Type} (f : Unpublished → Unpublished) (a : α) {E : Fs → Prop} :
    Sparing g blocks content.length (Replaces g blocks content content' head size)
      (do
        account f
        pure a)
      (fun r s => r = a ∧ Replaces g blocks content content' head size s) E := by
  refine Triple.seq (R := Replaces g blocks content content' head size)
    (Triple.modify fun s hs => ?_) (Triple.pure fun s hs => ⟨rfl, hs⟩)
  obtain ⟨hold, blocks', hnew⟩ := hs
  exact ⟨(Resides.onBlocks _ _).device s _ hold rfl, blocks', hnew.device rfl⟩

/-- The end of the coordinates of an append. -/
structure Grows (g : Geometry) (blocks : List ℕ) (content data : List Byte) : Prop where
  floor : 128 ≤ g.blockSize
  bound : g.blockCount ≤ 2 ^ 32
  count : blocks.length = Ctz.blockCount content.length g.blockSize
  max : Ctz.blockCount (content.length + data.length) g.blockSize ≤ maxCtzWriteBlocks

theorem Grows.sizeInRange (h : Grows g blocks content data) :
    Ctz.SizeInRange g.blockSize (content.length + data.length) :=
  Ctz.sizeInRange_of_blockCount h.floor (Nat.le_trans h.max (by decide))

theorem Grows.old (h : Grows g blocks content data) : blocks.length ≤ Ctz.maxCtzBlocks := by
  rw [h.count]
  exact Nat.le_trans (Ctz.blockCount_mono h.floor h.sizeInRange (Nat.le_add_right _ _)) h.max

/-- The number of blocks an append adds. -/
def addedBlocks (g : Geometry) (content data : List Byte) : ℕ :=
  Ctz.blockCount (content.length + data.length) g.blockSize -
    Ctz.blockCount content.length g.blockSize

theorem Extended.fileAt {used tailBlocks news : List ℕ} {P : Fs → Prop} {newHead consumed : ℕ}
    {s : Fs} (hgrows : Grows g blocks content data)
    (hresides : Resides g tailBlocks (content ++ data.take consumed) s)
    (hext : Extended g used tailBlocks P (data.drop consumed)
      (if data.drop consumed = [] then 0 else addedBlocks g content data) news s)
    (hsub : ∀ b ∈ tailBlocks, b ∈ used) (htakes : Consumes g blocks content data consumed)
    (hlength : tailBlocks.length = blocks.length) (htip : Tip (tailBlocks ++ news) newHead) :
    FileAt g (tailBlocks ++ news) (content ++ data) newHead (content.length + data.length) s := by
  have hchain : (tailBlocks ++ news).length =
      Ctz.blockCount (content.length + data.length) g.blockSize := by
    rw [List.length_append, hlength, hext.handed.length, addedBlocks, ← hgrows.count]
    exact (htakes.count hgrows.floor hgrows.count hgrows.sizeInRange).1
  have hlen : (content ++ data).length = content.length + data.length := List.length_append
  refine ⟨hext.resides hgrows.floor hgrows.bound hresides hsub htakes hlength hgrows.sizeInRange
    hchain, htip, ?_, ?_, hlen.symm⟩
  · rw [hlen, hchain]
  · rw [hchain]
    exact hgrows.max

theorem Consumes.added_pos {consumed : ℕ} (h : Consumes g blocks content data consumed)
    (hgrows : Grows g blocks content data) :
    data.drop consumed ≠ [] → 0 < addedBlocks g content data := by
  rw [addedBlocks, ← hgrows.count]
  exact (h.count hgrows.floor hgrows.count hgrows.sizeInRange).2

/-- The end of an append whose fill is in its place. -/
theorem sparing_extendPlaced (hgrows : Grows g blocks content data) {tail consumed : ℕ}
    {tailBlocks : List ℕ} (htakes : Consumes g blocks content data consumed)
    (hlength : tailBlocks.length = blocks.length) (htip : Tip tailBlocks tail) :
    Sparing g blocks content.length
      (fun s => Resides g blocks content s ∧
        Resides g tailBlocks (content ++ data.take consumed) s)
      (appendBlocks g tail content.length (addedBlocks g content data) (data.drop consumed))
      (fun newHead =>
        Replaces g blocks content (content ++ data) newHead (content.length + data.length))
      (Resides g blocks content) := by
  have happend := @sparing_appendBlocks g blocks (blocks ++ tailBlocks) tailBlocks tail
    content.length (fun s => Resides g blocks content s ∧
      Resides g tailBlocks (content ++ data.take consumed) s) (data.drop consumed)
    ((Resides.onBlocks _ _).and (Resides.onBlocks _ _)) (fun _ h => ⟨_, h.2⟩) htip
    (hlength.trans hgrows.count) (hlength ▸ hgrows.old) (fun b hb => List.mem_append_right _ hb)
    (fun b hb => List.mem_append.1 hb) _ (htakes.added_pos hgrows)
  refine happend.conseq (fun _ h => h) ?_ fun _ _ h => h.1
  rintro newHead s ⟨news, hext, htip⟩
  obtain ⟨hold, hnew⟩ := hext.written.kept
  exact ⟨hold, _, hext.fileAt hgrows hnew (fun b hb => List.mem_append_right _ hb) htakes hlength
    htip⟩

/-- The chain as it was, with erased cells behind its end. -/
structure Roomy (g : Geometry) (blocks : List ℕ) (content : List Byte) (head off n : ℕ) (s : Fs) :
    Prop where
  resides : Resides g blocks content s
  erased : ∀ p < n, (s.device.get head).cell (off + p) = 0xFF

theorem Roomy.onBlocks (hmem : head ∈ blocks) (content : List Byte) (off n : ℕ) :
    OnBlocks blocks (Roomy g blocks content head off n) := by
  constructor
  · intro s s' hs hdevice
    refine ⟨(Resides.onBlocks _ _).device s s' hs.resides hdevice, ?_⟩
    rw [hdevice]
    exact hs.erased
  · intro addr haddr s s' hs hw
    refine ⟨(Resides.onBlocks _ _).stable addr haddr s s' hs.resides hw, ?_⟩
    rw [hw.other head fun heq => haddr (heq ▸ hmem)]
    exact hs.erased

/-- The fill that comes last. -/
theorem sparing_fillDeferred (hgrows : Grows g blocks content data) (htip : Tip blocks head)
    {off consumed newHead : ℕ} (htakes : Consumes g blocks content data consumed)
    (hpos : 0 < blocks.length) (hmem : head ∈ blocks)
    (hoff : off = Ctz.headerSize (blocks.length - 1) +
      (content.length - Ctz.capacityBelow g.blockSize (blocks.length - 1)))
    (hlower : Ctz.capacityBelow g.blockSize (blocks.length - 1) ≤ content.length) :
    Sparing g blocks content.length
      (fun s => ∃ news, Extended g blocks blocks (Roomy g blocks content head off consumed)
        (data.drop consumed) (if data.drop consumed = [] then 0 else addedBlocks g content data)
          news s ∧ Tip (blocks ++ news) newHead)
      (fillTail head (some (off, data.take consumed)))
      (fun _ =>
        Replaces g blocks content (content ++ data) newHead (content.length + data.length))
      (Resides g blocks content) := by
  have hlast : blocks.getLast? = some head := by
    rw [htip.concat_eq hpos, List.getLast?_concat]
  have hlen : (data.take consumed).length = consumed := by
    rw [List.length_take]
    exact Nat.min_eq_left htakes.le
  refine Triple.conseq (sparing_fillTail hlast hoff ?_) (fun _ h => h) ?_ ?_
  · rintro s ⟨news, hext, -⟩
    rw [hlen]
    exact hext.written.kept.erased
  · rintro - s' ⟨s, ⟨news, hext, htip'⟩, hw, hget⟩
    obtain ⟨hold, herased⟩ := hext.written.kept
    have hold' : Resides g blocks content s' := by
      refine hold.writesBehind htip hpos hoff hw fun p hp => ?_
      rw [hget]
      exact getD_programAt hp
    have hnew := hold'.filled htip hpos hoff hlower (by rw [hlen]; exact htakes.room)
      (by rw [hlen]; exact herased) hget
    -- the new blocks are not the head, so the fill leaves their images alone
    have himages : Programmed g (Resides g blocks content) (blocks ++ news) blocks.length
        (data.drop consumed) news.length s' := by
      refine ⟨hold', fun j hj b hb => ?_⟩
      have hb' := hb
      rw [List.getElem?_append_right (Nat.le_add_right _ _), Nat.add_sub_cancel_left] at hb'
      have hne : b ≠ head := by
        rintro rfl
        exact hext.handed.unused b (List.mem_of_getElem? hb') hmem
      rw [hw.other b hne]
      exact hext.written.image j hj b hb
    have hext' : Extended g blocks blocks (Resides g blocks content) (data.drop consumed)
        (if data.drop consumed = [] then 0 else addedBlocks g content data) news s' :=
      ⟨hext.handed, himages⟩
    exact ⟨hold', _, hext'.fileAt hgrows hnew (fun _ hb => hb) htakes rfl htip'⟩
  · rintro - s' ⟨s, ⟨news, hext, -⟩, hw, hcells⟩
    exact hext.written.kept.resides.writesBehind htip hpos hoff hw hcells

/-- `stream_ctz_extend`. -/
theorem sparing_streamCtzExtend (hB : 128 ≤ g.blockSize) (hbound : g.blockCount ≤ 2 ^ 32) :
    Sparing g blocks content.length (FileAt g blocks content head size)
      (streamCtzExtend g head size data)
      (fun r => Replaces g blocks content (content ++ data) r.1 r.2)
        (Resides g blocks content) := by
  refine ⟨fun s hs hev => ?_⟩
  obtain ⟨hresides, htip, hcount, hmaxOld, rfl⟩ := hs
  refine Triple.post (P := Resides g blocks content) ?_ s hresides hev
  refine Triple.ite (fun _ => Triple.fail fun _ hs => hs) fun _ =>
    Triple.ite (fun _ => Triple.fail fun _ hs => hs) fun hmax => ?_
  have hgrows : Grows g blocks content data := ⟨hB, hbound, hcount, Nat.le_of_not_lt hmax⟩
  refine Triple.bind (R := fun _ => Resides g blocks content)
    (Triple.lift (fun _ _ hs _ => hs) fun _ _ hs _ => hs) fun _ => ?_
  refine Triple.seq (R := Resides g blocks content) ?_ ?_
  · exact Triple.get_bind fun s hs => Triple.note fun s' hs' _ => ⟨True.intro, hs' ▸ hs⟩
  refine Triple.bind (sparing_planTail hB hcount hmaxOld htip) fun plan => ?_
  refine ⟨fun s hs hev => ?_⟩
  obtain ⟨hs, hplan⟩ := hs
  have hdone : ∀ newHead, Sparing g blocks content.length
      (Replaces g blocks content (content ++ data) newHead (content.length + data.length))
      (do
        holdChain newHead (content.length + data.length)
        pure (newHead, content.length + data.length))
      (fun r => Replaces g blocks content (content ++ data) r.1 r.2)
      (Resides g blocks content) := by
    intro newHead
    refine Triple.weaken (sparing_announce _ _) ?_
    rintro r s ⟨rfl, hs⟩
    exact hs
  cases hplan with
  | placed htakes hnew hlength htip' =>
      exact (Triple.bind (sparing_extendPlaced hgrows htakes hlength htip') hdone).post s
        ⟨hs, hnew⟩ hev
  | @deferred off consumed _ htakes hpos hoff hlower herased =>
      have hmem : head ∈ blocks := by
        rw [htip.concat_eq hpos]
        exact List.mem_append_right _ (List.mem_singleton_self _)
      have happend := sparing_appendBlocks (Roomy.onBlocks hmem content off consumed)
        (fun _ h => ⟨_, h.resides⟩) htip hgrows.count hgrows.old (fun _ hb => hb)
        (fun _ hb => .inl hb) (htakes.added_pos hgrows)
      refine (Triple.bind (happend.conseq (fun _ h => h) (fun _ _ h => h) fun _ _ h => h.resides)
        fun newHead => ?_).post s ⟨hs, herased⟩ hev
      exact Triple.seq (sparing_fillDeferred hgrows htip htakes hpos hmem hoff hlower)
        (hdone newHead)

/-- A chain that is cut behind block `i`, with that block or another one in its place, holds the
file that is left. -/
theorem Resides.cut {s : Fs} {i newTail newSize : ℕ} (hs : Resides g blocks content s)
    (hi : i < blocks.length) (hmax : blocks.length ≤ maxCtzWriteBlocks)
    (hle : newSize ≤ content.length) (hcount : Ctz.blockCount newSize g.blockSize = i + 1)
    (hlaid : Ctz.Laid g s.device (blocks.take i ++ [newTail]) (content.take newSize)) :
    Replaces g blocks content (content.take newSize) newTail newSize s := by
  have hlen : (content.take newSize).length = newSize := by
    rw [List.length_take]
    exact Nat.min_eq_left hle
  have hnew : (blocks.take i ++ [newTail]).length = i + 1 := by
    rw [List.length_append, List.length_take, List.length_singleton]
    omega
  refine ⟨hs, _, ⟨hs.size, hlaid⟩, tip_concat _ _, ?_, ?_, hlen.symm⟩
  · rw [hnew, hlen, hcount]
  · rw [hnew]
    exact Nat.le_trans (Nat.succ_le_of_lt hi) hmax

/-- `shrink_ctz_head`: the tail block stays when the content fills it, and is copied when it
does not. -/
theorem sparing_shrinkCtzHead (hB : 128 ≤ g.blockSize) {newSize : ℕ} (hpos : 0 < newSize)
    (hle : newSize ≤ content.length) :
    Sparing g blocks content.length (FileAt g blocks content head size)
      (shrinkCtzHead g head size newSize)
      (fun newHead => Replaces g blocks content (content.take newSize) newHead newSize)
      (Resides g blocks content) := by
  refine ⟨fun s hs hev => ?_⟩
  obtain ⟨hresides, htip, hcount, hmax, rfl⟩ := hs
  refine Triple.post (P := Resides g blocks content) ?_ s hresides hev
  have hrange : Ctz.SizeInRange g.blockSize content.length := by
    refine Ctz.sizeInRange_of_blockCount hB ?_
    rw [← hcount]
    exact Nat.le_trans hmax (by decide)
  have hcover : content.length ≤ Ctz.capacityBelow g.blockSize blocks.length := by
    rw [hcount]
    exact (Ctz.blockCount_le_iff hB hrange).1 (Nat.le_refl _)
  have hends := endsIn_index hB hpos (Ctz.sizeInRange_of_le hrange hle)
  have hcount' : Ctz.blockCount newSize g.blockSize =
      (Ctz.blockIndexAtOffset (newSize - 1) g.blockSize).1 + 1 := by
    rw [Ctz.blockCount, if_neg (Nat.ne_of_gt hpos)]
  rw [shrinkCtzHead, ← hcount]
  refine Triple.ite (fun _ => Triple.fail fun _ hs => hs) fun _ => ?_
  refine Triple.seq (R := Resides g blocks content) ?_ ?_
  · exact Triple.get_bind fun s hs => Triple.note fun s' hs' _ => ⟨True.intro, hs' ▸ hs⟩
  refine Triple.bind (R := fun chain s => Resides g blocks content s ∧ chain = blocks)
    (Triple.query (fun s chain hs hchain => ⟨hs, ?_⟩) fun _ _ hs _ => hs) fun chain => ?_
  · have hcollect := hs.laid.collect hs.size (Nat.le_refl _) htip
    exact Except.ok.inj (hchain.symm.trans hcollect)
  refine Triple.pre fun hchain => ?_
  subst hchain
  rcases hindex : Ctz.blockIndexAtOffset (newSize - 1) g.blockSize with ⟨i, absOff⟩
  rw [hindex] at hends hcount'
  obtain ⟨hlower, hupper, -, hused⟩ := hends
  rw [hindex] at hused
  simp only at hlower hupper hused hcount' ⊢
  have hi : i < chain.length := by
    by_contra hge
    have hmono := @Ctz.capacityBelow_mono g.blockSize _ _ (Nat.le_of_not_lt hge)
    omega
  obtain ⟨oldTail, htail⟩ : ∃ oldTail, chain[i]? = some oldTail := ⟨_, List.getElem?_eq_getElem hi⟩
  have hget : chain.getD i noBlock = oldTail := by
    rw [List.getD_eq_getElem?_getD, htail]
    rfl
  have htake := Ctz.take_concat htail
  have hlen : (content.take newSize).length = newSize := by
    rw [List.length_take]
    exact Nat.min_eq_left hle
  have hdone : ∀ newHead, Sparing g chain content.length
      (Replaces g chain content (content.take newSize) newHead newSize)
      (do
        holdChain newHead newSize
        pure newHead)
      (fun newHead => Replaces g chain content (content.take newSize) newHead newSize)
      (Resides g chain content) := by
    intro newHead
    refine Triple.weaken (sparing_announce _ _) ?_
    rintro r s ⟨rfl, hs⟩
    exact hs
  have hheader : 4 * Ctz.skipPointersInBlock i = Ctz.headerSize i := rfl
  rw [hget, hheader, hused]
  refine Triple.ite (fun hexact => ?_) fun _ => ?_
  · refine Triple.seq (R := Replaces g chain content (content.take newSize) oldTail newSize)
      (Triple.modify fun s hs => ?_) (hdone oldTail)
    have hs' := (Resides.onBlocks chain content).device s
      { s with unpublished := { s.unpublished with
        blocks := s.unpublished.blocks.filter (· ∉ chain.drop (i + 1))
        exposed := s.unpublished.exposed.filter (· ∉ chain.drop (i + 1)) } } hs rfl
    refine hs'.cut hi hmax hle hcount' ?_
    rw [← htake]
    exact hs.laid.take hupper
  · have hshrink :=
      @sparing_shrinkTail g chain chain content.length (Resides g chain content) oldTail
      (Resides.onBlocks _ _) (List.mem_of_getElem? htail) (fun _ _ _ hb => .inl hb)
      (Ctz.headerSize i + (newSize - Ctz.capacityBelow g.blockSize i)) maxBadBlockRetries chain
    refine Triple.bind hshrink fun newTail => ?_
    refine Triple.seq (R := Replaces g chain content (content.take newSize) newTail newSize)
      (Triple.modify fun s hs => ?_) (hdone newTail)
    obtain ⟨hs, hcopied⟩ := hs
    have hs' := (Resides.onBlocks chain content).device s
      { s with unpublished := { s.unpublished with
        blocks := s.unpublished.blocks.filter (· ∉ chain.drop i)
        exposed := s.unpublished.exposed.filter (· ∉ chain.drop i) } } hs rfl
    have hlaid := hs.laid.take (n := newSize) hupper
    rw [htake] at hlaid
    refine hs'.cut hi hmax hle hcount' (hlaid.replaceLast
      (fun hmem => hcopied.unused (List.mem_of_mem_take hmem)) hcopied.inBounds fun p hp => ?_)
    have htaken : (chain.take i).length = i := by
      rw [List.length_take]
      exact Nat.min_eq_left (Nat.le_of_lt hi)
    rw [htaken, hlen] at hp
    exact hcopied.cell hp

/-- `try_build_ctz_chain`. -/
theorem triple_tryBuildCtzChain (hB : 128 ≤ g.blockSize) (hbound : g.blockCount ≤ 2 ^ 32)
    {chain : List ℕ} (hnodup : chain.Nodup) (hinBounds : ∀ b ∈ chain, b < g.blockCount)
    (hcount : chain.length = Ctz.blockCount content.length g.blockSize)
    (hmax : chain.length ≤ maxCtzWriteBlocks) {K : Event → Prop} {E : Error → Fs → Prop} :
    Triple K (Event.Lands g [] 0) (fun s => s.device.blocks.length = g.blockCount)
      (tryBuildCtzChain g chain content)
      (fun worn s => worn = none →
        FileAt g chain content (chain.getD (chain.length - 1) noBlock) content.length s) E := by
  have hP : OnBlocks [] fun s : Fs => s.device.blocks.length = g.blockCount :=
    ⟨fun s s' hs hdevice => hdevice ▸ hs, fun addr _ s s' hs hw => hw.length.trans hs⟩
  have hloop := @triple_buildChainFrom g [] chain chain _ hP hnodup
    (fun b _ => List.not_mem_nil) content content 0 (List.drop_zero ..) (List.drop_zero ..).symm K E
  refine hloop.conseq (fun s hs => Programmed.zero hs) ?_ fun _ _ h => h
  rintro worn s ⟨hsize, hprogrammed⟩ hworn
  have himages := (hprogrammed hworn).image
  have hrange : Ctz.SizeInRange g.blockSize content.length := by
    refine Ctz.sizeInRange_of_blockCount hB ?_
    rw [← hcount]
    exact Nat.le_trans hmax (by decide)
  have hcover : content.length ≤ Ctz.capacityBelow g.blockSize chain.length := by
    rw [hcount]
    exact (Ctz.blockCount_le_iff hB hrange).1 (Nat.le_refl _)
  have hneed : chain = [] ∨ Ctz.capacityBelow g.blockSize (chain.length - 1) <
      ([] : List Byte).length + content.length := by
    by_cases hnone : chain = []
    · exact .inl hnone
    · have hpos := List.length_pos_of_ne_nil hnone
      have hless : ¬ Ctz.blockCount content.length g.blockSize ≤ chain.length - 1 := by omega
      rw [Ctz.blockCount_le_iff hB hrange] at hless
      rw [List.length_nil, Nat.zero_add]
      exact .inr (Nat.lt_of_not_le hless)
  have hlaid := (Ctz.Laid.nil g s.device).append hbound (.inr rfl) rfl hnodup hinBounds
    (fun j b hb => himages j (List.getElem?_eq_some_iff.1 hb).1 b (by
      rw [Nat.zero_add]
      exact hb)) (by
      rw [List.length_nil, Nat.zero_add]
      exact hcover) hneed
  refine ⟨⟨hsize, hlaid⟩, ?_, hcount, hmax, rfl⟩
  intro b hb
  rw [List.getLast?_eq_getElem?] at hb
  rw [List.getD_eq_getElem?_getD, hb]
  rfl

end Operations

end LittlefsPure
