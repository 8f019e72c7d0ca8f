import LittlefsPure.Chain.Read
import LittlefsPure.Fs.DeviceSpec

/-!
# Writing a chain

The writers of a chain's blocks: a new block is erased and programmed with its image, and
an image that does not read back gives its block up for another one.  All writes go to
blocks just handed out, so a condition on the blocks in use is kept throughout; what the
writers add is stated on top of it.

What is assumed of an allocation is that it hands out no block in use.

## Why the retries do not show

A writer that finds a worn block starts over with another, and what it has written stays on the
device.  The triples speak of the blocks that the writer ends up with, and of the rest only that
nothing in use was touched; so an attempt that failed leaves no trace in what the next one has to
establish.
-/

namespace LittlefsPure

open FsM Logic

variable {g : Geometry}

/-! ## Allocations of unused blocks -/

/-- The blocks of the chain that an allocation is told about. -/
def namedChain (g : Geometry) (d : Device) : Option (ℕ × ℕ) → List ℕ
  | none => []
  | some (head, size) =>
      match Ctz.collectChainBlocks g d head (Ctz.blockCount size g.blockSize) Ctz.maxCtzBlocks with
      | .ok blocks => blocks
      | .error _ => []

/-- An allocation hands out no block in use: none of `live`, and none of the chain it is
told about. -/
def Event.Unused (g : Geometry) (live : List ℕ) : Event → Prop
  | .alloc call _ blocks => ∀ b ∈ blocks, b ∉ live ∧ b ∉ namedChain g call.device call.chain
  | _ => True

instance (g : Geometry) (live : List ℕ) : DecidablePred (Event.Unused g live)
  | .alloc call _ blocks =>
      inferInstanceAs (Decidable (∀ b ∈ blocks, b ∉ live ∧ b ∉ namedChain g call.device call.chain))
  | .erase .. => isTrue True.intro
  | .program .. => isTrue True.intro
  | .programBytes .. => isTrue True.intro
  | .append .. => isTrue True.intro
  | .rebuild .. => isTrue True.intro
  | .commit .. => isTrue True.intro
  | .resume .. => isTrue True.intro

/-- Plain bytes go to a block just erased, or into the last block of the chain `live`, at the
end of its `size` bytes and onto cells that read as erased. -/
def Event.Lands (g : Geometry) (live : List ℕ) (size : ℕ) : Event → Prop
  | .programBytes before block off data =>
      before.get block = .erased ∧ off = 0 ∨
      live.getLast? = some block ∧
        off = Ctz.headerSize (live.length - 1) +
          (size - Ctz.capacityBelow g.blockSize (live.length - 1)) ∧
        ∀ p < data.length, (before.get block).cell (off + p) = 0xFF
  | _ => True

/-- A program that writes to unused blocks and behind the end of the chain `live` only, as long
as allocations hand out unused blocks. -/
abbrev Sparing {α : Type} (g : Geometry) (live : List ℕ) (size : ℕ) (P : Fs → Prop) (m : FsM α)
    (Q : α → Fs → Prop) (E : Fs → Prop) : Prop :=
  Triple (Event.Unused g live) (Event.Lands g live size) P m Q fun _ => E

/-- A condition on the device that only a write to one of the blocks `used` can break. -/
structure OnBlocks (used : List ℕ) (P : Fs → Prop) : Prop where
  device : ∀ s s', P s → s'.device = s.device → P s'
  stable : ∀ addr, addr ∉ used → Stable addr P

/-- Blocks as an allocation hands them out. -/
structure Handed (g : Geometry) (used : List ℕ) (want : ℕ) (blocks : List ℕ) : Prop where
  nodup : blocks.Nodup
  inBounds : ∀ b ∈ blocks, b < g.blockCount
  unused : ∀ b ∈ blocks, b ∉ used
  length : blocks.length = want

section Allocation

variable {live used : List ℕ} {size : ℕ} {P : Fs → Prop} {K O : Event → Prop}
  {E : Error → Fs → Prop}

theorem sparing_allocBlocks (hP : OnBlocks used P) {excluded : List ℕ} {chain : Option (ℕ × ℕ)}
    {want : ℕ} (hused : ∀ s, P s → ∀ b ∈ used, b ∈ live ∨ b ∈ namedChain g s.device chain) :
    Sparing g live size P (allocBlocks g false excluded chain want)
      (fun blocks s => P s ∧ Handed g used want blocks) P := by
  refine (triple_allocBlocks (fun _ _ _ _ _ _ _ => True.intro)
    fun s cache e hs _ => hP.device s _ hs rfl).weaken ?_
  rintro blocks s' ⟨s, base, taken, hs, rfl, hserved, hunused⟩
  refine ⟨hP.device s _ hs rfl, hserved.taken.nodup, hserved.taken.bound, ?_, hserved.taken.length⟩
  intro b hb hmem
  obtain ⟨hlive, hnamed⟩ := hunused b hb
  rcases hused s hs b hmem with h | h
  · exact hlive h
  · exact hnamed h

theorem OnBlocks.account (hP : OnBlocks used P) (f : Unpublished → Unpublished) :
    Triple K O P (account f) (fun _ => P) E :=
  Triple.modify fun s hs => hP.device s _ hs rfl

theorem OnBlocks.invalidate (hP : OnBlocks used P) :
    Triple K O P invalidateAllocCache (fun _ => P) E :=
  Triple.modify fun s hs => hP.device s _ hs rfl

end Allocation

/-! ## The images of new blocks -/

/-- The first `n` new blocks of a chain carry their images; the chain is `chain`, the new
blocks stand in it from `base` on and the content for them is `rest`. -/
structure Programmed (g : Geometry) (P : Fs → Prop) (chain : List ℕ) (base : ℕ) (rest : List Byte)
    (n : ℕ) (s : Fs) : Prop where
  kept : P s
  image : ∀ j < n, ∀ b, chain[base + j]? = some b →
    s.device.get b = .raw (chainImage g chain (base + j)
      (rest.drop (Ctz.capacityBelow g.blockSize (base + j) - Ctz.capacityBelow g.blockSize base)))

section Images

variable {live used chain : List ℕ} {size : ℕ} {P : Fs → Prop} {base n block : ℕ}
  {rest : List Byte} {K : Event → Prop} {E : Error → Fs → Prop}

theorem Programmed.zero {s : Fs} (hs : P s) : Programmed g P chain base rest 0 s :=
  ⟨hs, fun _ hj => absurd hj (Nat.not_lt_zero _)⟩

theorem OnBlocks.programmed (hP : OnBlocks used P) :
    OnBlocks (used ++ chain) (Programmed g P chain base rest n) := by
  constructor
  · intro s s' hs hdevice
    refine ⟨hP.device s s' hs.kept hdevice, fun j hj b hb => ?_⟩
    rw [hdevice]
    exact hs.image j hj b hb
  · intro addr haddr s s' hs hw
    rw [List.mem_append, not_or] at haddr
    refine ⟨hP.stable addr haddr.1 s s' hs.kept hw, fun j hj b hb => ?_⟩
    have hne : b ≠ addr := fun heq => haddr.2 (heq ▸ List.mem_of_getElem? hb)
    rw [hw.other b hne]
    exact hs.image j hj b hb

/-- One more block. -/
theorem triple_writeBlock (hP : OnBlocks used P) (hnodup : chain.Nodup)
    (hblock : chain[base + n]? = some block) (hunused : block ∉ used) {content : List Byte}
    (hcontent : content = rest.drop
      (Ctz.capacityBelow g.blockSize (base + n) - Ctz.capacityBelow g.blockSize base)) :
    Triple K (Event.Lands g live size) (Programmed g P chain base rest n)
      (eraseAndProgramBytes block (chainImage g chain (base + n) content))
      (fun ok s => Programmed g P chain base rest n s ∧
        (ok = true → Programmed g P chain base rest (n + 1) s)) E := by
  have hstable : Stable block (Programmed g P chain base rest n) := by
    intro s s' hs hw
    refine ⟨hP.stable block hunused s s' hs.kept hw, fun j hj b hb => ?_⟩
    have hne : b ≠ block := by
      rintro rfl
      obtain ⟨hlt, hj'⟩ := List.getElem?_eq_some_iff.1 hb
      obtain ⟨hlt', hn'⟩ := List.getElem?_eq_some_iff.1 hblock
      have heq := (List.Nodup.getElem_inj_iff hnodup).1 (hj'.trans hn'.symm)
      omega
    rw [hw.other b hne]
    exact hs.image j hj b hb
  refine (triple_eraseAndProgramBytes hstable _ (fun _ _ => True.intro)
    (fun _ _ => True.intro) fun _ herased => .inl ⟨herased, rfl⟩).weaken ?_
  rintro ok s ⟨hs, hget⟩
  refine ⟨hs, fun hok => ⟨hs.kept, fun j hj b hb => ?_⟩⟩
  by_cases hj' : j < n
  · exact hs.image j hj' b hb
  · obtain rfl : j = n := by omega
    rw [hblock] at hb
    cases hb
    rw [hget hok, hcontent]

/-- What is left of the content behind one more block. -/
theorem drop_capacity (i : ℕ) :
    (rest.drop (Ctz.capacityBelow g.blockSize (base + i) - Ctz.capacityBelow g.blockSize base)).drop
        (g.blockSize - 4 * Ctz.skipPointersInBlock (base + i)) =
      rest.drop (Ctz.capacityBelow g.blockSize (base + (i + 1)) -
        Ctz.capacityBelow g.blockSize base) := by
  have hmono := @Ctz.capacityBelow_mono g.blockSize base (base + i) (Nat.le_add_right _ _)
  rw [List.drop_drop, ← Nat.add_assoc, Ctz.capacityBelow, Ctz.contentBytesInBlock]
  congr 1
  omega

end Images

/-! ## A new chain -/

/-- A new chain is built block by block; a worn block ends the loop. -/
theorem triple_buildChainFrom {used chain todo : List ℕ} {P : Fs → Prop} (hP : OnBlocks used P)
    (hnodup : chain.Nodup) (hunused : ∀ b ∈ chain, b ∉ used) {rest content : List Byte} {i : ℕ}
    (htodo : chain.drop i = todo)
    (hcontent : content = rest.drop (Ctz.capacityBelow g.blockSize i)) {K : Event → Prop}
    {E : Error → Fs → Prop} :
    Triple K (Event.Lands g [] 0) (Programmed g P chain 0 rest i)
      (buildChainFrom g chain todo i content)
      (fun worn s => P s ∧ (worn = none → Programmed g P chain 0 rest chain.length s)) E := by
  induction todo generalizing i content with
  | nil =>
      have hlen : chain.length ≤ i := List.drop_eq_nil_iff.1 htodo
      exact Triple.pure fun s hs =>
        ⟨hs.kept, fun _ => ⟨hs.kept, fun j hj => hs.image j (Nat.lt_of_lt_of_le hj hlen)⟩⟩
  | cons block todo ih =>
      have hblock : chain[0 + i]? = some block := by
        rw [Nat.zero_add, ← List.head?_drop, htodo]
        rfl
      have hnext : chain.drop (i + 1) = todo := by
        rw [← List.drop_drop, htodo]
        rfl
      have hcontent' : content = rest.drop
          (Ctz.capacityBelow g.blockSize (0 + i) - Ctz.capacityBelow g.blockSize 0) := by
        rw [Nat.zero_add]
        exact hcontent
      have hstep := @triple_writeBlock g [] used chain 0 P 0 i block rest K E hP hnodup hblock
        (hunused block (List.mem_of_getElem? hblock)) content hcontent'
      rw [Nat.zero_add] at hstep
      refine Triple.bind hstep fun ok => Triple.ite (fun hok => ?_) fun _ => ?_
      · have hdrop := @drop_capacity g 0 rest i
        rw [← hcontent', Nat.zero_add, Nat.zero_add] at hdrop
        refine Triple.seq (R := Programmed g P chain 0 rest (i + 1)) ?_ (ih hnext hdrop)
        refine Triple.strengthen (hP.programmed.account _) ?_
        exact fun s hs => hs.2 hok
      · refine Triple.seq (R := P) ?_ (Triple.pure fun s hs => ⟨hs, fun h => (by cases h)⟩)
        exact Triple.strengthen (hP.account _) fun s hs => hs.1.kept

/-! ## The pointers of an extended chain -/

/-- The pointers that the extension computes are those of the whole chain. -/
theorem sparing_extendPointers {live tailBlocks news : List ℕ} {size tail i : ℕ} {P : Fs → Prop}
    (hlaid : ∀ s, P s → s.device.blocks.length = g.blockCount ∧
      ∃ content, Ctz.Laid g s.device tailBlocks content)
    (htail : ∀ b, tailBlocks.getLast? = some b → tail = b) (ks : List ℕ) :
    Sparing g live size P (extendPointers g news tail tailBlocks.length i ks)
      (fun pointers s => P s ∧ pointers =
        ks.flatMap fun k => le32 ((tailBlocks ++ news).getD (i - 2 ^ k) 0)) P := by
  induction ks with
  | nil => exact Triple.pure fun s hs => ⟨hs, rfl⟩
  | cons k ks ih =>
      refine Triple.ite (fun _ => Triple.fail fun _ hs => hs) fun _ => ?_
      set target := i - 2 ^ k with htarget
      refine Triple.bind (R := fun phys s => P s ∧ phys = (tailBlocks ++ news).getD target 0) ?_
        fun phys => ?_
      · refine Triple.query (fun s phys hs hphys => ⟨hs, ?_⟩) fun _ _ hs _ => hs
        rw [List.getD_eq_getElem?_getD]
        replace hphys : (if tailBlocks.length ≤ target then
            .ok (news.getD (target - tailBlocks.length) 0)
          else Ctz.seekBlock g s.device tail (tailBlocks.length - 1) target) = .ok phys := hphys
        by_cases hnew : tailBlocks.length ≤ target
        · rw [if_pos hnew] at hphys
          cases hphys
          rw [List.getElem?_append_right hnew, List.getD_eq_getElem?_getD]
        · rw [if_neg hnew] at hphys
          have hlt : target < tailBlocks.length := Nat.lt_of_not_le hnew
          obtain ⟨hdev, content, h⟩ := hlaid s hs
          have hlast : tailBlocks[tailBlocks.length - 1]? = some tail := by
            rw [← List.getLast?_eq_getElem?]
            cases hl : tailBlocks.getLast? with
            | none =>
                rw [List.getLast?_eq_none_iff] at hl
                rw [hl] at hlt
                exact absurd hlt (Nat.not_lt_zero _)
            | some b => rw [htail b hl]
          obtain ⟨block, hblock⟩ : ∃ block, tailBlocks[target]? = some block :=
            ⟨_, List.getElem?_eq_getElem hlt⟩
          rw [h.seekBlock hdev hlast hblock (by omega)] at hphys
          cases hphys
          rw [List.getElem?_append_left hlt, hblock]
          rfl
      · refine Triple.bind (R := fun more s => (P s ∧ more =
          ks.flatMap fun k => le32 ((tailBlocks ++ news).getD (i - 2 ^ k) 0)) ∧
            phys = (tailBlocks ++ news).getD target 0) (Triple.pre fun hphys => ?_) fun more => ?_
        · exact ih.weaken fun more s hs => ⟨hs, hphys⟩
        · refine Triple.pure ?_
          rintro s ⟨⟨hs, hmore⟩, hphys⟩
          exact ⟨hs, by rw [hmore, hphys]; rfl⟩

/-! ## An extended chain -/

section Extend

variable {live used tailBlocks : List ℕ} {size tail : ℕ} {P : Fs → Prop} {rest : List Byte}

/-- The new blocks of an extended chain are written one by one; a worn block ends the loop. -/
theorem sparing_extendBlocksFrom (hP : OnBlocks used P)
    (hlaid : ∀ s, P s → s.device.blocks.length = g.blockCount ∧
      ∃ content, Ctz.Laid g s.device tailBlocks content)
    (htail : ∀ b, tailBlocks.getLast? = some b → tail = b) {news todo : List ℕ}
    (hnodup : (tailBlocks ++ news).Nodup) (hunused : ∀ b ∈ news, b ∉ used) {content : List Byte}
    {i j : ℕ} (hi : i = tailBlocks.length + j) (htodo : news.drop j = todo)
    (hcontent : content = rest.drop
      (Ctz.capacityBelow g.blockSize i - Ctz.capacityBelow g.blockSize tailBlocks.length)) :
    Sparing g live size (Programmed g P (tailBlocks ++ news) tailBlocks.length rest j)
      (extendBlocksFrom g news tail tailBlocks.length todo i content)
      (fun worn s => P s ∧ (worn = none →
        Programmed g P (tailBlocks ++ news) tailBlocks.length rest news.length s)) P := by
  induction todo generalizing i j content with
  | nil =>
      have hlen : news.length ≤ j := List.drop_eq_nil_iff.1 htodo
      exact Triple.pure fun s hs =>
        ⟨hs.kept, fun _ => ⟨hs.kept, fun j' hj => hs.image j' (Nat.lt_of_lt_of_le hj hlen)⟩⟩
  | cons block todo ih =>
      subst hi
      have hget : news[j]? = some block := by
        rw [← List.head?_drop, htodo]
        rfl
      have hblock : (tailBlocks ++ news)[tailBlocks.length + j]? = some block := by
        rw [List.getElem?_append_right (Nat.le_add_right _ _), Nat.add_sub_cancel_left]
        exact hget
      have hnext : news.drop (j + 1) = todo := by
        rw [← List.drop_drop, htodo]
        rfl
      set chain := tailBlocks ++ news with hchain
      refine Triple.bind (R := fun pointers s =>
        Programmed g P chain tailBlocks.length rest j s ∧ pointers =
          (List.range (Ctz.skipPointersInBlock (tailBlocks.length + j))).flatMap
            fun k => le32 (chain.getD (tailBlocks.length + j - 2 ^ k) 0)) ?_ fun pointers => ?_
      · refine Triple.conseq (sparing_extendPointers (fun s hs => hlaid s hs.kept) htail _)
          (fun _ hs => hs) (fun _ _ hs => hs) fun _ s hs => hs.kept
      · refine Triple.pre fun hpointers => ?_
        subst hpointers
        refine Triple.bind (triple_writeBlock hP hnodup hblock
          (hunused block (List.mem_of_getElem? hget)) hcontent) fun ok =>
            Triple.ite (fun hok => ?_) fun _ => ?_
        · have hdrop := @drop_capacity g tailBlocks.length rest j
          rw [← hcontent, ← Nat.add_assoc] at hdrop
          refine Triple.seq (R := Programmed g P chain tailBlocks.length rest (j + 1)) ?_
            (ih (Nat.add_assoc ..) hnext hdrop)
          refine Triple.strengthen (hP.programmed.account _) ?_
          exact fun s hs => hs.2 hok
        · refine Triple.seq (R := P) ?_ (Triple.pure fun s hs => ⟨hs, fun h => (by cases h)⟩)
          exact Triple.strengthen (hP.account _) fun s hs => hs.1.kept

/-- The blocks behind the tail, and the head of the extended chain. -/
structure Extended (g : Geometry) (used tailBlocks : List ℕ) (P : Fs → Prop) (rest : List Byte)
    (newCount : ℕ) (news : List ℕ) (s : Fs) : Prop where
  handed : Handed g used newCount news
  written : Programmed g P (tailBlocks ++ news) tailBlocks.length rest news.length s

theorem sparing_extendChain (hP : OnBlocks used P)
    (hlaid : ∀ s, P s → s.device.blocks.length = g.blockCount ∧
      ∃ content, Ctz.Laid g s.device tailBlocks content)
    (htail : ∀ b, tailBlocks.getLast? = some b → tail = b) (hsub : ∀ b ∈ tailBlocks, b ∈ used)
    {chain : Option (ℕ × ℕ)}
    (hused : ∀ s, P s → ∀ b ∈ used, b ∈ live ∨ b ∈ namedChain g s.device chain) (newCount : ℕ)
    (left : ℕ) (excluded : List ℕ) :
    Sparing g live size P (extendChain g tail tailBlocks.length newCount rest chain left excluded)
      (fun news => Extended g used tailBlocks P rest newCount news) P := by
  have hround : ∀ news : List ℕ, Sparing g live size (fun s => P s ∧ Handed g used newCount news)
      (extendBlocksFrom g news tail tailBlocks.length news tailBlocks.length rest)
      (fun worn s =>
        P s ∧ (worn = none → Extended g used tailBlocks P rest newCount news s)) P := by
    intro news
    refine Triple.pre fun hnews => ?_
    refine ⟨fun s hs hev => ?_⟩
    obtain ⟨-, content, h⟩ := hlaid s hs
    have hnodup : (tailBlocks ++ news).Nodup := by
      rw [List.nodup_append]
      refine ⟨h.nodup, hnews.nodup, fun x hx y hy hxy => hnews.unused y hy (hsub y ?_)⟩
      rw [← hxy]
      exact hx
    have hcontent : rest = rest.drop (Ctz.capacityBelow g.blockSize tailBlocks.length -
        Ctz.capacityBelow g.blockSize tailBlocks.length) := by
      rw [Nat.sub_self, List.drop_zero]
    have hloop := @sparing_extendBlocksFrom g live used tailBlocks size tail P rest hP hlaid htail
        news
      news hnodup hnews.unused rest _ 0 (Nat.add_zero _).symm (List.drop_zero ..) hcontent
    refine (Triple.weaken hloop ?_).post s (Programmed.zero hs) hev
    rintro worn s ⟨hs, hprogrammed⟩
    exact ⟨hs, fun hworn => ⟨hnews, hprogrammed hworn⟩⟩
  induction left generalizing excluded with
  | zero =>
      rw [extendChain]
      refine Triple.bind (sparing_allocBlocks hP hused) fun news =>
        Triple.bind (hround news) fun worn => ?_
      cases worn with
      | none => exact Triple.pure fun s hs => hs.2 rfl
      | some bad => exact Triple.fail fun s hs => hs.1
  | succ left ih =>
      rw [extendChain]
      refine Triple.bind (sparing_allocBlocks hP hused) fun news =>
        Triple.bind (hround news) fun worn => ?_
      cases worn with
      | none => exact Triple.pure fun s hs => hs.2 rfl
      | some bad =>
          refine Triple.seq ?_ (ih _)
          exact Triple.strengthen hP.invalidate fun s hs => hs.1

end Extend

end LittlefsPure
