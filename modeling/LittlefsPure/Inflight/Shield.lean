import LittlefsPure.Fs.DeviceSpec
import LittlefsPure.Fs.Run

/-!
# Blocks in flight

While an operation runs, it has programmed blocks that nothing durable names:
`Fs.unpublished` lists them.  `Shielded` is what keeps the allocator away from them.
Each is marked in the cache, if there is one, and a rescan finds it too: because the
operation hands it over as excluded, or because it lies on the upper part of the
chain the operation hands over.

The statements are triples over the events of a run.  A run is spoken about as long
as its events are `Tracked`; it then spares the blocks in flight, which is
`SparesInflight` of each of its events.

## Why the cache and the rescan

The allocator serves a request from the cached bitmap as long as it has free blocks, and scans
anew when it has not.  A block in flight has to be marked in the first and found by the second,
and these are kept up by different means: a block that is handed out is marked in the cache by
the allocation itself, and a rescan is told about it by the caller.
-/

namespace LittlefsPure

open FsM Logic

variable (g : Geometry)

/-! ## The condition and the obligation -/

/-- The call is served from the cache it is given, without a rescan. -/
def AllocCall.fromCache (call : AllocCall) : Bool :=
  match call.cache with
  | some used => (Alloc.takeFreeBlocks used call.excluded call.want g.blockCount).2.isSome
  | none => false

/-- The cache, if there is one, has the head of the chain that is handed over marked. -/
def AllocCall.headCached (call : AllocCall) : Prop :=
  ∀ used head size, call.cache = some used → call.chain = some (head, size) →
    used.isSet head = true

instance (call : AllocCall) : Decidable call.headCached :=
  match hcache : call.cache, hchain : call.chain with
  | some used, some (head, _) =>
      decidable_of_iff (used.isSet head = true)
        ⟨fun h used' head' size' hc hp => by
          rw [hcache] at hc
          rw [hchain] at hp
          cases hc
          cases hp
          exact h, fun h => h used head _ hcache hchain⟩
  | none, _ => isTrue fun used head size hc hp => by
      rw [hcache] at hc
      cases hc
  | some _, none => isTrue fun used head size hc hp => by
      rw [hchain] at hp
      cases hp

/-- No allocation is made by a rescan while a block in flight has dropped out of what the
operation hands over, the cache knows of the chain that is handed over, and no commit is
addressed to a block in flight. -/
def Event.Tracked : Event → Prop
  | .alloc call unpublished _ =>
      (unpublished.exposed = [] ∨ call.fromCache g = true) ∧ call.headCached
  | .commit _ _ request unpublished =>
      request.pair.a ∉ unpublished.blocks ∧ request.pair.b ∉ unpublished.blocks
  | _ => True

/-- No block in flight is handed out or erased. -/
def Event.SparesInflight : Event → Prop
  | .alloc _ unpublished blocks => ∀ b ∈ blocks, b ∉ unpublished.blocks
  | .erase _ block unpublished => block ∉ unpublished.blocks
  | _ => True

instance : DecidablePred (Event.Tracked g)
  | .alloc call unpublished _ =>
      inferInstanceAs (Decidable ((unpublished.exposed = [] ∨ call.fromCache g = true) ∧
        call.headCached))
  | .commit _ _ request unpublished =>
      inferInstanceAs (Decidable (request.pair.a ∉ unpublished.blocks ∧
        request.pair.b ∉ unpublished.blocks))
  | .erase .. | .program .. | .programBytes .. | .append .. | .rebuild .. | .resume .. =>
      isTrue True.intro

instance : DecidablePred Event.SparesInflight
  | .alloc _ unpublished blocks =>
      inferInstanceAs (Decidable (∀ b ∈ blocks, b ∉ unpublished.blocks))
  | .erase _ block unpublished => inferInstanceAs (Decidable (block ∉ unpublished.blocks))
  | .program .. | .programBytes .. | .commit .. | .append .. | .rebuild .. | .resume .. =>
      isTrue True.intro

/-- The triples of this development, with one condition for all failures. -/
abbrev Guarded {α : Type} (P : Fs → Prop) (m : FsM α) (Q : α → Fs → Prop) (E : Fs → Prop) : Prop :=
  Triple (Event.Tracked g) Event.SparesInflight P m Q fun _ => E

/-! ## Shielded blocks -/

/-- The cache, if there is one, has the block marked. -/
def Fs.Cached (s : Fs) (b : ℕ) : Prop := ∀ used, s.usedCache = some used → used.isSet b = true

/-- The blocks of a chain in flight that are themselves in flight, head first. -/
structure UpperChain (d : Device) (chain : Option (ℕ × ℕ)) (upper : List ℕ) : Prop where
  nodup : upper.Nodup
  tracked : ∀ b ∈ upper, b < maxTrackedBlocks
  linked : upper = [] ∨ ∃ head size rest, chain = some (head, size) ∧ upper = head :: rest ∧
    upper.length ≤ Ctz.blockCount size g.blockSize ∧
    Ctz.Descends d (Ctz.blockCount size g.blockSize - 1) upper

/-- The blocks in flight are marked in the cache and found by a rescan that is handed
`known` and `chain`. -/
structure Shielded (known : List ℕ) (chain : Option (ℕ × ℕ)) (upper : List ℕ) (s : Fs) : Prop where
  cached : ∀ b ∈ s.unpublished.blocks, s.Cached b
  found : ∀ b ∈ s.unpublished.blocks, b ∈ known ∨ b ∈ upper ∨ b ∈ s.unpublished.exposed
  chained : UpperChain g s.device chain upper
  held : ∀ b ∈ upper, b ∈ s.unpublished.blocks

/-- Nothing is in flight. -/
structure Settled (s : Fs) : Prop where
  blocks : s.unpublished.blocks = []
  exposed : s.unpublished.exposed = []

variable {g}

theorem upperChain_nil {d : Device} {chain : Option (ℕ × ℕ)} : UpperChain g d chain [] :=
  ⟨List.nodup_nil, nofun, .inl rfl⟩

theorem Settled.shielded {s : Fs} (h : Settled s) (known : List ℕ) (chain : Option (ℕ × ℕ)) :
    Shielded g known chain [] s where
  cached := by rw [h.blocks]; exact nofun
  found := by rw [h.blocks]; exact nofun
  chained := upperChain_nil
  held := nofun

theorem Shielded.mono {known known' : List ℕ} {chain : Option (ℕ × ℕ)} {upper : List ℕ} {s : Fs}
    (h : Shielded g known chain upper s) (hsub : ∀ b ∈ known, b ∈ known') :
    Shielded g known' chain upper s :=
  ⟨h.cached, fun b hb => (h.found b hb).imp_left (hsub b), h.chained, h.held⟩

/-! ### The account -/

theorem Shielded.dropCache {known upper : List ℕ} {chain : Option (ℕ × ℕ)} {s : Fs}
    (h : Shielded g known chain upper s) :
    Shielded g known chain upper { s with usedCache := none } :=
  ⟨fun _ _ => nofun, h.found, h.chained, h.held⟩

/-- Blocks that become held are handed over from then on. -/
theorem Shielded.hold {known upper blocks : List ℕ} {chain : Option (ℕ × ℕ)} {s : Fs}
    (h : Shielded g known chain upper s) (hcached : ∀ b ∈ blocks, s.Cached b) :
    Shielded g (known ++ blocks) chain upper
      { s with unpublished :=
          { s.unpublished with blocks := s.unpublished.blocks ++ blocks } } where
  cached b hb := by
    rcases List.mem_append.1 hb with hb | hb
    · exact h.cached b hb
    · exact hcached b hb
  found b hb := by
    rcases List.mem_append.1 hb with hb | hb
    · exact (h.found b hb).imp_left (List.mem_append_left _)
    · exact .inl (List.mem_append_right _ hb)
  chained := h.chained
  held b hb := List.mem_append_left _ (h.held b hb)

/-! ## Writes to one block -/

theorem UpperChain.congr {d d' : Device} {chain : Option (ℕ × ℕ)} {upper : List ℕ}
    (h : UpperChain g d chain upper) (hsame : ∀ b ∈ upper, Ctz.SameLinks d d' b) :
    UpperChain g d' chain upper := by
  refine ⟨h.nodup, h.tracked, h.linked.imp_right ?_⟩
  rintro ⟨head, size, rest, hchain, hupper, hlen, hlinks⟩
  exact ⟨head, size, rest, hchain, hupper, hlen, hlinks.congr hsame⟩

theorem WritesOnly.sameLinks {addr : ℕ} {s s' : Fs} (h : WritesOnly addr s s') {b : ℕ}
    (hb : b ≠ addr) : Ctz.SameLinks s.device s'.device b := by
  constructor
  · rw [h.other b hb]
  · rw [h.other b hb]

theorem WritesOnly.shielded {addr : ℕ} {known : List ℕ} {chain : Option (ℕ × ℕ)} {upper : List ℕ}
    {s s' : Fs} (h : WritesOnly addr s s') (hs : Shielded g known chain upper s)
    (haddr : addr ∉ upper) : Shielded g known chain upper s' := by
  have hsame : ∀ b ∈ upper, Ctz.SameLinks s.device s'.device b :=
    fun b hb => h.sameLinks fun heq => haddr (heq ▸ hb)
  refine ⟨?_, ?_, hs.chained.congr hsame, ?_⟩
  · rw [h.unpublished]
    intro b hb used hused
    rw [h.usedCache] at hused
    exact hs.cached b hb used hused
  · rw [h.unpublished]
    exact hs.found
  · rw [h.unpublished]
    exact hs.held

/-! ## Erasing and programming -/

section DeviceCalls

variable {P : Fs → Prop} {E : Fs → Prop} {addr : ℕ}

/-- An erase spares the blocks in flight when its block is not one of them; when it
reports success the block is erased. -/
theorem guarded_eraseBlock (hspare : ∀ s, P s → addr ∉ s.unpublished.blocks) :
    Guarded g P (eraseBlock addr)
      (fun ok s' => ∃ s, P s ∧ WritesOnly addr s s' ∧
        (ok = true → addr < s'.device.blocks.length ∧ s'.device.get addr = .erased)) E := by
  refine (triple_eraseBlock hspare).weaken ?_
  rintro ok s' ⟨s, hs, hw, -, herased⟩
  exact ⟨s, hs, hw, herased⟩

/-- A program leaves the block as it was, torn or with the new content; when the read back
agrees it is the new content. -/
theorem guarded_programBlock (torn : ℕ → Block) (after : Block) :
    Guarded g P (programBlock addr torn after)
      (fun report s' => ∃ s, P s ∧ WritesOnly addr s s' ∧
        (s'.device.get addr = s.device.get addr ∨ (∃ n, s'.device.get addr = torn n) ∨
          s'.device.get addr = after) ∧
        (report = .verified → s'.device.get addr = after)) E :=
  triple_programBlock torn after fun _ _ => True.intro

/-- Conditions that writes to the block keep, through an erase and a program of it. -/
theorem guarded_eraseAndProgramLog (hP : Stable addr P)
    (hspare : ∀ s, P s → addr ∉ s.unpublished.blocks) (l : MetadataLog) :
    Guarded g P (eraseAndProgramLog addr l) (fun _ => P) E := by
  refine (triple_eraseAndProgramLog l hspare fun _ _ _ _ _ => True.intro).weaken ?_
  rintro ok s' ⟨s, hs, hw, -⟩
  exact hP s s' hs hw

/-- The same for plain bytes, which are what the block then holds. -/
theorem guarded_eraseAndProgramBytes (hP : Stable addr P)
    (hspare : ∀ s, P s → addr ∉ s.unpublished.blocks) (data : List Byte) :
    Guarded g P (eraseAndProgramBytes addr data)
      (fun ok s => P s ∧ (ok = true → s.device.get addr = .raw data)) E :=
  triple_eraseAndProgramBytes hP data hspare (fun _ _ => True.intro) fun _ _ => True.intro

end DeviceCalls

/-! ## Allocation -/

variable (g) in
/-- Blocks as an allocation hands them out. -/
structure Fresh (excluded : List ℕ) (chain : Option (ℕ × ℕ)) (want : ℕ) (blocks : List ℕ)
    (s : Fs) : Prop where
  free : ∀ b ∈ blocks, b ∉ s.unpublished.blocks
  cached : ∀ b ∈ blocks, s.Cached b
  avoids : ∀ b ∈ blocks, b ∉ excluded
  tracked : ∀ b ∈ blocks, b < maxTrackedBlocks
  nodup : blocks.Nodup
  length : blocks.length = want
  excluded : ∀ b ∈ excluded, s.Cached b
  head : ∀ head size, chain = some (head, size) → 0 < Ctz.blockCount size g.blockSize →
    head ∉ blocks

section Allocation

variable {P : Fs → Prop} {E : Fs → Prop} {known excluded upper : List ℕ} {chain : Option (ℕ × ℕ)}

/-- What the allocator starts from has the shielded blocks marked, or hands out none of
them because they are excluded. -/
theorem Shielded.avoided {s : Fs} (h : Shielded g known chain upper s)
    (hknown : ∀ b ∈ known, b ∈ excluded) {singleBuf : Bool} {want : ℕ} {base used : Bitmap}
    {blocks : List ℕ}
    (hserved : Alloc.Served g s.device s.root singleBuf s.usedCache excluded chain want base used
      blocks)
    (htracked : s.unpublished.exposed = [] ∨ (AllocCall.mk s.device s.root singleBuf s.usedCache
      excluded chain want).fromCache g = true) :
    ∀ b ∈ s.unpublished.blocks, b ∉ blocks ∧ used.isSet b = true := by
  intro b hb
  have hbase : base.isSet b = true → b ∉ blocks ∧ used.isSet b = true := by
    refine fun hset => ⟨fun hmem => ?_, hserved.le b hset⟩
    rw [hserved.taken.free b hmem] at hset
    cases hset
  rcases hserved.source with hcache | ⟨hscan, hmiss⟩
  · exact hbase (h.cached b hb base hcache)
  have hexposed : s.unpublished.exposed = [] := by
    rcases htracked with hnil | hhit
    · exact hnil
    · unfold AllocCall.fromCache at hhit
      split at hhit
      · next bm hbm =>
          simp only at hbm hhit
          rw [hmiss bm hbm] at hhit
          cases hhit
      · cases hhit
  rcases h.found b hb with hmem | hmem | hmem
  · exact ⟨fun hout => hserved.avoids b hout (hknown b hmem), hserved.excluded b (hknown b hmem)⟩
  · rcases h.chained.linked with hnil | ⟨head, size, rest, rfl, rfl, hlen, hlinks⟩
    · rw [hnil] at hmem
      cases hmem
    · exact hbase (Alloc.rescan_marks_chain hlinks hlen hscan b hmem)
  · rw [hexposed] at hmem
    cases hmem

/-- The head of the chain that is handed over is not handed out. -/
theorem Alloc.Served.head_notMem {d : Device} {root : BlockPair} {singleBuf : Bool}
    {cache : Option Bitmap} {want : ℕ} {base used : Bitmap} {blocks : List ℕ}
    (hserved : Alloc.Served g d root singleBuf cache excluded chain want base used blocks)
    (htracked : (AllocCall.mk d root singleBuf cache excluded chain want).headCached)
    {head size : ℕ} (hchain : chain = some (head, size))
    (hsize : 0 < Ctz.blockCount size g.blockSize) : head ∉ blocks := by
  subst hchain
  have hbase : base.isSet head = true := by
    rcases hserved.source with hcache | ⟨hscan, -⟩
    · exact htracked base head size hcache rfl
    · refine @Alloc.rescan_marks_chain _ _ _ _ _ _ [] _ ⟨⟨nofun, fun _ => nofun⟩, True.intro⟩ ?_
        hscan
        head (List.mem_singleton_self head)
      exact hsize
  intro hmem
  rw [hserved.taken.free head hmem] at hbase
  cases hbase

variable (known upper chain) in
theorem guarded_allocBlocks (hknown : ∀ b ∈ known, b ∈ excluded) (hP : CacheFree P)
    (singleBuf : Bool) (want : ℕ)
    (hE : ∀ s, Shielded g known chain upper s → P s → E s) :
    Guarded g (fun s => Shielded g known chain upper s ∧ P s)
      (allocBlocks g singleBuf excluded chain want)
      (fun blocks s =>
        Shielded g known chain upper s ∧ P s ∧ Fresh g excluded chain want blocks s) E := by
  refine (triple_allocBlocks ?_ ?_).weaken ?_
  · rintro s base used blocks ⟨hshield, hPs⟩ hserved htracked b hb hmem
    exact (hshield.avoided hknown hserved htracked.1 b hmem).1 hb
  · rintro s cache e ⟨hshield, hPs⟩ hcall
    refine hE _ ⟨fun b hb used hused => ?_, hshield.found, hshield.chained, hshield.held⟩
      (hP s cache hPs)
    cases hused
    obtain ⟨old, hold, hle⟩ := Alloc.allocCached_error hcall
    exact hle b (hshield.cached b hb old hold)
  · rintro blocks s' ⟨s, base, used, ⟨hshield, hPs⟩, rfl, hserved, htracked⟩
    have havoid := hshield.avoided hknown hserved htracked.1
    have hspared : ∀ b ∈ blocks, b ∉ s.unpublished.blocks := fun b hb hmem => (havoid b hmem).1 hb
    refine ⟨⟨fun b hb bm hbm => ?_, hshield.found, hshield.chained, hshield.held⟩,
      hP s _ hPs, hspared, fun b hb bm hbm => ?_, hserved.avoids, fun b hb => ?_,
      hserved.taken.nodup, hserved.taken.length, fun b hb bm hbm => ?_,
      fun head size hchain hsize => hserved.head_notMem htracked.2 hchain hsize⟩
    · cases hbm
      exact (havoid b hb).2
    · cases hbm
      exact hserved.taken.marked b hb
    · exact Bitmap.lt_of_not_isSet (hserved.taken.free b hb)
    · cases hbm
      exact hserved.excluded b hb

variable (known upper chain) in
/-- The single-block allocation. -/
theorem guarded_allocOneBlock (hknown : ∀ b ∈ known, b ∈ excluded) (hP : CacheFree P)
    (hE : ∀ s, Shielded g known chain upper s → P s → E s) :
    Guarded g (fun s => Shielded g known chain upper s ∧ P s) (allocOneBlock g excluded chain)
      (fun b s => Shielded g known chain upper s ∧ P s ∧ Fresh g excluded chain 1 [b] s) E := by
  refine Triple.bind (guarded_allocBlocks known upper chain hknown hP true 1 hE) fun blocks =>
    Triple.pure ?_
  rintro s ⟨hshield, hPs, hfresh⟩
  obtain ⟨b, rfl⟩ := List.length_eq_one_iff.1 hfresh.length
  exact ⟨hshield, hPs, hfresh⟩

end Allocation

end LittlefsPure
