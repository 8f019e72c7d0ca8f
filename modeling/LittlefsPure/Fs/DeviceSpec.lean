import LittlefsPure.Disk.AllocSpec
import LittlefsPure.Fs.Machine

/-!
# What the device calls do

One lemma for each call of `Fs.Machine`, for any condition and any obligation on the
events of the run.  A call changes one block, to one of the few contents its outcome
allows, and nothing else of the state but the script; an allocation changes the cache
and nothing else.

## Why the condition and the obligation are arbitrary

A proof about one function of the filesystem may need the log of a block, another the blocks of a
chain, a third which blocks are marked in the cache.  All of them reduce to what a call of the
device does to one block.  So these lemmas are stated for any condition on the state that such a
change keeps, and for any obligation on the events that its event meets; the modules above choose
both.
-/

namespace LittlefsPure

open FsM Logic

/-! ## Writes to one block -/

/-- The second state comes from the first by erases and programs of one block. -/
structure WritesOnly (addr : ℕ) (s s' : Fs) : Prop where
  other : ∀ x, x ≠ addr → s'.device.get x = s.device.get x
  length : s'.device.blocks.length = s.device.blocks.length
  frame : s' = { s with device := s'.device, script := s'.script }

namespace WritesOnly

variable {addr : ℕ} {s s' s'' : Fs}

theorem refl : WritesOnly addr s s := ⟨fun _ _ => rfl, rfl, rfl⟩

theorem trans (h : WritesOnly addr s s') (h' : WritesOnly addr s' s'') :
    WritesOnly addr s s'' := by
  refine ⟨fun x hx => (h'.other x hx).trans (h.other x hx), h'.length.trans h.length, ?_⟩
  rw [h'.frame, h.frame]

theorem unpublished (h : WritesOnly addr s s') : s'.unpublished = s.unpublished := by rw [h.frame]

theorem usedCache (h : WritesOnly addr s s') : s'.usedCache = s.usedCache := by rw [h.frame]

theorem root (h : WritesOnly addr s s') : s'.root = s.root := by rw [h.frame]

end WritesOnly

/-- A condition that writes to one block keep. -/
def Stable (addr : ℕ) (P : Fs → Prop) : Prop := ∀ s s', P s → WritesOnly addr s s' → P s'

/-- A condition that does not read the cache. -/
def CacheFree (P : Fs → Prop) : Prop := ∀ s cache, P s → P { s with usedCache := cache }

/-- What an erase can leave of a block. -/
def Block.Erasing (before after : Block) : Prop :=
  after = before ∨ after = .erased ∨ ∃ n, after = before.tornErase n

/-- What erasing a block and programming a log onto it can leave of it. -/
def Block.Rewriting (l : MetadataLog) (before after : Block) : Prop :=
  before.Erasing after ∨ after = .log ⟨l.revision, [], false⟩ ∨ after = .log l

section DeviceCalls

variable {K O : Event → Prop} {P : Fs → Prop} {E : Error → Fs → Prop} {addr : ℕ}

theorem triple_nextOutcome (s₀ : Fs) :
    Triple K O (fun s => s = s₀) nextOutcome (fun _ s => s = { s₀ with script := s.script }) E := by
  refine Triple.get_bind fun s hs => ?_
  subst hs
  split
  · exact Triple.pure fun s' hs' => by rw [hs']
  · exact Triple.seq (R := fun s' => s' = { s with script := s'.script })
      (Triple.set fun _ _ => rfl) (Triple.pure fun _ h => h)

theorem triple_putBlock {s₀ : Fs} {b : Block} (hlt : addr < s₀.device.blocks.length) :
    Triple K O (fun s => s = { s₀ with script := s.script }) (putBlock addr b)
      (fun _ s => WritesOnly addr s₀ s ∧ s.device.get addr = b) E := by
  refine Triple.modify fun s hs => ⟨⟨fun x hx => ?_, ?_, ?_⟩, ?_⟩
  · rw [hs]
    exact Device.get_write_ne _ hx.symm _
  · rw [hs]
    exact Device.length_write ..
  · rw [hs]
  · rw [hs]
    exact Device.get_write_self hlt b

/-- An erase leaves its block as it was, torn or erased; when it reports success the
block is erased. -/
theorem triple_eraseBlock (hO : ∀ s, P s → O (.erase s.device addr s.unpublished)) :
    Triple K O P (eraseBlock addr)
      (fun ok s' => ∃ s, P s ∧ WritesOnly addr s s' ∧
        (s.device.get addr).Erasing (s'.device.get addr) ∧
        (ok = true → addr < s'.device.blocks.length ∧ s'.device.get addr = .erased)) E := by
  refine Triple.get_bind fun s hs => Triple.ite (fun hlt => ?_) fun _ => ?_
  · refine Triple.seq (R := fun s' => s' = s) (Triple.note fun s' hs' _ => ⟨hO s hs, hs'⟩) ?_
    refine Triple.bind (triple_nextOutcome s) fun o => ?_
    have hput : ∀ (b : Block) (ok : Bool), (s.device.get addr).Erasing b →
        (ok = true → b = .erased) →
        Triple K O (fun s' => s' = { s with script := s'.script })
          (do putBlock addr b; pure ok)
          (fun ok s' => ∃ s, P s ∧ WritesOnly addr s s' ∧
            (s.device.get addr).Erasing (s'.device.get addr) ∧
            (ok = true → addr < s'.device.blocks.length ∧ s'.device.get addr = .erased)) E := by
      intro b ok hb hok
      refine Triple.seq (triple_putBlock hlt) (Triple.pure ?_)
      rintro s' ⟨hw, rfl⟩
      exact ⟨s, hs, hw, hb, fun h => ⟨hw.length ▸ hlt, hok h⟩⟩
    split
    · exact hput _ _ (.inr (.inl rfl)) fun _ => rfl
    · refine Triple.pure fun s' hs' => ⟨s, hs, ?_, .inl ?_, nofun⟩
      · rw [hs']
        exact ⟨fun _ _ => rfl, rfl, rfl⟩
      · rw [hs']
    · exact hput _ _ (.inr (.inr ⟨_, rfl⟩)) nofun
    · exact hput _ _ (.inr (.inl rfl)) nofun
    · exact hput _ _ (.inr (.inl rfl)) fun _ => rfl
  · exact Triple.pure fun s' hs' => ⟨s, hs, hs' ▸ WritesOnly.refl, .inl (hs' ▸ rfl), nofun⟩

/-- A program leaves the block as it was, torn or with the new content; when the read back
agrees it is the new content. -/
theorem triple_programBlock (torn : ℕ → Block) (after : Block)
    (hO : ∀ s, P s → O (.program s.device addr)) :
    Triple K O P (programBlock addr torn after)
      (fun report s' => ∃ s, P s ∧ WritesOnly addr s s' ∧
        (s'.device.get addr = s.device.get addr ∨ (∃ n, s'.device.get addr = torn n) ∨
          s'.device.get addr = after) ∧
        (report = .verified → s'.device.get addr = after)) E := by
  refine Triple.get_bind fun s hs => Triple.ite (fun hlt => ?_) fun _ => ?_
  · refine Triple.seq (R := fun s' => s' = s) (Triple.note fun s' hs' _ => ⟨hO s hs, hs'⟩) ?_
    refine Triple.bind (triple_nextOutcome s) fun o => ?_
    have hput : ∀ (b : Block) (report : Report), ((∃ n, b = torn n) ∨ b = after) →
        (report = .verified → b = after) →
        Triple K O (fun s' => s' = { s with script := s'.script })
          (do putBlock addr b; pure report)
          (fun report s' => ∃ s, P s ∧ WritesOnly addr s s' ∧
            (s'.device.get addr = s.device.get addr ∨ (∃ n, s'.device.get addr = torn n) ∨
              s'.device.get addr = after) ∧
            (report = .verified → s'.device.get addr = after)) E := by
      intro b report hb hreport
      refine Triple.seq (triple_putBlock hlt) (Triple.pure ?_)
      rintro s' ⟨hw, rfl⟩
      exact ⟨s, hs, hw, .inr hb, hreport⟩
    unfold landProgram
    split
    · exact hput _ _ (.inr rfl) fun _ => rfl
    · refine Triple.pure fun s' hs' => ⟨s, hs, ?_, .inl ?_, nofun⟩
      · rw [hs']
        exact ⟨fun _ _ => rfl, rfl, rfl⟩
      · rw [hs']
    · exact hput _ _ (.inl ⟨_, rfl⟩) nofun
    · exact hput _ _ (.inr rfl) nofun
    · exact hput _ _ (.inr rfl) nofun
    · exact hput _ _ (.inl ⟨_, rfl⟩) nofun
  · exact Triple.pure fun s' hs' => ⟨s, hs, hs' ▸ WritesOnly.refl, .inl (hs' ▸ rfl), nofun⟩

/-- An erase and a program of a block: the obligations are met from the state before and
from the state with the block erased. -/
theorem triple_eraseAndProgramLog (l : MetadataLog)
    (hErase : ∀ s, P s → O (.erase s.device addr s.unpublished))
    (hProgram : ∀ s s', P s → WritesOnly addr s s' → s'.device.get addr = .erased →
      O (.program s'.device addr)) :
    Triple K O P (eraseAndProgramLog addr l)
      (fun ok s' => ∃ s, P s ∧ WritesOnly addr s s' ∧
        (s.device.get addr).Rewriting l (s'.device.get addr) ∧
        (ok = true → addr < s'.device.blocks.length ∧ s'.device.get addr = .log l)) E := by
  refine Triple.bind (triple_eraseBlock hErase) fun ok => Triple.ite (fun hok => ?_) fun _ => ?_
  · refine Triple.bind (R := fun report s' => ∃ s, P s ∧ WritesOnly addr s s' ∧
      (s.device.get addr).Rewriting l (s'.device.get addr) ∧
      (report = .verified → addr < s'.device.blocks.length ∧ s'.device.get addr = .log l)) ?_
      fun report => ?_
    · refine (triple_programBlock _ _ ?_).weaken ?_
      · rintro s' ⟨s, hs, hw, -, herased⟩
        exact hProgram s s' hs hw (herased hok).2
      · rintro report s'' ⟨s', ⟨s, hs, hw, -, herased⟩, hw', hcontent, hverified⟩
        obtain ⟨hlt, herased⟩ := herased hok
        refine ⟨s, hs, hw.trans hw', ?_, fun h => ⟨hw'.length ▸ hlt, hverified h⟩⟩
        rcases hcontent with h | ⟨n, h⟩ | h
        · exact .inl (.inr (.inl (h.trans herased)))
        · exact .inr (.inl h)
        · exact .inr (.inr h)
    · refine Triple.pure ?_
      rintro s' ⟨s, hs, hw, hcontent, hverified⟩
      exact ⟨s, hs, hw, hcontent, fun h => hverified (eq_of_beq h)⟩
  · refine Triple.pure ?_
    rintro s' ⟨s, hs, hw, hcontent, -⟩
    exact ⟨s, hs, hw, .inl hcontent, nofun⟩

/-- The same for plain bytes at an offset: a torn program has put down the first of them. -/
theorem triple_programBytes (off : ℕ) (data : List Byte)
    (hO : ∀ s, P s → O (.program s.device addr))
    (hLand : ∀ s, P s → O (.programBytes s.device addr off data)) :
    Triple K O P (programBytes addr off data)
      (fun report s' => ∃ s, P s ∧ WritesOnly addr s s' ∧
        (s'.device.get addr = s.device.get addr ∨ ∃ n, s'.device.get addr =
          .raw (programAt (s.device.get addr).bytes off (data.take n))) ∧
        (report = .verified →
          s'.device.get addr = .raw (programAt (s.device.get addr).bytes off data))) E := by
  refine Triple.get_bind fun s hs => Triple.seq (R := fun s' => s' = s)
    (Triple.note fun _ hs' _ => ⟨hLand s hs, hs'⟩) ?_
  refine (triple_programBlock _ _ fun s' hs' => hs' ▸ hO s hs).weaken ?_
  rintro report s' ⟨s₁, rfl, hw, hcontent, hverified⟩
  refine ⟨s₁, hs, hw, ?_, hverified⟩
  rcases hcontent with h | ⟨n, h⟩ | h
  · exact .inl h
  · exact .inr ⟨n, h⟩
  · exact .inr ⟨data.length, by rw [List.take_length]; exact h⟩

/-- An erase and a program of plain bytes, which are what the block then holds, through a
condition that writes to the block keep. -/
theorem triple_eraseAndProgramBytes (hP : Stable addr P) (data : List Byte)
    (hErase : ∀ s, P s → O (.erase s.device addr s.unpublished))
    (hProgram : ∀ s, P s → O (.program s.device addr))
    (hLand : ∀ d : Device, d.get addr = .erased → O (.programBytes d addr 0 data)) :
    Triple K O P (eraseAndProgramBytes addr data)
      (fun ok s => P s ∧ (ok = true → s.device.get addr = .raw data)) E := by
  refine Triple.bind (R := fun ok s => P s ∧ (ok = true → s.device.get addr = .erased)) ?_
    fun ok => ?_
  · refine (triple_eraseBlock hErase).weaken ?_
    rintro ok s' ⟨s, hs, hw, -, herased⟩
    exact ⟨hP s s' hs hw, fun h => (herased h).2⟩
  · refine Triple.ite (fun hok => ?_) fun _ => Triple.pure fun _ hs => ⟨hs.1, nofun⟩
    refine Triple.bind (R := fun report s =>
      P s ∧ (report = .verified → s.device.get addr = .raw data)) ?_ fun report => ?_
    · refine (triple_programBytes 0 data (fun s hs => hProgram s hs.1)
        fun s hs => hLand s.device (hs.2 hok)).weaken ?_
      rintro report s' ⟨s, hs, hw, -, hverified⟩
      refine ⟨hP _ _ hs.1 hw, fun h => ?_⟩
      have herased : (s.device.get addr).bytes = [] := by
        rw [hs.2 hok]
        rfl
      rw [hverified h, herased]
      simp [programAt, andBytes]
    · exact Triple.pure fun s hs => ⟨hs.1, fun h => hs.2 (eq_of_beq h)⟩

end DeviceCalls

/-! ## Allocation -/

section Allocation

variable {K O : Event → Prop} {P : Fs → Prop} {E : Error → Fs → Prop} {g : Geometry}
  {excluded : List ℕ} {chain : Option (ℕ × ℕ)} {singleBuf : Bool} {want : ℕ}

theorem Bitmap.lt_of_not_isSet {m : Bitmap} {b : ℕ} (h : m.isSet b = false) :
    b < maxTrackedBlocks := by
  by_contra hge
  have hset : m.isSet b = true := Bitmap.isSet_iff.2 (.inl (Nat.le_of_not_lt hge))
  rw [h] at hset
  cases hset

/-- An allocation hands out blocks as `Alloc.Served` describes them, and meets the condition
on the run. -/
theorem triple_allocBlocks
    (hO : ∀ s base used blocks, P s →
      Alloc.Served g s.device s.root singleBuf s.usedCache excluded chain want base used blocks →
      K (.alloc ⟨s.device, s.root, singleBuf, s.usedCache, excluded, chain, want⟩ s.unpublished
        blocks) →
      O (.alloc ⟨s.device, s.root, singleBuf, s.usedCache, excluded, chain, want⟩ s.unpublished
        blocks))
    (hE : ∀ s cache e, P s →
      Alloc.allocCached g s.device s.root singleBuf s.usedCache excluded chain want =
        (cache, .error e) → E e { s with usedCache := cache }) :
    Triple K O P (allocBlocks g singleBuf excluded chain want)
      (fun blocks s' => ∃ s base used, P s ∧ s' = { s with usedCache := some used } ∧
        Alloc.Served g s.device s.root singleBuf s.usedCache excluded chain want base used blocks ∧
        K (.alloc ⟨s.device, s.root, singleBuf, s.usedCache, excluded, chain, want⟩ s.unpublished
          blocks)) E := by
  refine Triple.get_bind fun s hs => ?_
  rcases hcall : Alloc.allocCached g s.device s.root singleBuf s.usedCache excluded chain want with
    ⟨cache, result⟩
  refine Triple.seq (R := fun s' => s' = { s with usedCache := cache })
    (Triple.set fun _ _ => rfl) ?_
  cases result with
  | error e =>
      refine Triple.bind (R := fun _ _ => False) (Triple.lift (fun _ _ _ h => by cases h) ?_)
        fun _ => Triple.strengthen (P := fun _ => False) ⟨fun _ h => h.elim⟩ fun _ h => h
      rintro s' e' rfl h
      cases h
      exact hE s cache e hs hcall
  | ok blocks =>
      obtain ⟨base, used, rfl, hserved⟩ := Alloc.allocCached_eq_ok hcall
      refine Triple.bind (R := fun out s' => out = blocks ∧ s' = { s with usedCache := some used })
        (Triple.lift (fun s' out hs' hout => ?_) nofun) fun out => ?_
      · cases hout
        exact ⟨rfl, hs'⟩
      refine Triple.seq (R := fun s' => s' = { s with usedCache := some used } ∧ out = blocks ∧
        K (.alloc ⟨s.device, s.root, singleBuf, s.usedCache, excluded, chain, want⟩ s.unpublished
          out)) (Triple.note ?_) (Triple.pure ?_)
      · rintro s' ⟨rfl, rfl⟩ hK
        exact ⟨hO s base used out hs hserved hK, rfl, rfl, hK⟩
      · rintro s' ⟨rfl, rfl, hK⟩
        exact ⟨s, base, used, hs, rfl, hserved, hK⟩

end Allocation

end LittlefsPure
