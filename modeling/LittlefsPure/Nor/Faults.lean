import LittlefsPure.Nor.Refines

/-!
# An inner device that fails

Any call of the inner device may fail here, and a read that fails may leave anything in the
buffer it was given.  A `Ledger` says what a NOR device would hold that is programmed byte by
byte, and for which bytes nothing is promised: those in the windows of a program that reported
an error, and those of a pending window that a failed flush or erase gave up.

The adapter keeps to the ledger as long as no window load fails with another window resident
and its buffer overwritten: the resident window keeps its tag then, and the buffer is no longer
its own.

## Why a ledger

When the inner device fails in the middle of a program, some bytes are programmed and others are
not, and the adapter cannot know which.  So the object that it is measured against is not a device
but a ledger: the bytes as they ought to be, and the set of those for which nothing is promised any
more.  Each call moves both, and an erase takes the bytes of its block out of the set.

## Why the condition is on window loads

A load reads into the buffer of the window before the new tag is set.  If the read fails half way
the buffer is neither the old window nor the new one, and the tag still says the old.  No other
call leaves the adapter in a state that its fields deny, so the condition names that call and asks
that it does not happen with a window resident that is not the one to be loaded.
-/

namespace LittlefsPure.Nor

open Logic NorAlignedStorage

/-- An inner device whose calls may fail.  A call that returns does what it is told.  One that
fails has no effect outside the window or the block it is about. -/
structure Storage.Fallible {σ ε : Type} (dev : Storage σ ε) (g : Geometry) (cells : σ → Cells) :
    Prop where
  read : ∀ s block off len, (Request.read block off len).Inside g →
    cells (dev.read block off len s).2 = cells s ∧
      ∀ bytes, (dev.read block off len s).1 = .ok bytes → bytes = (cells s).bytes block off len
  spill : ∀ s block off buf, (dev.spill block off buf s).length = buf.length
  readDevice : ∀ s block off len, (Request.readDevice block off len).Inside g →
    cells (dev.readDevice block off len s).2 = cells s ∧
      ∀ bytes, (dev.readDevice block off len s).1 = .ok bytes →
        bytes = (cells s).bytes block off len
  program : ∀ s block off data, (Request.program block off data).Whole g →
    ((dev.program block off data s).1 = .ok () →
      cells (dev.program block off data s).2 = (cells s).program block off data) ∧
    ∀ b o, ¬ (b = block ∧ off ≤ o ∧ o < off + g.progSize) →
      cells (dev.program block off data s).2 b o = cells s b o
  erase : ∀ s block, (Request.erase block).Inside g →
    ((dev.erase block s).1 = .ok () → cells (dev.erase block s).2 = (cells s).erase block) ∧
    ∀ b o, b ≠ block → cells (dev.erase block s).2 b o = cells s b o
  sync : ∀ s, cells (dev.sync s).2 = cells s

/-! ## Where a byte comes from -/

/-- The bytes that may show at each place: erased cells, and what is left where bytes that may
show there are programmed over each other. -/
structure Provenance (own : ℕ → ℕ → Byte → Prop) : Prop where
  erased : ∀ b o, own b o 0xFF
  meet : ∀ b o x y, own b o x → own b o y → own b o (x &&& y)

/-- Every cell holds a byte that may show there. -/
def Cells.Native (own : ℕ → ℕ → Byte → Prop) (c : Cells) : Prop := ∀ b o, own b o (c b o)

/-- Every byte that a call programs may show where it goes. -/
def Request.Native (own : ℕ → ℕ → Byte → Prop) : Request → Prop
  | .program block off data => ∀ i < data.length, own block (off + i) (data.getD i 0xFF)
  | _ => True

/-- What the inner device does to its cells by itself, when it fails, keeps the bytes to their
places. -/
structure Storage.Respects {σ ε : Type} (dev : Storage σ ε) (g : Geometry) (cells : σ → Cells)
    (own : ℕ → ℕ → Byte → Prop) : Prop where
  program : ∀ s block off data, (Request.program block off data).Whole g →
    (Request.program block off data).Native own → (cells s).Native own →
      (cells (dev.program block off data s).2).Native own
  erase : ∀ s block, (cells s).Native own → (cells (dev.erase block s).2).Native own

section Ledger

variable {σ ε : Type} (dev : Storage σ ε) (g : Geometry) (cells : σ → Cells)

/-- What a NOR device holds, and the bytes nothing is promised for. -/
structure Ledger where
  held : Cells
  lost : ℕ → ℕ → Prop

/-- The windows that a program is about. -/
def Touches (block off : ℕ) (data : List Byte) (b o : ℕ) : Prop :=
  b = block ∧ ∃ i < data.length, (off + i) / g.progSize = o / g.progSize

/-- The call flushes the window that was pending when it came. -/
def Flushes (s : NorAlignedStorage σ) : Request → Prop
  | .readDevice block off len => Pending g s block off len
  | .program block off data =>
      data ≠ [] ∧ ¬ (s.cachedBlock = some block ∧ s.cachedOff = off / g.progSize * g.progSize)
  | .sync => True
  | _ => False

/-- The bytes a call loses that reports an error: those of the windows it programs, those of
the window that it could not flush, and those of a pending window of the block it erases. -/
def Loses (s : NorAlignedStorage σ) (r : Request) (b o : ℕ) : Prop :=
  (∃ block off data, r = .program block off data ∧ Touches g block off data b o) ∨
  (Flushes g s r ∧ (∃ e, (flush dev g s).result = .error e) ∧ Resident g s b o) ∨
  r = .erase b ∧ s.dirty = true ∧ Resident g s b o

/-- The ledger behind a call that returns. -/
def Ledger.returned (l : Ledger) (r : Request) : Ledger :=
  ⟨l.held.step r, fun b o => l.lost b o ∧ r ≠ .erase b⟩

/-- The ledger behind a call that reports an error.  An erase leaves the block as it leaves
it. -/
def Ledger.failed (l : Ledger) (s : NorAlignedStorage σ) (r : Request) (after : Cells) : Ledger :=
  ⟨fun b o => if r = .erase b then after b o else l.held b o,
    fun b o => l.lost b o ∨ Loses dev g s r b o⟩

/-- The ledger behind a call, from what the call returned and the cells it left. -/
def Ledger.step (l : Ledger) (s : NorAlignedStorage σ) (r : Request)
    (result : Except (Fault ε) (List Byte)) (after : Cells) : Ledger :=
  match result with
  | .ok _ => l.returned r
  | .error _ => l.failed dev g s r after

/-- A state of the adapter, and what a caller may expect of it. -/
structure Account (σ : Type) where
  state : NorAlignedStorage σ
  ledger : Ledger

/-- The account behind a call. -/
def Account.step (a : Account σ) (r : Request) : Account σ :=
  let run := exec dev g r a.state
  ⟨run.state, a.ledger.step dev g a.state r run.result (cells run.state.inner)⟩

/-- The account behind a sequence of calls, each of which may fail. -/
def Account.after (a : Account σ) : List Request → Account σ
  | [] => a
  | r :: rs => (a.step dev g cells r).after rs

/-- The account of a new adapter. -/
def Account.start (s : NorAlignedStorage σ) : Account σ := ⟨s, cells s.inner, fun _ _ => False⟩

/-! ## Loads that fail -/

/-- A window load that fails finds no window resident, or leaves the buffer alone. -/
def SparesLoad (s : NorAlignedStorage σ) (block windowOff : ℕ) : Prop :=
  let s' := (flush dev g s).state
  (flush dev g s).result = .ok () → s'.cachedBlock = none ∨
    (∃ bytes, (dev.read block windowOff g.progSize s'.inner).1 = .ok bytes) ∨
    dev.spill block windowOff (s'.cache.take g.progSize) s'.inner = s'.cache.take g.progSize

/-- So does every window load of the loop of `program`. -/
def SparesLoop (block off : ℕ) (data : List Byte) : ℕ → ℕ → NorAlignedStorage σ → Prop
  | 0, _, _ => True
  | fuel + 1, written, s => written < data.length →
      let curOff := off + written
      let windowOff := curOff / g.progSize * g.progSize
      let within := curOff - windowOff
      let taken := min (g.progSize - within) (data.length - written)
      (¬ (s.cachedBlock = some block ∧ s.cachedOff = windowOff) →
        SparesLoad dev g s block windowOff) ∧
        let s' := (loadWindow dev g block windowOff s).state
        ((loadWindow dev g block windowOff s).result = .ok () →
          SparesLoop block off data fuel (written + taken) { s' with
            cache := merge s'.cache within ((data.drop written).take taken)
            dirty := true })

/-- A call all of whose window loads do. -/
def Spares (s : NorAlignedStorage σ) : Request → Prop
  | .program block off data => SparesLoop dev g block off data data.length 0 s
  | _ => True

/-- A sequence of such calls. -/
def SparesAll (s : NorAlignedStorage σ) : List Request → Prop
  | [] => True
  | r :: rs => Spares dev g s r ∧ SparesAll (exec dev g r s).state rs

end Ledger

/-! ## What every call keeps -/

section Calls

variable {σ ε α : Type} {dev : Storage σ ε} {g : Geometry} {cells : σ → Cells}
  {own : ℕ → ℕ → Byte → Prop} {l : Ledger} {s : NorAlignedStorage σ}

/-- Nothing is promised for these bytes any more. -/
def Ledger.lose (l : Ledger) (p : ℕ → ℕ → Prop) : Ledger := ⟨l.held, fun b o => l.lost b o ∨ p b o⟩

variable (g cells own l s) in
/-- The adapter keeps to the ledger, and no byte is out of place. -/
structure Sound : Prop where
  coherent : Coherent g cells s
  shown : ∀ b o, ¬ l.lost b o → view g cells s b o = l.held b o
  native : (cells s.inner).Native own
  visible : (view g cells s).Native own

/-- A call from a state: what it hands to the inner device is in its place, and it ends in one
of two ways. -/
abbrev Ends (own : ℕ → ℕ → Byte → Prop) (s : NorAlignedStorage σ) (m : Adapter σ ε α)
    (Q : α → NorAlignedStorage σ → Prop) (E : Fault ε → NorAlignedStorage σ → Prop) : Prop :=
  Triple (fun _ => True) (Request.Native own) (fun s' => s' = s) m Q E

theorem Sound.lose (h : Sound g cells own l s) (p : ℕ → ℕ → Prop) :
    Sound g cells own (l.lose p) s :=
  ⟨h.coherent, fun b o hkept => h.shown b o fun hlost => hkept (.inl hlost), h.native, h.visible⟩

theorem call_ends {r : Request} {f : σ → Except ε α × σ} (hr : r.Native own) :
    Ends own s (call r f) (fun a s' => (f s.inner).1 = .ok a ∧ s' =
      { s with inner := (f s.inner).2 })
      fun _ s' => (∀ a, (f s.inner).1 ≠ .ok a) ∧ s' = { s with inner := (f s.inner).2 } := by
  refine ⟨fun s' hs _ => ⟨allEvents_singleton.2 hr, ?_⟩⟩
  subst hs
  unfold Run.Post
  cases hf : (f s'.inner).1 with
  | ok a =>
      have hrun : call r f s' = ⟨.ok a, { s' with inner := (f s'.inner).2 }, [r]⟩ := by
        rw [call, hf]
        rfl
      rw [hrun]
      exact ⟨rfl, rfl⟩
  | error e =>
      have hrun : call r f s' = ⟨.error (.device e), { s' with inner := (f s'.inner).2 }, [r]⟩ := by
        rw [call, hf]
        rfl
      rw [hrun]
      exact ⟨by simp, rfl⟩

/-- The window as a program of the inner device. -/
theorem window_native (hgrid : Grid g) (hs : Sound g cells own l s) {block : ℕ}
    (hblock : s.cachedBlock = some block) :
    (Request.program block s.cachedOff (s.cache.take g.progSize)).Native own := by
  intro i hi
  have hle := hgrid.le
  have hlen := hs.coherent.length
  rw [List.length_take] at hi
  have hres : Resident g s block (s.cachedOff + i) := ⟨hblock, by omega, by omega⟩
  have hvisible := hs.visible block (s.cachedOff + i)
  rw [view_of_resident hres, Nat.add_sub_cancel_left] at hvisible
  rw [List.getD_eq_getElem?_getD, List.getElem?_take, if_pos (by omega),
    ← List.getD_eq_getElem?_getD]
  exact hvisible

variable (hdev : dev.Fallible g cells) (hgrid : Grid g) (hprov : Provenance own)
  (hrespects : dev.Respects g cells own)

include hdev hgrid hrespects in
/-- A flush that fails gives up the window. -/
theorem flush_ends (hs : Sound g cells own l s) :
    Ends own s (flush dev g)
      (fun _ s' => Sound g cells own l s' ∧ s'.dirty = false ∧ s'.cachedBlock = s.cachedBlock ∧
        s'.cachedOff = s.cachedOff)
      fun _ s' => Sound g cells own (l.lose (Resident g s)) s' := by
  refine Triple.get_bind fun s' hs' => ?_
  subst hs'
  refine Triple.ite (fun hclean => ?_) fun hdirty => ?_
  · refine Triple.pure fun s₁ hs₁ => ?_
    subst hs₁
    exact ⟨hs, by simpa using hclean, rfl, rfl⟩
  have hdirty : s'.dirty = true := by simpa using hdirty
  cases hblock : s'.cachedBlock with
  | none => exact absurd hblock (hs.coherent.target hdirty)
  | some block =>
      obtain ⟨hlt, hdvd, hroom⟩ := hs.coherent.window block hblock
      have hlen : (s'.cache.take g.progSize).length = g.progSize := by
        rw [List.length_take, hs.coherent.length]
        exact Nat.min_eq_left hgrid.le
      have hwhole : (Request.program block s'.cachedOff (s'.cache.take g.progSize)).Whole g :=
        ⟨hlen, hdvd, hroom, hlt⟩
      have hnative := window_native hgrid hs hblock
      obtain ⟨hdone, hfar⟩ := hdev.program s'.inner _ _ _ hwhole
      have hafter := hrespects.program s'.inner _ _ _ hwhole hnative hs.native
      refine Triple.seq (R := fun s₁ => s₁ = { s' with dirty := false })
        (Triple.modify fun s₁ hs₁ => hs₁ ▸ rfl) ?_
      set inner := (dev.program block s'.cachedOff (s'.cache.take g.progSize)
        s'.inner).2 with hinner
      refine Triple.bind (R := fun r s₁ => s₁ = { s' with inner := inner, dirty := false } ∧
        (r = .ok () → cells inner =
          (cells s'.inner).program block s'.cachedOff (s'.cache.take g.progSize)))
        (Triple.attempt ?_) fun r => ?_
      · exact (call_ends (s := { s' with dirty := false }) hnative).conseq (fun _ => id)
          (fun _ _ h => ⟨h.2, fun _ => hdone h.1⟩) fun _ _ h => ⟨h.2, nofun⟩
      cases r with
      | ok _ =>
          refine Triple.pure fun s₁ hs₁ => ?_
          obtain ⟨rfl, hcells⟩ := hs₁
          obtain ⟨hcoh, hview⟩ := hs.coherent.landed hblock (hcells rfl)
          refine ⟨⟨hcoh, fun b o hkept => ?_, hafter, ?_⟩, rfl, hblock, rfl⟩
          · rw [hview, hs.shown b o hkept]
          · rw [hview]
            exact hs.visible
      | error e =>
          refine Triple.seq (R := fun s₁ => s₁ = { s' with
            inner := inner, cachedBlock := none, dirty := false }) (Triple.modify fun s₁ hs₁ => ?_)
              ?_
          · rw [hs₁.1]
          refine Triple.fail fun s₁ hs₁ => ?_
          subst hs₁
          obtain ⟨hcoh, hview⟩ := @dropped_shows _ g cells { s' with inner := inner }
              hs.coherent.length
          refine ⟨hcoh, fun b o hkept => ?_, hafter, ?_⟩
          · have hres : ¬ Resident g s' b o := fun hres => hkept (.inr hres)
            have hshown := hs.shown b o fun hlost => hkept (.inl hlost)
            rw [view_of_not_resident hres] at hshown
            rw [hview]
            exact (hfar b o fun hin => hres ⟨hin.1 ▸ hblock, hin.2⟩).trans hshown
          · rw [hview]
            exact hafter

/-- The bytes that a failed flush from this state gives up. -/
def Abandons (dev : Storage σ ε) (g : Geometry) (s : NorAlignedStorage σ) (b o : ℕ) : Prop :=
  (∃ e, (flush dev g s).result = .error e) ∧ Resident g s b o

/-- What is read into the window comes from under it. -/
theorem loaded_sound (hgrid : Grid g) (hs : Sound g cells own l s) (hclean : s.dirty = false)
    {block windowOff : ℕ} (hblock : block < g.blockCount) (hdvd : g.progSize ∣ windowOff)
    (hroom : windowOff + g.progSize ≤ g.blockSize) :
    Sound g cells own l { s with
      cache := (cells s.inner).bytes block windowOff g.progSize ++ s.cache.drop g.progSize
      cachedBlock := some block
      cachedOff := windowOff
      dirty := false } := by
  obtain ⟨hcoh, hview⟩ := @loaded_shows _ g cells s hgrid hs.coherent.length _ _ hblock hdvd hroom
  refine ⟨hcoh, fun b o hkept => ?_, hs.native, ?_⟩
  · rw [hview, ← hs.shown b o hkept, hs.coherent.clean hclean]
  · rw [hview]
    exact hs.native

/-- Without a tag the buffer may hold anything. -/
theorem Sound.spill (hs : Sound g cells own l s) (hnone : s.cachedBlock = none)
    {cache : List Byte} (hlen : cache.length = maxProgSize) :
    Sound g cells own l { s with cache := cache } := by
  have hview : view g cells { s with cache := cache } = view g cells s := by
    rw [view_of_empty hnone, view_of_empty (s := { s with cache := cache }) hnone]
  refine ⟨⟨hs.coherent.target, hlen, hs.coherent.window, fun block hblock => ?_, fun hclean => ?_⟩,
    fun b o hkept => ?_, hs.native, ?_⟩
  · exact absurd (hnone.symm.trans hblock) nofun
  · rw [hview]
    exact hs.coherent.clean hclean
  · rw [hview, hs.shown b o hkept]
  · rw [hview]
    exact hs.visible

include hdev hgrid hrespects in
/-- A window that is loaded is resident; one that is not leaves the others as they were. -/
theorem loadWindow_ends (hs : Sound g cells own l s) {block windowOff : ℕ}
    (hblock : block < g.blockCount) (hdvd : g.progSize ∣ windowOff)
    (hroom : windowOff + g.progSize ≤ g.blockSize)
    (hspares : ¬ (s.cachedBlock = some block ∧ s.cachedOff = windowOff) →
      SparesLoad dev g s block windowOff) :
    Ends own s (loadWindow dev g block windowOff)
      (fun _ s' => Sound g cells own l s' ∧ s'.cachedBlock = some block ∧ s'.cachedOff = windowOff)
      fun _ s' => Sound g cells own (l.lose (Abandons dev g s)) s' ∧
        ¬ (s.cachedBlock = some block ∧ s.cachedOff = windowOff) := by
  refine Triple.get_bind fun s' hs' => ?_
  subst hs'
  refine Triple.ite (fun hheld => ?_) fun hother => ?_
  · refine Triple.pure fun s₁ hs₁ => ?_
    subst hs₁
    exact ⟨hs, hheld⟩
  have hspares := hspares hother
  refine Triple.seq (R := fun s₁ => (Sound g cells own l s₁ ∧ s₁.dirty = false) ∧
      (flush dev g s').result = .ok () ∧ (flush dev g s').state = s₁)
    ((flush_ends hdev hgrid hrespects hs).self.conseq (fun _ => id)
      (fun _ s₁ h => ⟨⟨h.1.1, h.1.2.1⟩, h.2⟩) fun e s₁ h => ⟨?_, hother⟩) ?_
  · exact ⟨h.1.coherent, fun b o hkept => h.1.shown b o fun hlost =>
      hkept (hlost.imp_right fun hres => ⟨⟨e, h.2.1⟩, hres⟩), h.1.native, h.1.visible⟩
  refine Triple.get_bind fun s₁ hs₁ => ?_
  obtain ⟨⟨hsound, hclean⟩, hresult, hstate⟩ := hs₁
  obtain ⟨hsame, hbytes⟩ := hdev.read s₁.inner block windowOff g.progSize ⟨hblock, hroom⟩
  set inner := (dev.read block windowOff g.progSize s₁.inner).2 with hinner
  have hmoved : Sound g cells own l { s₁ with inner := inner } := by
    obtain ⟨hcoh, hview⟩ := Shows.inner ⟨hsound.coherent, rfl⟩ hsame
    refine ⟨hcoh, fun b o hkept => ?_, ?_, ?_⟩
    · rw [hview, hsound.shown b o hkept]
    · show (cells inner).Native own
      rw [hsame]
      exact hsound.native
    · rw [hview]
      exact hsound.visible
  refine Triple.bind (R := fun r s₂ => s₂ = { s₁ with inner := inner } ∧
    (∀ bytes, r = .ok bytes → (dev.read block windowOff g.progSize s₁.inner).1 = .ok bytes) ∧
    ∀ e, r = .error e → ∀ bytes, (dev.read block windowOff g.progSize s₁.inner).1 ≠ .ok bytes)
    (Triple.attempt ?_) fun r => ?_
  · refine (call_ends (s := s₁) (r := .read block windowOff g.progSize) True.intro).conseq
      (fun _ => id) (fun a _ h => ?_) fun e _ h => ?_
    · refine ⟨h.2, fun bytes heq => ?_, nofun⟩
      cases heq
      exact h.1
    · exact ⟨h.2, nofun, fun _ _ => h.1⟩
  cases r with
  | ok bytes =>
      refine Triple.modify fun s₂ hs₂ => ?_
      obtain ⟨rfl, hread, -⟩ := hs₂
      refine ⟨?_, rfl, rfl⟩
      rw [hbytes bytes (hread bytes rfl), ← hsame]
      exact loaded_sound hgrid hmoved hclean hblock hdvd hroom
  | error e =>
      have hlen : (dev.spill block windowOff (s₁.cache.take g.progSize) s₁.inner ++
          s₁.cache.drop g.progSize).length = maxProgSize := by
        rw [List.length_append, hdev.spill, ← List.length_append, List.take_append_drop,
          hsound.coherent.length]
      refine Triple.seq (R := fun s₂ => Sound g cells own l s₂) (Triple.modify fun s₂ hs₂ => ?_)
        (Triple.fail fun s₂ hs₂ => ⟨hs₂.lose _, hother⟩)
      obtain ⟨rfl, -, hfailed⟩ := hs₂
      rcases hspares hresult with hnone | ⟨bytes, hread⟩ | hkept
      · rw [hstate] at hnone
        exact hmoved.spill hnone hlen
      · rw [hstate] at hread
        exact absurd hread (hfailed e rfl bytes)
      · rw [hstate] at hkept
        rw [hkept, List.take_append_drop]
        exact hmoved

theorem Cells.Native.program (hprov : Provenance own) {c : Cells} (hc : c.Native own)
    {block off : ℕ}
    {data : List Byte} (hdata : (Request.program block off data).Native own) :
    (c.program block off data).Native own := by
  intro b o
  rw [Cells.program]
  split_ifs with hin
  · obtain ⟨rfl, hle⟩ := hin
    refine hprov.meet _ _ _ _ (hc _ _) ?_
    by_cases hlt : o - off < data.length
    · have hbyte := hdata (o - off) hlt
      rwa [Nat.add_sub_cancel' hle] at hbyte
    · rw [Cells.getD_behind (Nat.le_of_not_lt hlt)]
      exact hprov.erased _ _
  · exact hc b o

/-- A part of the data goes where the data goes. -/
theorem native_part {block off written taken : ℕ} {data : List Byte}
    (hdata : (Request.program block off data).Native own) :
    (Request.program block (off + written) ((data.drop written).take taken)).Native own := by
  intro i hi
  rw [List.length_take, List.length_drop] at hi
  have hbyte := hdata (written + i) (by omega)
  rw [← Nat.add_assoc] at hbyte
  rw [List.getD_eq_getElem?_getD, List.getElem?_take, if_pos (by omega), List.getElem?_drop,
    ← List.getD_eq_getElem?_getD]
  exact hbyte

/-- What is programmed so far lies in the windows the program is about. -/
theorem program_untouched {c : Cells} {block off written b o : ℕ} {data : List Byte}
    (h : ¬ Touches g block off data b o) : c.program block off (data.take written) b o = c b o := by
  rw [Cells.program]
  split_ifs with hin
  · obtain ⟨rfl, hle⟩ := hin
    have hlen : data.length ≤ o - off := by
      by_contra hlt
      exact h ⟨rfl, o - off, Nat.lt_of_not_le hlt, by rw [Nat.add_sub_cancel' hle]⟩
    rw [Cells.getD_behind ((List.length_take_le' ..).trans hlen), Cells.and_erased]
  · rfl

/-- A merge programs what is shown. -/
theorem merge_sound (hgrid : Grid g) (hprov : Provenance own) (hs : Sound g cells own l s)
    {block within : ℕ} (hblock : s.cachedBlock = some block) {bytes : List Byte}
    (hroom : within + bytes.length ≤ g.progSize)
    (hbytes : (Request.program block (s.cachedOff + within) bytes).Native own) :
    Sound g cells own ⟨l.held.program block (s.cachedOff + within) bytes, l.lost⟩
      { s with cache := merge s.cache within bytes, dirty := true } := by
  obtain ⟨hcoh, hview⟩ := merge_shows hgrid ⟨hs.coherent, rfl⟩ hblock hroom
  refine ⟨hcoh, fun b o hkept => ?_, hs.native, ?_⟩
  · rw [hview]
    simp only [Cells.program, hs.shown b o hkept]
  · rw [hview]
    exact hs.visible.program hprov hbytes

include hdev hgrid hprov hrespects in
/-- The loop of `program`: what a turn that fails has done stays in the windows of the program. -/
theorem programLoop_ends {block off : ℕ} {data : List Byte}
    (hinside : (Request.program block off data).Inside g)
    (hdata : (Request.program block off data).Native own) (fuel written : ℕ)
    (hfuel : data.length - written ≤ fuel)
    (hs : Sound g cells own ⟨l.held.program block off (data.take written), l.lost⟩ s)
    (hspares : SparesLoop dev g block off data fuel written s) :
    Ends own s (programLoop dev g block off data fuel written)
      (fun _ => Sound g cells own ⟨l.held.program block off data, l.lost⟩)
      fun _ => Sound g cells own
        (l.lose fun b o => Touches g block off data b o ∨ Abandons dev g s b o) := by
  obtain ⟨hblock, hoff⟩ := hinside
  have hdone : ∀ w, data.length ≤ w → data.take w = data := fun w => List.take_of_length_le
  induction fuel generalizing written s with
  | zero =>
      rw [hdone written (by omega)] at hs
      exact Triple.pure fun s' hs' => hs' ▸ hs
  | succ fuel ih =>
      refine Triple.ite (fun hmore => ?_) fun hend => ?_
      swap
      · rw [hdone written (Nat.le_of_not_lt hend)] at hs
        exact Triple.pure fun s' hs' => hs' ▸ hs
      have hpos := hgrid.pos
      obtain ⟨hload, hlater⟩ := hspares hmore
      set windowOff := (off + written) / g.progSize * g.progSize with hwindowOff
      have hdivmod := Nat.div_add_mod (off + written) g.progSize
      have hmod := Nat.mod_lt (off + written) hpos
      have hcomm := Nat.mul_comm g.progSize ((off + written) / g.progSize)
      have hdvd : g.progSize ∣ windowOff := Nat.dvd_mul_left ..
      have hroom := hgrid.window_inside (show off + written < g.blockSize by omega)
      set taken := min (g.progSize - (off + written - windowOff))
        (data.length - written) with htaken
      have hlen : ((data.drop written).take taken).length = taken := by
        rw [List.length_take, List.length_drop]
        omega
      have hfront : (data.take written).length = written := by
        rw [List.length_take]
        omega
      refine Triple.seq (R := fun s' => (Sound g cells own
          ⟨l.held.program block off (data.take written), l.lost⟩ s' ∧
          s'.cachedBlock = some block ∧ s'.cachedOff = windowOff) ∧
          (loadWindow dev g block windowOff s).result = .ok () ∧
          (loadWindow dev g block windowOff s).state = s')
        ((loadWindow_ends hdev hgrid hrespects hs hblock hdvd hroom hload).self.conseq (fun _ => id)
          (fun _ _ => id) fun _ s' h => ?_) ?_
      · obtain ⟨⟨hsound, -⟩, -⟩ := h
        refine ⟨hsound.coherent, fun b o hkept => ?_, hsound.native, hsound.visible⟩
        have hshown := hsound.shown b o fun hlost => hkept (hlost.imp_right .inr)
        rw [hshown]
        exact program_untouched fun htouched => hkept (.inr (.inl htouched))
      · refine Triple.each fun s₁ hs₁ => ?_
        obtain ⟨⟨hsound, hheld, hat⟩, hresult, hstate⟩ := hs₁
        have hlater := hlater hresult
        rw [hstate] at hlater
        set s₂ : NorAlignedStorage σ := { s₁ with
          cache := merge s₁.cache (off + written - windowOff) ((data.drop written).take taken)
          dirty := true } with hs₂
        have hoffset : s₁.cachedOff + (off + written - windowOff) =
            off + (data.take written).length := by omega
        have hmerged := merge_sound hgrid hprov hsound hheld
          (show off + written - windowOff + ((data.drop written).take taken).length ≤ g.progSize by
            omega)
          (by rw [hoffset, hfront]; exact native_part hdata)
        rw [hoffset] at hmerged
        simp only [← Cells.program_append, ← List.take_add] at hmerged
        have htail := ih (written + taken) (by omega) hmerged hlater
        refine Triple.seq (R := fun s' => s' = s₂) (Triple.modify fun s' hs' => hs' ▸ rfl)
          (htail.conseq (fun _ => id) (fun _ _ => id) fun _ s' h => ?_)
        refine ⟨h.coherent, fun b o hkept => h.shown b o fun hlost => ?_, h.native, h.visible⟩
        rcases hlost with hlost | htouched | ⟨-, hres⟩
        · exact hkept (.inl hlost)
        · exact hkept (.inr (.inl htouched))
        · -- the window of the turn is one that the program is about
          obtain ⟨hb, hlow, hhigh⟩ := hres
          change s₁.cachedOff ≤ o at hlow
          change o < s₁.cachedOff + g.progSize at hhigh
          refine hkept (.inr (.inl ⟨Option.some.inj (hb.symm.trans hheld), written, hmore, ?_⟩))
          refine (Nat.div_eq_of_lt_le ?_ ?_).symm
          · omega
          · rw [Nat.add_mul, Nat.one_mul]
            omega

/-- What a read returns is in its place, and what the ledger holds where it promises. -/
def Answers (own : ℕ → ℕ → Byte → Prop) (l : Ledger) : Request → List Byte → Prop
  | .read block off len, bytes | .readDevice block off len, bytes =>
      bytes.length = len ∧ ∀ i < len, own block (off + i) (bytes.getD i 0xFF) ∧
        (¬ l.lost block (off + i) → bytes.getD i 0xFF = l.held block (off + i))
  | _, _ => True

theorem Sound.mono (h : Sound g cells own l s) {l' : Ledger}
    (hlost : ∀ b o, l.lost b o → l'.lost b o)
    (hheld : ∀ b o, ¬ l'.lost b o → l'.held b o = l.held b o) : Sound g cells own l' s :=
  ⟨h.coherent, fun b o hkept => (h.shown b o (mt (hlost b o) hkept)).trans (hheld b o hkept).symm,
    h.native, h.visible⟩

/-- The inner device has changed, its cells have not. -/
theorem Sound.inner (h : Sound g cells own l s) {inner : σ} (hcells : cells inner = cells s.inner) :
    Sound g cells own l { s with inner := inner } := by
  obtain ⟨hcoh, hview⟩ := Shows.inner ⟨h.coherent, rfl⟩ hcells
  refine ⟨hcoh, fun b o hkept => ?_, ?_, ?_⟩
  · rw [hview, h.shown b o hkept]
  · show (cells inner).Native own
    rw [hcells]
    exact h.native
  · rw [hview]
    exact h.visible

theorem Sound.answers (h : Sound g cells own l s) (block off len : ℕ) :
    ((view g cells s).bytes block off len).length = len ∧ ∀ i < len,
      own block (off + i) (((view g cells s).bytes block off len).getD i 0xFF) ∧
        (¬ l.lost block (off + i) →
          ((view g cells s).bytes block off len).getD i 0xFF = l.held block (off + i)) := by
  refine ⟨Cells.length_bytes .., fun i hi => ?_⟩
  rw [List.getD_eq_getElem?_getD, Cells.getElem?_bytes, if_pos hi, Option.getD_some]
  exact ⟨h.visible _ _, h.shown _ _⟩

/-- A call other than an erase that reports an error keeps what is not lost. -/
theorem Sound.failed (h : Sound g cells own l s) {s' : NorAlignedStorage σ} {r : Request}
    (hr : ∀ b, r ≠ .erase b) (after : Cells) :
    Sound g cells own (l.failed dev g s' r after) s :=
  h.mono (fun _ _ => .inl) fun b _ _ => if_neg (hr b)

include hdev hgrid in
theorem read_ends (hs : Sound g cells own l s) {block off len : ℕ}
    (hinside : (Request.read block off len).Inside g) :
    Ends own s (NorAlignedStorage.read dev g block off len)
      (fun bytes s' => Sound g cells own l s' ∧ Answers own l (.read block off len) bytes)
      fun _ => Sound g cells own l := by
  obtain ⟨hsame, hbytes⟩ := hdev.read s.inner block off len hinside
  have hmoved := hs.inner hsame
  refine Triple.bind (R := fun bytes s' => bytes = (cells s'.inner).bytes block off len ∧
      Sound g cells own l s')
    ((call_ends (r := .read block off len) True.intro).conseq (fun _ => id) (fun bytes s' h => ?_)
      fun _ _ h => h.2 ▸ hmoved) fun bytes => ?_
  · obtain ⟨hread, rfl⟩ := h
    refine ⟨?_, hmoved⟩
    rw [hbytes bytes hread]
    exact congrArg (fun c : Cells => c.bytes block off len) hsame.symm
  · refine Triple.get_bind fun s₁ hs₁ => Triple.pure fun s₂ hs₂ => ?_
    obtain ⟨rfl, hsound⟩ := hs₁
    subst hs₂
    rw [splice_view hgrid hsound.coherent]
    exact ⟨hsound, hsound.answers block off len⟩

include hdev hgrid hrespects in
theorem readDevice_ends (hs : Sound g cells own l s) {block off len : ℕ}
    (hinside : (Request.readDevice block off len).Inside g) :
    Ends own s (NorAlignedStorage.readDevice dev g block off len)
      (fun bytes s' => Sound g cells own l s' ∧ Answers own l (.readDevice block off len) bytes)
      fun _ => Sound g cells own (l.failed dev g s (.readDevice block off len) l.held) := by
  have hcall : ∀ s₁, Sound g cells own l s₁ → ¬ Pending g s₁ block off len →
      Ends own s₁ (call (.readDevice block off len) (dev.readDevice block off len))
        (fun bytes s' => Sound g cells own l s' ∧ Answers own l (.readDevice block off len) bytes)
        fun _ => Sound g cells own (l.failed dev g s (.readDevice block off len) l.held) := by
    intro s₁ hsound hfree
    obtain ⟨hsame, hbytes⟩ := hdev.readDevice s₁.inner block off len hinside
    refine (call_ends (r := .readDevice block off len) True.intro).conseq (fun _ => id)
      (fun bytes s' h => ?_) fun _ _ h => h.2 ▸ (hsound.inner hsame).failed (by simp) _
    obtain ⟨hread, rfl⟩ := h
    refine ⟨hsound.inner hsame, ?_⟩
    rw [hbytes bytes hread, hsound.coherent.unpending hfree]
    exact hsound.answers block off len
  refine Triple.get_bind fun s' hs' => ?_
  subst hs'
  refine Triple.ite (fun hpending => ?_) fun hfree => hcall s' hs hfree
  refine Triple.seq ((flush_ends hdev hgrid hrespects hs).self.conseq (fun _ => id)
    (fun _ s₁ h => h.1) fun e s₁ h => ?_) (Triple.each fun s₁ hs₁ => hcall s₁ hs₁.1 fun h => ?_)
  · refine h.1.mono (fun b o hlost => hlost.imp_right fun hres => ?_) fun b o _ => rfl
    exact .inr (.inl ⟨hpending, ⟨e, h.2.1⟩, hres⟩)
  · rw [Pending, hs₁.2.1] at h
    cases h.1

include hdev hgrid hrespects in
theorem sync_ends (hs : Sound g cells own l s) :
    Ends own s (NorAlignedStorage.sync dev g) (fun _ => Sound g cells own l)
      fun _ => Sound g cells own (l.failed dev g s .sync l.held) := by
  refine Triple.seq ((flush_ends hdev hgrid hrespects hs).self.conseq (fun _ => id)
    (fun _ s₁ h => h.1.1) fun e s₁ h => ?_) (Triple.each fun s₁ hs₁ => ?_)
  · refine h.1.mono (fun b o hlost => hlost.imp_right fun hres => ?_) fun b o _ => rfl
    exact .inr (.inl ⟨True.intro, ⟨e, h.2.1⟩, hres⟩)
  · have hmoved := hs₁.inner (hdev.sync s₁.inner)
    exact (call_ends (r := .sync) True.intro).conseq (fun _ => id) (fun _ _ h => h.2 ▸ hmoved)
      fun _ _ h => h.2 ▸ hmoved.failed (by simp) _

/-- The adapter as an erase leaves it for the inner device. -/
structure Cleared (g : Geometry) (cells : σ → Cells) (own : ℕ → ℕ → Byte → Prop)
    (s : NorAlignedStorage σ) (block : ℕ) (s' : NorAlignedStorage σ) : Prop where
  coherent : Coherent g cells s'
  away : s'.cachedBlock ≠ some block
  inner : s'.inner = s.inner
  same : ∀ b o, b ≠ block → view g cells s' b o = view g cells s b o
  visible : (view g cells s').Native own
  kept : ∀ o, view g cells s' block o = cells s.inner block o

theorem Sound.cleared (hs : Sound g cells own l s) (block : ℕ) :
    Cleared g cells own s block
      (if s.cachedBlock = some block
        then { s with cachedBlock := none, dirty := false } else s) := by
  split_ifs with hblock
  · obtain ⟨hcoh, hview⟩ := @dropped_shows _ g cells s hs.coherent.length
    refine ⟨hcoh, nofun, rfl, fun b o hb =>
      ?_, by rw [hview]; exact hs.native, fun o => by rw [hview]⟩
    rw [hview, view_of_not_resident fun hres => hb (Option.some.inj (hres.1.symm.trans hblock))]
  · exact ⟨hs.coherent, hblock, rfl, fun _ _ _ => rfl, hs.visible,
      fun o => view_of_not_resident fun hres => hblock hres.1⟩

/-- The inner device has erased the block, or has tried to. -/
theorem Cleared.erased {block : ℕ} {s' : NorAlignedStorage σ} (h : Cleared g cells own s block s')
    (hs : Sound g cells own l s) {inner : σ} (hnative : (cells inner).Native own)
    (hfar : ∀ b o, b ≠ block → cells inner b o = cells s.inner b o) {l' : Ledger}
    (hlost : ∀ b o, b ≠ block → l.lost b o → l'.lost b o)
    (hheld : ∀ b o, b ≠ block → l'.held b o = l.held b o)
    (hblock : ∀ o, ¬ l'.lost block o → l'.held block o = cells inner block o) :
    Sound g cells own l' { s' with inner := inner } := by
  have hsame : ∀ b o, s'.cachedBlock = some b → cells inner b o = cells s'.inner b o := by
    intro b o hb
    rw [h.inner]
    exact hfar b o fun heq => h.away (heq ▸ hb)
  have hview : ∀ b o, view g cells { s' with inner := inner } b o =
      if b = block then cells inner b o else view g cells s b o := by
    intro b o
    rw [view_replace]
    by_cases hb : b = block
    · rw [if_pos hb, if_neg fun hres : Resident g s' b o => h.away (hb ▸ hres.1)]
    · rw [if_neg hb]
      split_ifs with hres
      · exact h.same b o hb
      · rw [hfar b o hb, ← h.same b o hb, view_of_not_resident hres, h.inner]
  refine ⟨h.coherent.replace hsame, fun b o hkept => ?_, hnative, fun b o => ?_⟩
  · rw [hview]
    split_ifs with hb
    · subst hb
      exact (hblock o hkept).symm
    · rw [hheld b o hb]
      exact hs.shown b o fun hgone => hkept (hlost b o hb hgone)
  · rw [hview]
    split_ifs
    · exact hnative b o
    · exact hs.visible b o

include hdev hrespects in
theorem erase_ends (hs : Sound g cells own l s) {block : ℕ}
    (hinside : (Request.erase block).Inside g) :
    Ends own s (NorAlignedStorage.erase dev block)
      (fun _ => Sound g cells own (l.returned (.erase block)))
      fun _ s' => Sound g cells own (l.failed dev g s (.erase block) (cells s'.inner)) s' := by
  refine Triple.seq (R := Cleared g cells own s block) (Triple.modify fun s' hs' => ?_)
    (Triple.each fun s' hs' => ?_)
  · subst hs'
    exact hs.cleared block
  have hother : ∀ b, b ≠ block → Request.erase block ≠ .erase b := fun b hb h =>
    hb (Request.erase.inj h).symm
  obtain ⟨hdone, hfar⟩ := hdev.erase s'.inner block hinside
  have hnative := hrespects.erase s'.inner block (by rw [hs'.inner]; exact hs.native)
  have hfar' : ∀ b o, b ≠ block →
      cells (dev.erase block s'.inner).2 b o = cells s.inner b o := fun b o hb => by
    rw [hfar b o hb, hs'.inner]
  refine (call_ends (r := .erase block) True.intro).conseq (fun _ => id) (fun _ _ h => ?_)
    fun _ _ h => ?_
  · obtain ⟨hok, rfl⟩ := h
    refine hs'.erased hs hnative hfar' (fun b o hb hgone => ⟨hgone, hother b hb⟩)
      (fun b o hb => if_neg hb) fun o _ => ?_
    rw [hdone hok]
    exact (if_pos rfl).trans (if_pos rfl).symm
  · obtain ⟨-, rfl⟩ := h
    exact hs'.erased hs hnative hfar' (fun b o _ => .inl) (fun b o hb => if_neg (hother b hb))
      fun o _ => if_pos rfl

include hdev hgrid hprov hrespects in
theorem program_ends (hs : Sound g cells own l s) {block off : ℕ} {data : List Byte}
    (hinside : (Request.program block off data).Inside g)
    (hdata : (Request.program block off data).Native own)
    (hspares : Spares dev g s (.program block off data)) :
    Ends own s (NorAlignedStorage.program dev g block off data)
      (fun _ => Sound g cells own ⟨l.held.program block off data, l.lost⟩)
      fun _ => Sound g cells own (l.failed dev g s (.program block off data) l.held) := by
  have hstart : Sound g cells own ⟨l.held.program block off (data.take 0), l.lost⟩ s := by
    rw [List.take_zero, Cells.program_nil]
    exact hs
  by_cases hnil : data = []
  · subst hnil
    rw [List.take_nil] at hstart
    exact Triple.pure fun s' hs' => hs' ▸ hstart
  refine (programLoop_ends hdev hgrid hprov hrespects hinside hdata data.length 0 (Nat.sub_le ..)
    hstart hspares).conseq (fun _ => id) (fun _ _ => id) fun _ s' h => ?_
  refine h.mono (fun b o hlost => hlost.imp_right fun hgone => ?_) fun b o _ => rfl
  rcases hgone with htouched | ⟨hfailed, hres⟩
  · exact .inl ⟨block, off, data, rfl, htouched⟩
  by_cases hheld : s.cachedBlock = some block ∧ s.cachedOff = off / g.progSize * g.progSize
  · -- the window that was pending is the first that the program is about
    obtain ⟨hb, hlow, hhigh⟩ := hres
    have hb' : b = block := Option.some.inj (hb.symm.trans hheld.1)
    refine .inl ⟨block, off, data, rfl, hb', 0, List.length_pos_iff.2 hnil, ?_⟩
    rw [hheld.2] at hlow hhigh
    refine (Nat.div_eq_of_lt_le hlow ?_).symm
    rw [Nat.add_mul, Nat.one_mul]
    exact hhigh
  · exact .inr (.inl ⟨⟨hnil, hheld⟩, hfailed, hres⟩)

include hdev hgrid hprov hrespects in
/-- A call, however it ends. -/
theorem exec_ends (hs : Sound g cells own l s) {r : Request} (hinside : r.Inside g)
    (hr : r.Native own) (hspares : Spares dev g s r) :
    Ends own s (exec dev g r)
      (fun bytes s' => Sound g cells own (l.returned r) s' ∧ Answers own l r bytes)
      fun _ s' => Sound g cells own (l.failed dev g s r (cells s'.inner)) s' := by
  have hreturned : ∀ {s' : NorAlignedStorage σ}, (∀ b, r ≠ .erase b) →
      Sound g cells own ⟨l.held.step r, l.lost⟩ s' → Sound g cells own (l.returned r) s' :=
    fun hne h => h.mono (fun b _ hlost => ⟨hlost, hne b⟩) fun _ _ _ => rfl
  have hfailed : ∀ {s' : NorAlignedStorage σ} {after : Cells}, (∀ b, r ≠ .erase b) →
      Sound g cells own (l.failed dev g s r after) s' →
        Sound g cells own (l.failed dev g s r (cells s'.inner)) s' :=
    fun hne h => h.mono (fun _ _ => id) fun b _ _ => (if_neg (hne b)).trans (if_neg (hne b)).symm
  cases r with
  | read block off len =>
      exact (read_ends hdev hgrid hs hinside).conseq (fun _ => id)
        (fun bytes s' h => ⟨hreturned (by simp) h.1, h.2⟩) fun _ s' h => h.failed (by simp) _
  | readDevice block off len =>
      exact (readDevice_ends hdev hgrid hrespects hs hinside).conseq (fun _ => id)
        (fun bytes s' h => ⟨hreturned (by simp) h.1, h.2⟩) fun _ s' => hfailed (by simp)
  | program block off data =>
      exact Triple.seq ((program_ends hdev hgrid hprov hrespects hs hinside hr hspares).conseq
        (fun _ => id) (fun _ _ => hreturned (by simp)) fun _ s' => hfailed (by simp))
        (Triple.pure fun s' h => ⟨h, True.intro⟩)
  | erase block =>
      exact Triple.seq (erase_ends hdev hrespects hs hinside)
        (Triple.pure fun s' h => ⟨h, True.intro⟩)
  | sync =>
      exact Triple.seq ((sync_ends hdev hgrid hrespects hs).conseq (fun _ => id)
        (fun _ _ => hreturned (by simp)) fun _ s' => hfailed (by simp))
        (Triple.pure fun s' h => ⟨h, True.intro⟩)

end Calls

/-! ## Runs -/

section Runs

variable {σ ε : Type} {dev : Storage σ ε} {g : Geometry} {cells : σ → Cells}
  {own : ℕ → ℕ → Byte → Prop}

/-- The account of an adapter that keeps to its ledger. -/
def Account.Sound (g : Geometry) (cells : σ → Cells) (own : ℕ → ℕ → Byte → Prop) (a : Account σ) :
    Prop :=
  Nor.Sound g cells own a.ledger a.state

section Steps

variable (hdev : dev.Fallible g cells) (hgrid : Grid g) (hprov : Provenance own)
  (hrespects : dev.Respects g cells own)

include hdev hgrid hprov hrespects

theorem Account.Sound.step {a : Account σ} (h : a.Sound g cells own) {r : Request}
    (hinside : r.Inside g) (hr : r.Native own) (hspares : Spares dev g a.state r) :
    (a.step dev g cells r).Sound g cells own ∧
      AllEvents (Request.Native own) (exec dev g r a.state).events ∧
      ∀ bytes, (exec dev g r a.state).result = .ok bytes → Answers own a.ledger r bytes := by
  obtain ⟨hevents, hpost⟩ := (exec_ends hdev hgrid hprov hrespects h hinside hr hspares).post _ rfl
    fun _ _ => True.intro
  unfold Run.Post at hpost
  rw [Account.Sound, Account.step]
  cases hresult : (exec dev g r a.state).result with
  | ok bytes =>
      rw [hresult] at hpost
      refine ⟨?_, hevents, fun bytes' heq => ?_⟩
      · exact hpost.1
      · cases heq
        exact hpost.2
  | error e =>
      rw [hresult] at hpost
      exact ⟨hpost, hevents, nofun⟩

theorem Account.Sound.after {rs : List Request} {a : Account σ} (h : a.Sound g cells own)
    (hinside : ∀ r ∈ rs, r.Inside g) (hrs : ∀ r ∈ rs, r.Native own)
    (hspares : SparesAll dev g a.state rs) : (a.after dev g cells rs).Sound g cells own := by
  induction rs generalizing a with
  | nil => exact h
  | cons r rs ih =>
      have hr : r ∈ r :: rs := List.mem_cons_self ..
      exact ih (h.step hdev hgrid hprov hrespects (hinside r hr) (hrs r hr) hspares.1).1
        (fun r' hr' => hinside r' (List.mem_cons_of_mem _ hr'))
        (fun r' hr' => hrs r' (List.mem_cons_of_mem _ hr')) hspares.2

end Steps

theorem provenance_any : Provenance fun _ _ _ => True :=
    ⟨fun _ _ => True.intro, fun _ _ _ _ _ _ => True.intro⟩

theorem native_any (r : Request) : r.Native fun _ _ _ => True := by
  cases r with
  | program block off data => exact fun _ _ => True.intro
  | _ => exact True.intro

theorem respects_any : dev.Respects g cells fun _ _ _ => True :=
  ⟨fun _ _ _ _ _ _ _ _ _ => True.intro, fun _ _ _ _ _ => True.intro⟩

/-- The adapter recovers from errors.  Where no failing window load overwrites the buffer of a
resident window, every read that returns gives what a NOR device holds that is programmed byte
by byte, but for the windows of programs that reported an error and of pending bytes that a
failed flush or erase gave up.  And no byte gets out of its place: of bytes that may show only
where the caller and the device put them, what is read and what is programmed shows there. -/
theorem adapter_recovers (hdev : dev.Fallible g cells) {inner : σ} {s₀ : NorAlignedStorage σ}
    (hnew : NorAlignedStorage.new g inner = some s₀) {rs : List Request}
    (hinside : ∀ r ∈ rs, r.Inside g) (hspares : SparesAll dev g s₀ rs) :
    let a := (Account.start cells s₀).after dev g cells rs
    (∀ block off len bytes r, r = .read block off len ∨ r = .readDevice block off len → r.Inside g →
      ((exec dev g r).run a.state).result = .ok bytes → bytes.length = len ∧
        ∀ i < len, ¬ a.ledger.lost block (off + i) →
          bytes.getD i 0xFF = a.ledger.held block (off + i)) ∧
    ∀ own, Provenance own → dev.Respects g cells own → (cells inner).Native own →
      (∀ r ∈ rs, r.Native own) →
        ∀ r, r.Inside g → r.Native own → Spares dev g a.state r →
          AllEvents (Request.Native own) ((exec dev g r).run a.state).events ∧
          ∀ bytes, ((exec dev g r).run a.state).result = .ok bytes →
            Answers own a.ledger r bytes := by
  obtain ⟨hgrid, hcoh, hview⟩ := @new_shows _ g cells _ _ hnew
  have hinner : s₀.inner = inner := by
    rw [NorAlignedStorage.new] at hnew
    split_ifs at hnew
    cases hnew
    rfl
  have hstart : ∀ own, (cells inner).Native own → (Account.start cells s₀).Sound g cells own :=
    fun own hnative => by
      refine ⟨hcoh, fun b o _ => ?_, ?_, ?_⟩
      · show view g cells s₀ b o = cells s₀.inner b o
        rw [hview, hinner]
      · show (cells s₀.inner).Native own
        rw [hinner]
        exact hnative
      · show (view g cells s₀).Native own
        rw [hview]
        exact hnative
  intro a
  refine ⟨fun block off len bytes r hr hin hresult => ?_, fun own hprov hrespects hnative hrs r hin
    hr hspared => ?_⟩
  · have hsound := (hstart _ fun _ _ => True.intro).after hdev hgrid provenance_any respects_any
      hinside (fun r _ => native_any r) hspares
    have hspared : Spares dev g a.state r := by
      rcases hr with rfl | rfl
      · exact True.intro
      · exact True.intro
    have hanswers := (hsound.step hdev hgrid provenance_any respects_any hin (native_any r)
      hspared).2.2 bytes hresult
    rcases hr with rfl | rfl
    · exact ⟨hanswers.1, fun i hi => (hanswers.2 i hi).2⟩
    · exact ⟨hanswers.1, fun i hi => (hanswers.2 i hi).2⟩
  · have hsound := (hstart own hnative).after hdev hgrid hprov hrespects hinside hrs hspares
    exact (hsound.step hdev hgrid hprov hrespects hin hr hspared).2

end Runs

/-! ### A device that fails on demand -/

/-- A device in memory with a script: the head says whether the next call fails.  A call that
fails leaves the cells, and a read that fails leaves zeros in the buffer. -/
def flaky : Storage (Cells × List Bool) Unit where
  read block off len s := if s.2.headD false then (.error (), s.1, s.2.tail)
    else (.ok (s.1.bytes block off len), s.1, s.2.tail)
  readDevice block off len s := if s.2.headD false then (.error (), s.1, s.2.tail)
    else (.ok (s.1.bytes block off len), s.1, s.2.tail)
  program block off data s := if s.2.headD false then (.error (), s.1, s.2.tail)
    else (.ok (), s.1.program block off data, s.2.tail)
  erase block s := if s.2.headD false then (.error (), s.1, s.2.tail)
    else (.ok (), s.1.erase block, s.2.tail)
  sync s := (.ok (), s)
  spill _ _ buf _ := List.replicate buf.length 0

theorem flaky_fallible (g : Geometry) : flaky.Fallible g Prod.fst where
  read s block off len _ := by
    simp only [flaky]
    split_ifs
    · exact ⟨rfl, nofun⟩
    · exact ⟨rfl, fun bytes h => (Except.ok.inj h).symm⟩
  spill _ _ _ _ := List.length_replicate
  readDevice s block off len _ := by
    simp only [flaky]
    split_ifs
    · exact ⟨rfl, nofun⟩
    · exact ⟨rfl, fun bytes h => (Except.ok.inj h).symm⟩
  program s block off data hwhole := by
    simp only [flaky]
    split_ifs
    · exact ⟨nofun, fun _ _ _ => rfl⟩
    · refine ⟨fun _ => rfl, fun b o hout => ?_⟩
      show s.1.program block off data b o = s.1 b o
      rw [Cells.program]
      split_ifs with hin
      · have hlen := hwhole.1
        rw [Cells.getD_behind (by omega), Cells.and_erased]
      · rfl
  erase s block _ := by
    simp only [flaky]
    split_ifs
    · exact ⟨nofun, fun _ _ _ => rfl⟩
    · exact ⟨fun _ => rfl, fun b o hb => if_neg hb⟩
  sync _ := rfl

/-- An adapter over a blank device that fails by the script. -/
def flakyStart (script : List Bool) : NorAlignedStorage (Cells × List Bool) :=
  ⟨(fun _ _ => 0xFF, script), none, 0, List.replicate maxProgSize 0xFF, false⟩

/-- The first window load fails, with no window resident. -/
theorem adapter_recovers_flaky :
    let a := (Account.start Prod.fst (flakyStart [true])).after flaky ⟨1, 4, 8, 2, -1⟩ Prod.fst
      [.program 0 0 [0x55], .program 0 4 [0x0F]]
    ((exec flaky ⟨1, 4, 8, 2, -1⟩ (.read 0 3 2)).run a.state).result = .ok [0xFF, 0x0F] ∧
      (¬ a.ledger.lost 0 4 → a.ledger.held 0 4 = 0x0F) := by
  have hspares : SparesAll flaky ⟨1, 4, 8, 2, -1⟩ (flakyStart [true])
      [.program 0 0 [0x55], .program 0 4 [0x0F]] := by
    refine ⟨fun _ => ⟨fun _ _ => .inl rfl, fun h => ?_⟩, fun _ =>
      ⟨fun _ _ => .inl rfl, fun _ => ?_⟩,
      True.intro⟩
    · cases h
    · exact True.intro
  have hrun := (@adapter_recovers _ _ flaky ⟨1, 4, 8, 2, -1⟩ Prod.fst (flaky_fallible _) _
    (flakyStart [true]) rfl [.program 0 0 [0x55], .program 0 4 [0x0F]] (by decide) hspares).1
      0 3 2 [0xFF, 0x0F] _ (.inl rfl) (by decide) (by decide +kernel)
  exact ⟨by decide +kernel, fun hkept => (hrun.2 1 (by decide) hkept).symm⟩

/-- A window is programmed; the load of the next one flushes it, fails, and leaves zeros in the
buffer.  The zeros are read at the window before, and programmed there. -/
theorem adapter_mixes_windows :
    let a := (Account.start Prod.fst (flakyStart [false, false, true])).after flaky ⟨1, 4, 8, 2, -1⟩
      Prod.fst [.program 0 0 [0x0F, 0xF0], .program 0 4 [0x11]]
    ((exec flaky ⟨1, 4, 8, 2, -1⟩ (.read 0 0 2)).run a.state).result = .ok [0, 0] ∧
      a.ledger.held.bytes 0 0 2 = [0x0F, 0xF0] ∧ (∀ o < 4, ¬ a.ledger.lost 0 o) ∧
      ((execAll flaky ⟨1, 4, 8, 2, -1⟩ [.program 0 2 [0x33], .sync]).run a.state).events =
        [.program 0 0 [0, 0, 0, 0], .sync] := by
  refine ⟨by decide +kernel, by decide +kernel, fun o ho hlost => ?_, by decide +kernel⟩
  rcases hlost with ⟨⟨⟩, -⟩ | ⟨block, off, data, heq, htouched⟩ | ⟨-, ⟨e, hfailed⟩, -⟩ | ⟨heq, -⟩
  · cases heq
    obtain ⟨-, i, hi, hwindow⟩ := htouched
    change (4 + i) / 4 = o / 4 at hwindow
    omega
  · cases hfailed
  · cases heq

end LittlefsPure.Nor
