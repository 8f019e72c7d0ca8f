import LittlefsPure.Nor.Adapter

/-!
# The adapter is a NOR device

What a caller sees of the adapter is the inner device with the resident window laid over
it: `view`.  The window may only take bits away from the cells under it, so that a flush
makes the view what the device holds.  Each call keeps this and changes the view as the
call says, and hands the inner device whole windows only.

## Why the view and not the cells

Between two flushes the device and the window disagree, and the caller must see neither but both.
`view` lays one over the other.  A program changes the window and so the view; a flush changes the
device and leaves the view alone; a load changes the window, and is only made when the window that
was there has been flushed.  Three facts about one function, and the refinement is put together
from them.
-/

namespace LittlefsPure.Nor

open Logic NorAlignedStorage

/-- An inner device that does what it is told: no call reports an error, reads return what
the cells hold, programs take bits away, and an erase gives them back.  Of programs, only
those of one whole window are relied on. -/
structure Storage.Lawful {σ ε : Type} (dev : Storage σ ε) (g : Geometry) (cells : σ → Cells) :
    Prop where
  read : ∀ s block off len, (Request.read block off len).Inside g →
    ∃ s', dev.read block off len s = (.ok ((cells s).bytes block off len), s') ∧ cells s' = cells s
  readDevice : ∀ s block off len, (Request.readDevice block off len).Inside g →
    ∃ s', dev.readDevice block off len s = (.ok ((cells s).bytes block off len), s') ∧
      cells s' = cells s
  program : ∀ s block off data, (Request.program block off data).Whole g →
    ∃ s', dev.program block off data s = (.ok (), s') ∧
      cells s' = (cells s).program block off data
  erase : ∀ s block, (Request.erase block).Inside g →
    ∃ s', dev.erase block s = (.ok (), s') ∧ cells s' = (cells s).erase block
  sync : ∀ s, ∃ s', dev.sync s = (.ok (), s') ∧ cells s' = cells s

section View

variable {σ ε α : Type} (g : Geometry) (cells : σ → Cells)

/-- A byte lies in the resident window. -/
def Resident (s : NorAlignedStorage σ) (b o : ℕ) : Prop :=
  s.cachedBlock = some b ∧ s.cachedOff ≤ o ∧ o < s.cachedOff + g.progSize

instance (s : NorAlignedStorage σ) (b o : ℕ) : Decidable (Resident g s b o) :=
  inferInstanceAs (Decidable (_ ∧ _))

/-- The device as a caller of the adapter sees it. -/
def view (s : NorAlignedStorage σ) : Cells := fun b o =>
  if Resident g s b o then s.cache.getD (o - s.cachedOff) 0xFF else cells s.inner b o

/-- The window, the flag and the device agree. -/
structure Coherent (s : NorAlignedStorage σ) : Prop where
  target : s.dirty = true → s.cachedBlock ≠ none
  length : s.cache.length = maxProgSize
  window : ∀ block, s.cachedBlock = some block →
    block < g.blockCount ∧ g.progSize ∣ s.cachedOff ∧ s.cachedOff + g.progSize ≤ g.blockSize
  flushed : ∀ block, s.cachedBlock = some block →
    (cells s.inner).program block s.cachedOff (s.cache.take g.progSize) = view g cells s
  clean : s.dirty = false → view g cells s = cells s.inner

/-- The adapter shows the caller these cells. -/
def Shows (c : Cells) (s : NorAlignedStorage σ) : Prop := Coherent g cells s ∧ view g cells s = c

/-- The geometries that `new` admits. -/
structure Grid : Prop where
  pos : 0 < g.progSize
  le : g.progSize ≤ maxProgSize
  dvd : g.progSize ∣ g.blockSize

/-- A window ends inside the block, because the block is a whole number of windows. -/
theorem Grid.window_inside {g : Geometry} (h : Grid g) {o : ℕ} (ho : o < g.blockSize) :
    o / g.progSize * g.progSize + g.progSize ≤ g.blockSize := by
  obtain ⟨n, hn⟩ := h.dvd
  have hlt : o / g.progSize < n := Nat.div_lt_of_lt_mul (by omega)
  calc o / g.progSize * g.progSize + g.progSize = (o / g.progSize + 1) * g.progSize := by
        rw [Nat.add_mul, Nat.one_mul]
    _ ≤ n * g.progSize := Nat.mul_le_mul_right _ hlt
    _ = g.blockSize := by rw [hn, Nat.mul_comm]

end View

section Window

variable {σ ε : Type} {g : Geometry} {cells : σ → Cells} {c : Cells} {s : NorAlignedStorage σ}

theorem view_of_resident {b o : ℕ} (h : Resident g s b o) :
    view g cells s b o = s.cache.getD (o - s.cachedOff) 0xFF := if_pos h

theorem view_of_not_resident {b o : ℕ} (h : ¬ Resident g s b o) :
    view g cells s b o = cells s.inner b o := if_neg h

theorem view_of_empty (h : s.cachedBlock = none) : view g cells s = cells s.inner := by
  funext b o
  refine view_of_not_resident fun hres => ?_
  rw [hres.1] at h
  cases h

/-- `new`, on a geometry with a program grid. -/
theorem new_shows {inner : σ} (h : NorAlignedStorage.new g inner = some s) :
    Grid g ∧ Shows g cells (cells inner) s := by
  rw [NorAlignedStorage.new] at h
  split_ifs at h with hsize hgrid
  cases h
  have hempty := @view_of_empty _ g cells
    ⟨inner, none, 0, List.replicate maxProgSize 0xFF, false⟩ rfl
  refine ⟨⟨by omega, by omega, Nat.dvd_of_mod_eq_zero (not_not.1 hgrid)⟩, ?_, hempty⟩
  exact ⟨nofun, List.length_replicate, nofun, nofun, fun _ => hempty⟩

theorem getD_merge (cache : List Byte) (within : ℕ) (bytes : List Byte) {i : ℕ}
    (hi : i < cache.length) : (merge cache within bytes).getD i 0xFF =
      if within ≤ i then cache.getD i 0xFF &&& bytes.getD (i - within) 0xFF
      else cache.getD i 0xFF := by
  have hget : cache[i]? = some cache[i] := List.getElem?_eq_getElem hi
  have hcache : cache.getD i 0xFF = cache[i] := by
    rw [List.getD_eq_getElem?_getD, hget]
    rfl
  have hmerge : (merge cache within bytes).getD i 0xFF =
      if within ≤ i ∧ i < within + bytes.length then cache[i] &&& bytes.getD (i - within) 0xFF
      else cache[i] := by
    rw [merge, List.getD_eq_getElem?_getD, List.getElem?_mapIdx, hget]
    rfl
  rw [hmerge, hcache]
  by_cases hle : within ≤ i
  · by_cases hlt : i < within + bytes.length
    · rw [if_pos ⟨hle, hlt⟩, if_pos hle]
    · rw [if_neg fun h => hlt h.2, if_pos hle, Cells.getD_behind (by omega), Cells.and_erased]
  · rw [if_neg fun h => hle h.1, if_neg hle]

/-- The window programmed into cells. -/
theorem program_window (d : Cells) {block : ℕ} (hblock : s.cachedBlock = some block) (b o : ℕ) :
    d.program block s.cachedOff (s.cache.take g.progSize) b o =
      if Resident g s b o then d b o &&& s.cache.getD (o - s.cachedOff) 0xFF else d b o := by
  rw [Cells.program]
  by_cases hb : b = block ∧ s.cachedOff ≤ o
  · rw [if_pos hb]
    by_cases ho : o < s.cachedOff + g.progSize
    · have hlt : o - s.cachedOff < g.progSize := by omega
      rw [if_pos ⟨hb.1 ▸ hblock, hb.2, ho⟩, List.getD_eq_getElem?_getD, List.getElem?_take,
        if_pos hlt, List.getD_eq_getElem?_getD]
    · have hlen := List.length_take_le g.progSize s.cache
      rw [if_neg fun h : Resident g s b o => ho h.2.2, Cells.getD_behind (by omega),
        Cells.and_erased]
  · have hfar : ¬ Resident g s b o := by
      rintro ⟨hsome, hle, -⟩
      rw [hblock] at hsome
      exact hb ⟨(Option.some.inj hsome).symm, hle⟩
    rw [if_neg hb, if_neg hfar]

/-- A merge programs the view. -/
theorem view_merge (hgrid : Grid g) (hlen : s.cache.length = maxProgSize) {block within : ℕ}
    (hblock : s.cachedBlock = some block) {bytes : List Byte}
    (hroom : within + bytes.length ≤ g.progSize) :
    view g cells { s with cache := merge s.cache within bytes, dirty := true } =
      (view g cells s).program block (s.cachedOff + within) bytes := by
  funext b o
  have hle := hgrid.le
  by_cases hres : Resident g s b o
  · obtain ⟨hsome, hlow, hhigh⟩ := hres
    have hb : b = block := by
      rw [hblock] at hsome
      exact (Option.some.inj hsome).symm
    have hnew : view g cells { s with cache := merge s.cache within bytes, dirty := true } b o =
        (merge s.cache within bytes).getD (o - s.cachedOff) 0xFF :=
      view_of_resident ⟨hsome, hlow, hhigh⟩
    rw [hnew, getD_merge _ _ _ (by omega), Cells.program, view_of_resident ⟨hsome, hlow, hhigh⟩]
    by_cases hin : within ≤ o - s.cachedOff
    · rw [if_pos hin, if_pos ⟨hb, by omega⟩, Nat.sub_sub]
    · rw [if_neg hin, if_neg fun h => hin (by omega)]
  · have hnew : view g cells { s with cache := merge s.cache within bytes, dirty := true } b o =
        cells s.inner b o := view_of_not_resident hres
    rw [hnew, Cells.program, view_of_not_resident hres]
    by_cases hb : b = block ∧ s.cachedOff + within ≤ o
    · have hout : ¬ o < s.cachedOff + g.progSize :=
        fun h => hres ⟨hb.1 ▸ hblock, by omega, h⟩
      rw [if_pos hb, Cells.getD_behind (by omega), Cells.and_erased]
    · rw [if_neg hb]

theorem merge_shows (hgrid : Grid g) (h : Shows g cells c s) {block within : ℕ}
    (hblock : s.cachedBlock = some block) {bytes : List Byte}
    (hroom : within + bytes.length ≤ g.progSize) :
    Shows g cells (c.program block (s.cachedOff + within) bytes)
      { s with cache := merge s.cache within bytes, dirty := true } := by
  obtain ⟨hcoh, rfl⟩ := h
  have hle := hgrid.le
  have hlen := hcoh.length
  refine ⟨⟨fun _ hnone => ?_, ?_, hcoh.window, fun block' hblock' => ?_, nofun⟩,
    view_merge hgrid hlen hblock hroom⟩
  · rw [hblock] at hnone
    cases hnone
  · show (merge s.cache within bytes).length = maxProgSize
    rw [merge, List.length_mapIdx, hlen]
  · ext b o : 2
    rw [program_window _ hblock']
    by_cases hres : Resident g s b o
    · -- the cells under the window have every bit that the window has
      have hold : s.cachedBlock = some block' := hblock'
      have hunder := congrFun (congrFun (hcoh.flushed block' hold) b) o
      rw [program_window _ hold, if_pos hres, view_of_resident hres] at hunder
      have hlt : o - s.cachedOff < s.cache.length := by
        obtain ⟨-, hlow, hhigh⟩ := hres
        omega
      have hnew : view g cells { s with cache := merge s.cache within bytes, dirty := true } b o =
          (merge s.cache within bytes).getD (o - s.cachedOff) 0xFF := view_of_resident hres
      show (if Resident g s b o then _ else _) = _
      rw [if_pos hres, hnew, getD_merge _ _ _ hlt]
      split_ifs
      · rw [← BitVec.and_assoc, hunder]
      · exact hunder
    · show (if Resident g s b o then _ else _) = _
      rw [if_neg hres]
      exact (view_of_not_resident (s := { s with cache := _, dirty := true }) hres).symm

/-- A window that has just been read shows what lies under it. -/
theorem loaded_shows (hgrid : Grid g) (hlen : s.cache.length = maxProgSize) {block windowOff : ℕ}
    (hblock : block < g.blockCount) (hdvd : g.progSize ∣ windowOff)
    (hroom : windowOff + g.progSize ≤ g.blockSize) :
    Shows g cells (cells s.inner) { s with
      cache := (cells s.inner).bytes block windowOff g.progSize ++ s.cache.drop g.progSize
      cachedBlock := some block
      cachedOff := windowOff
      dirty := false } := by
  have hle := hgrid.le
  set loaded : NorAlignedStorage σ := { s with
    cache := (cells s.inner).bytes block windowOff g.progSize ++ s.cache.drop g.progSize
    cachedBlock := some block
    cachedOff := windowOff
    dirty := false } with hloaded
  have hwindow : ∀ b o, Resident g loaded b o →
      loaded.cache.getD (o - loaded.cachedOff) 0xFF = cells s.inner b o := by
    rintro b o ⟨hsome, hlow, hhigh⟩
    obtain rfl : block = b := Option.some.inj hsome
    change windowOff ≤ o at hlow
    change o < windowOff + g.progSize at hhigh
    have hlt : o - windowOff < ((cells s.inner).bytes block windowOff g.progSize).length := by
      rw [Cells.length_bytes]
      omega
    show (_ ++ _ : List Byte).getD (o - windowOff) 0xFF = _
    rw [List.getD_eq_getElem?_getD, List.getElem?_append_left hlt, Cells.getElem?_bytes,
      if_pos (by omega), Nat.add_sub_cancel' hlow]
    rfl
  have hview : view g cells loaded = cells s.inner := by
    ext b o : 2
    by_cases hres : Resident g loaded b o
    · rw [view_of_resident hres, hwindow b o hres]
    · rw [view_of_not_resident hres]
  refine ⟨⟨nofun, ?_, fun b hb => ?_, fun b hb => ?_, fun _ => hview⟩, hview⟩
  · show (_ ++ _ : List Byte).length = maxProgSize
    rw [List.length_append, Cells.length_bytes, List.length_drop, hlen]
    omega
  · obtain rfl : block = b := Option.some.inj hb
    exact ⟨hblock, hdvd, hroom⟩
  · ext b' o : 2
    rw [program_window _ hb, hview]
    split_ifs with hres
    · rw [hwindow b' o hres]
      exact BitVec.and_self
    · rfl

theorem view_replace (inner : σ) (b o : ℕ) : view g cells { s with inner := inner } b o =
    if Resident g s b o then view g cells s b o else cells inner b o := by
  by_cases hres : Resident g s b o
  · rw [if_pos hres, view_of_resident hres]
    exact view_of_resident hres
  · rw [if_neg hres]
    exact view_of_not_resident (s := { s with inner := inner }) hres

/-- The cells change, but not in the block of the window. -/
theorem Coherent.replace (h : Coherent g cells s) {inner : σ}
    (hsame : ∀ b o, s.cachedBlock = some b → cells inner b o = cells s.inner b o) :
    Coherent g cells { s with inner := inner } := by
  refine ⟨h.target, h.length, h.window, fun block hblock => ?_, fun hclean => ?_⟩
  · have hold : s.cachedBlock = some block := hblock
    ext b o : 2
    have hunder := congrFun (congrFun (h.flushed block hold) b) o
    rw [program_window _ hold] at hunder
    show (cells inner).program block s.cachedOff (s.cache.take g.progSize) b o = _
    rw [program_window _ hold, view_replace]
    by_cases hres : Resident g s b o
    · rw [if_pos hres] at hunder ⊢
      rw [if_pos hres, hsame b o hres.1, hunder]
    · rw [if_neg hres, if_neg hres]
  · have hview := h.clean hclean
    ext b o : 2
    rw [view_replace]
    split_ifs with hres
    · rw [hview]
      exact (hsame b o hres.1).symm
    · rfl

/-- The window is programmed: the cells are what was shown. -/
theorem Coherent.landed (h : Coherent g cells s) {block : ℕ} (hblock : s.cachedBlock = some block)
    {inner : σ}
    (hcells : cells inner = (cells s.inner).program block s.cachedOff (s.cache.take g.progSize)) :
    Shows g cells (view g cells s) { s with inner := inner, dirty := false } := by
  have hshown : cells inner = view g cells s := hcells.trans (h.flushed block hblock)
  have hsame : view g cells { s with inner := inner, dirty := false } = view g cells s := by
    ext b o : 2
    have hreplace := @view_replace _ g cells s inner b o
    rw [hshown, ite_self] at hreplace
    exact hreplace
  refine ⟨⟨nofun, h.length, h.window, fun block' hblock' => ?_, fun _ => ?_⟩, hsame⟩
  · have hold : s.cachedBlock = some block' := hblock'
    ext b o : 2
    show (cells inner).program block' s.cachedOff (s.cache.take g.progSize) b o = _
    rw [program_window _ hold, hsame]
    by_cases hres : Resident g s b o
    · rw [if_pos hres, hshown, view_of_resident hres, BitVec.and_self]
    · rw [if_neg hres, hshown]
  · rw [hsame, ← hshown]

/-- Where nothing is pending, the cells are what is shown. -/
theorem Coherent.unpending (h : Coherent g cells s) {block off len : ℕ}
    (hfree : ¬ Pending g s block off len) :
    (cells s.inner).bytes block off len = (view g cells s).bytes block off len := by
  cases hdirty : s.dirty with
  | false => rw [h.clean hdirty]
  | true =>
      -- what is pending lies elsewhere
      refine List.map_congr_left fun i hi => ?_
      rw [List.mem_range] at hi
      refine (view_of_not_resident fun hres => hfree ?_).symm
      obtain ⟨hblock, hlow, hhigh⟩ := hres
      exact ⟨hdirty, hblock, by omega, by omega⟩

/-- A window that is given up shows what lies under it. -/
theorem dropped_shows (hlen : s.cache.length = maxProgSize) :
    Shows g cells (cells s.inner) { s with cachedBlock := none, dirty := false } := by
  have hempty := @view_of_empty _ g cells { s with cachedBlock := none, dirty := false } rfl
  exact ⟨⟨nofun, hlen, nofun, nofun, fun _ => hempty⟩, hempty⟩

end Window

/-! ## The calls -/

section Calls

variable {σ ε α : Type} {dev : Storage σ ε} {g : Geometry} {cells : σ → Cells} {c : Cells}

/-- Bytes put over others. -/
theorem getElem?_patch {buf mid : List Byte} {lo hi : ℕ} (hlo : lo ≤ buf.length)
    (hmid : lo + mid.length = hi) (i : ℕ) :
    (buf.take lo ++ mid ++ buf.drop hi)[i]? =
      if lo ≤ i ∧ i < hi then mid[i - lo]? else buf[i]? := by
  have htake : (buf.take lo).length = lo := List.length_take_of_le hlo
  rw [List.append_assoc, List.getElem?_append, htake, List.getElem?_append, List.getElem?_drop,
    List.getElem?_take]
  by_cases hbelow : i < lo
  · rw [if_pos hbelow, if_pos hbelow, if_neg fun h => by omega]
  rw [if_neg hbelow]
  by_cases hin : i < hi
  · rw [if_pos (by omega), if_pos ⟨by omega, hin⟩]
  · have hback : hi + (i - lo - mid.length) = i := by omega
    rw [if_neg (by omega), if_neg fun h => hin h.2, hback]

/-- The splice over the bytes of the inner device gives the bytes that are shown. -/
theorem splice_view (hgrid : Grid g) {s : NorAlignedStorage σ} (hcoh : Coherent g cells s)
    (block off len : ℕ) : splice g s block off ((cells s.inner).bytes block off len) =
      (view g cells s).bytes block off len := by
  have hle := hgrid.le
  have hlen := hcoh.length
  have hfar : (∀ o, off ≤ o → o < off + len → ¬ Resident g s block o) →
      (cells s.inner).bytes block off len = (view g cells s).bytes block off len := by
    intro h
    refine List.map_congr_left fun i hi => ?_
    rw [List.mem_range] at hi
    rw [view_of_not_resident (h (off + i) (by omega) (by omega))]
  have hsplice : splice g s block off ((cells s.inner).bytes block off len) =
      if s.cachedBlock = some block then
        if max off s.cachedOff <
            min (off + ((cells s.inner).bytes block off len).length) (s.cachedOff + g.progSize) then
          ((cells s.inner).bytes block off len).take (max off s.cachedOff - off) ++
            (s.cache.drop (max off s.cachedOff - s.cachedOff)).take
              (min (off + ((cells s.inner).bytes block off len).length)
                (s.cachedOff + g.progSize) - max off s.cachedOff) ++
            ((cells s.inner).bytes block off len).drop
              (min (off + ((cells s.inner).bytes block off len).length)
                (s.cachedOff + g.progSize) - off)
        else (cells s.inner).bytes block off len
      else (cells s.inner).bytes block off len := rfl
  rw [Cells.length_bytes] at hsplice
  rw [hsplice]
  split_ifs with hblock hoverlap
  · set lo := max off s.cachedOff - off with hlo
    set hi := min (off + len) (s.cachedOff + g.progSize) - off with hhi
    set mid := (s.cache.drop (max off s.cachedOff - s.cachedOff)).take
      (min (off + len) (s.cachedOff + g.progSize) - max off s.cachedOff) with hmid
    have hmidlen : mid.length =
        min (off + len) (s.cachedOff + g.progSize) - max off s.cachedOff := by
      rw [hmid, List.length_take, List.length_drop]
      omega
    ext1 i
    rw [getElem?_patch (by rw [Cells.length_bytes]; omega) (by omega), Cells.getElem?_bytes,
      Cells.getElem?_bytes]
    by_cases hin : lo ≤ i ∧ i < hi
    · have hres : Resident g s block (off + i) := ⟨hblock, by omega, by omega⟩
      have hidx : max off s.cachedOff - s.cachedOff + (i - lo) = off + i - s.cachedOff := by omega
      have hlt : off + i - s.cachedOff < s.cache.length := by omega
      rw [if_pos hin, if_pos (by omega), view_of_resident hres, hmid, List.getElem?_take,
        if_pos (by omega), List.getElem?_drop, hidx, List.getD_eq_getElem?_getD,
        List.getElem?_eq_getElem hlt]
      rfl
    · rw [if_neg hin]
      by_cases hi' : i < len
      · have hres : ¬ Resident g s block (off + i) := by
          rintro ⟨-, hlow, hhigh⟩
          omega
        rw [if_pos hi', if_pos hi', view_of_not_resident hres]
      · rw [if_neg hi', if_neg hi']
  · refine hfar fun o hlow hhigh => ?_
    rintro ⟨-, hlow', hhigh'⟩
    omega
  · exact hfar fun o _ _ hres => hblock hres.1

/-- What a call of the adapter guarantees: it returns, and it hands the inner device whole
windows. -/
abbrev Does (g : Geometry) (P : NorAlignedStorage σ → Prop) (m : Adapter σ ε α)
    (Q : α → NorAlignedStorage σ → Prop) : Prop :=
  Triple (fun _ => True) (Request.Whole g) P m Q fun _ _ => False

/-- A call of the inner device. -/
theorem call_does {r : Request} {f : σ → Except ε α × σ} {P : NorAlignedStorage σ → Prop}
    {Q : α → NorAlignedStorage σ → Prop} (hwhole : ∀ s, P s → r.Whole g)
    (h : ∀ s, P s → ∃ a inner, f s.inner = (.ok a, inner) ∧ Q a { s with inner := inner }) :
    Does g P (call r f) Q := by
  refine ⟨fun s hs _ => ?_⟩
  obtain ⟨a, inner, hf, hQ⟩ := h s hs
  have hrun : call r f s = ⟨.ok a, { s with inner := inner }, [r]⟩ := by
    rw [call, hf]
    rfl
  rw [hrun]
  exact ⟨allEvents_singleton.2 (hwhole s hs), hQ⟩

/-- The inner device has changed, its cells have not. -/
theorem Shows.inner {s : NorAlignedStorage σ} (h : Shows g cells c s) {inner : σ}
    (hcells : cells inner = cells s.inner) : Shows g cells c { s with inner := inner } := by
  obtain ⟨hcoh, hview⟩ := h
  refine ⟨hcoh.replace fun b o _ => by rw [hcells], ?_⟩
  rw [← hview]
  ext b o : 2
  rw [view_replace, hcells]
  split_ifs with hres
  · rfl
  · exact (view_of_not_resident hres).symm

variable (hdev : dev.Lawful g cells) (hgrid : Grid g)

include hdev hgrid

/-- A flush shows nothing new, and leaves nothing pending. -/
theorem flush_does : Does g (Shows g cells c) (flush dev g)
    fun _ s => Shows g cells c s ∧ s.dirty = false := by
  refine Triple.get_bind fun s hs => Triple.ite (fun hclean => ?_) fun hdirty => ?_
  · exact Triple.pure fun s' hs' => hs' ▸ ⟨hs, by simpa using hclean⟩
  have hdirty : s.dirty = true := by simpa using hdirty
  obtain ⟨hcoh, hview⟩ := hs
  cases hblock : s.cachedBlock with
  | none => exact absurd hblock (hcoh.target hdirty)
  | some block =>
      obtain ⟨hlt, hdvd, hroom⟩ := hcoh.window block hblock
      have hlen : (s.cache.take g.progSize).length = g.progSize := by
        rw [List.length_take, hcoh.length]
        exact Nat.min_eq_left hgrid.le
      have hwhole : (Request.program block s.cachedOff (s.cache.take g.progSize)).Whole g :=
        ⟨hlen, hdvd, hroom, hlt⟩
      obtain ⟨inner, hprogram, hcells⟩ := hdev.program s.inner _ _ _ hwhole
      have hafter : Shows g cells c { s with inner := inner, dirty := false } :=
        hview ▸ hcoh.landed hblock hcells
      refine Triple.seq (R := fun s' => s' = { s with dirty := false })
        (Triple.modify fun s' hs' => hs' ▸ rfl) ?_
      refine Triple.bind (R := fun r s' => r = .ok () ∧ s' =
        { s with inner := inner, dirty := false })
        (Triple.attempt ?_) fun r => ?_
      · refine Triple.conseq (call_does (P := fun s' => s' = { s with dirty := false })
          (Q := fun _ s' => s' = { s with inner := inner, dirty := false }) (fun _ _ => hwhole)
          fun s' hs' => ?_) (fun _ => id) (fun _ _ hs' => ⟨rfl, hs'⟩) fun _ _ => False.elim
        subst hs'
        exact ⟨(), inner, hprogram, rfl⟩
      · cases r with
        | ok _ => exact Triple.pure fun s' hs' => hs'.2 ▸ ⟨hafter, rfl⟩
        | error e => exact ⟨fun s' hs' => nomatch hs'.1⟩

/-- A window that is loaded is resident. -/
theorem loadWindow_does {block windowOff : ℕ} (hblock : block < g.blockCount)
    (hdvd : g.progSize ∣ windowOff) (hroom : windowOff + g.progSize ≤ g.blockSize) :
    Does g (Shows g cells c) (loadWindow dev g block windowOff)
      fun _ s => Shows g cells c s ∧ s.cachedBlock = some block ∧ s.cachedOff = windowOff := by
  refine Triple.get_bind fun s hs => Triple.ite (fun hheld => ?_) fun _ => ?_
  · exact Triple.pure fun s' hs' => hs' ▸ ⟨hs, hheld⟩
  refine Triple.seq ((flush_does hdev hgrid).strengthen fun s' hs' => hs' ▸ hs) ?_
  refine Triple.get_bind fun s hs => ?_
  obtain ⟨hshows, hclean⟩ := hs
  obtain ⟨inner, hread, hcells⟩ := hdev.read s.inner block windowOff g.progSize ⟨hblock, hroom⟩
  refine Triple.bind (R := fun r s' => r = .ok ((cells inner).bytes block windowOff g.progSize) ∧
    s' = { s with inner := inner }) (Triple.attempt ?_) fun r => ?_
  · refine Triple.conseq (call_does (P := fun s' => s' = s) (Q := fun bytes s' =>
      bytes = (cells inner).bytes block windowOff g.progSize ∧ s' = { s with inner := inner })
      (fun _ _ => True.intro) fun s' hs' => ?_) (fun _ => id) (fun bytes _ hs' => ⟨?_, hs'.2⟩)
        fun _ _ => False.elim
    · subst hs'
      exact ⟨_, inner, hread, by rw [hcells], rfl⟩
    · rw [hs'.1]
  · cases r with
    | ok bytes =>
        refine Triple.modify fun s' hs' => ?_
        obtain ⟨hbytes, rfl⟩ := hs'
        obtain ⟨hcoh, hview⟩ := hshows.inner hcells
        cases hbytes
        refine ⟨?_, rfl, rfl⟩
        rw [← hview, hcoh.clean hclean]
        exact loaded_shows hgrid hcoh.length hblock hdvd hroom
    | error e => exact ⟨fun s' hs' => nomatch hs'.1⟩

/-- A turn of the loop programs the next bytes, up to the end of their window. -/
theorem programLoop_does {block off : ℕ} {data : List Byte}
    (hinside : (Request.program block off data).Inside g) (fuel written : ℕ)
    (hfuel : data.length - written ≤ fuel) :
    Does g (Shows g cells (c.program block off (data.take written)))
      (programLoop dev g block off data fuel written)
      fun _ => Shows g cells (c.program block off data) := by
  obtain ⟨hblock, hoff⟩ := hinside
  have hdone : ∀ w, data.length ≤ w → data.take w = data := fun w => List.take_of_length_le
  induction fuel generalizing written with
  | zero =>
      rw [hdone written (by omega)]
      exact Triple.pure fun _ => id
  | succ fuel ih =>
      refine Triple.ite (fun hmore => ?_) fun hend => ?_
      swap
      · rw [hdone written (Nat.le_of_not_lt hend)]
        exact Triple.pure fun _ => id
      have hpos := hgrid.pos
      set windowOff := (off + written) / g.progSize * g.progSize with hwindowOff
      have hdivmod := Nat.div_add_mod (off + written) g.progSize
      have hmod := Nat.mod_lt (off + written) hpos
      have hcomm := Nat.mul_comm g.progSize ((off + written) / g.progSize)
      have hdvd : g.progSize ∣ windowOff := Nat.dvd_mul_left ..
      have hroom := hgrid.window_inside (show off + written < g.blockSize by omega)
      set taken := min (g.progSize - (off + written - windowOff))
        (data.length - written) with htaken
      refine Triple.seq (loadWindow_does hdev hgrid hblock hdvd hroom) ?_
      refine Triple.seq (R := Shows g cells (c.program block off (data.take (written + taken)))) ?_
        (ih (written + taken) (by omega))
      refine Triple.modify fun s hs => ?_
      obtain ⟨hshows, hres, hat⟩ := hs
      have hlen : ((data.drop written).take taken).length = taken := by
        rw [List.length_take, List.length_drop]
        omega
      have hprefix : (data.take written).length = written := by
        rw [List.length_take]
        omega
      have hroom : off + written - windowOff + ((data.drop written).take taken).length ≤
          g.progSize := by omega
      have hstep := merge_shows hgrid hshows hres hroom
      have hoffset : s.cachedOff + (off + written - windowOff) = off +
          (data.take written).length := by
        omega
      rw [hoffset, ← Cells.program_append, ← List.take_add] at hstep
      exact hstep

theorem program_does {block off : ℕ} {data : List Byte}
    (hinside : (Request.program block off data).Inside g) :
    Does g (Shows g cells c) (program dev g block off data)
      fun _ => Shows g cells (c.program block off data) := by
  refine (programLoop_does hdev hgrid hinside data.length 0 (by omega)).strengthen fun s hs => ?_
  rw [List.take_zero, Cells.program_nil]
  exact hs

theorem read_does {block off len : ℕ} (hinside : (Request.read block off len).Inside g) :
    Does g (Shows g cells c) (NorAlignedStorage.read dev g block off len)
      fun bytes s => Shows g cells c s ∧ bytes = c.bytes block off len := by
  refine Triple.bind (R := fun bytes s => Shows g cells c s ∧
    bytes = (cells s.inner).bytes block off len) ?_ fun bytes => ?_
  · refine call_does (fun _ _ => True.intro) fun s hs => ?_
    obtain ⟨inner, hread, hcells⟩ := hdev.read s.inner block off len hinside
    refine ⟨_, inner, hread, hs.inner hcells, ?_⟩
    show _ = (cells inner).bytes _ _ _
    rw [hcells]
  · refine Triple.get_bind fun s hs => Triple.pure fun s' hs' => ?_
    obtain ⟨hshows, rfl⟩ := hs
    subst hs'
    exact ⟨hshows, by rw [splice_view hgrid hshows.1, hshows.2]⟩

/-- A read of the device shows the same, and no byte that it met is pending. -/
theorem readDevice_does {block off len : ℕ}
    (hinside : (Request.readDevice block off len).Inside g) :
    Does g (Shows g cells c) (NorAlignedStorage.readDevice dev g block off len)
      fun bytes s => Shows g cells c s ∧ ¬ Pending g s block off len ∧
        bytes = (cells s.inner).bytes block off len ∧ bytes = c.bytes block off len := by
  have hread : Does g (fun s => Shows g cells c s ∧ ¬ Pending g s block off len)
      (call (.readDevice block off len) (dev.readDevice block off len))
      fun bytes s => Shows g cells c s ∧ ¬ Pending g s block off len ∧
        bytes = (cells s.inner).bytes block off len ∧ bytes = c.bytes block off len := by
    refine call_does (fun _ _ => True.intro) fun s hs => ?_
    obtain ⟨⟨hcoh, hview⟩, hfree⟩ := hs
    obtain ⟨inner, hread, hcells⟩ := hdev.readDevice s.inner block off len hinside
    refine ⟨_, inner, hread, Shows.inner ⟨hcoh, hview⟩ hcells, hfree, ?_, ?_⟩
    · show _ = (cells inner).bytes _ _ _
      rw [hcells]
    · rw [← hview, hcoh.unpending hfree]
  refine Triple.get_bind fun s hs => Triple.ite (fun _ => ?_) fun hfree => ?_
  · refine Triple.seq ?_ hread
    refine ((flush_does hdev hgrid).strengthen fun s' hs' => hs' ▸ hs).weaken fun _ s' hs' => ?_
    refine ⟨hs'.1, fun hpending => ?_⟩
    have hdirty := hpending.1
    rw [hs'.2] at hdirty
    cases hdirty
  · exact hread.strengthen fun s' hs' => hs' ▸ ⟨hs, hfree⟩

omit hgrid in
theorem erase_does {block : ℕ} (hinside : (Request.erase block).Inside g) :
    Does g (Shows g cells c) (NorAlignedStorage.erase dev block)
      fun _ => Shows g cells (c.erase block) := by
  refine Triple.seq (R := fun s => Coherent g cells s ∧ s.cachedBlock ≠ some block ∧
    (view g cells s).erase block = c.erase block) (Triple.modify fun s hs => ?_) ?_
  · obtain ⟨hcoh, rfl⟩ := hs
    split_ifs with hblock
    · obtain ⟨hdropped, hempty⟩ := @dropped_shows _ g cells s hcoh.length
      refine ⟨hdropped, nofun, ?_⟩
      rw [hempty]
      ext b o : 2
      by_cases hb : b = block
      · rw [Cells.erase, Cells.erase, if_pos hb, if_pos hb]
      · have hres : ¬ Resident g s b o := fun hres =>
          hb (Option.some.inj (hres.1.symm.trans hblock))
        rw [Cells.erase, Cells.erase, if_neg hb, if_neg hb, view_of_not_resident hres]
    · exact ⟨hcoh, hblock, rfl⟩
  · refine call_does (fun _ _ => True.intro) fun s hs => ?_
    obtain ⟨hcoh, hblock, herase⟩ := hs
    obtain ⟨inner, hrun, hcells⟩ := hdev.erase s.inner block hinside
    refine ⟨(), inner, hrun, hcoh.replace fun b o hb => ?_, ?_⟩
    · rw [hcells, Cells.erase, if_neg fun h : b = block => hblock (h ▸ hb)]
    · rw [← herase]
      ext b o : 2
      rw [view_replace, hcells]
      split_ifs with hres
      · rw [Cells.erase, if_neg fun h : b = block => hblock (h ▸ hres.1)]
      · rw [Cells.erase, Cells.erase, view_of_not_resident hres]

theorem sync_does : Does g (Shows g cells c) (NorAlignedStorage.sync dev g)
    fun _ s => Shows g cells c s ∧ cells s.inner = c := by
  refine Triple.seq (flush_does hdev hgrid) (call_does (fun _ _ => True.intro) fun s hs => ?_)
  obtain ⟨inner, hsync, hcells⟩ := hdev.sync s.inner
  refine ⟨(), inner, hsync, hs.1.inner hcells, ?_⟩
  show cells inner = c
  rw [hcells, ← hs.1.1.clean hs.2, hs.1.2]

/-- A call returns what the model returns and leaves what the model leaves. -/
theorem exec_does {r : Request} (hinside : r.Inside g) :
    Does g (Shows g cells c) (exec dev g r) fun bytes s =>
      Shows g cells (c.step r) s ∧ bytes = c.reply r ∧ (r = .sync → cells s.inner = c.step r) := by
  cases r with
  | read block off len =>
      exact (read_does hdev hgrid hinside).weaken fun bytes s hs => ⟨hs.1, hs.2, nofun⟩
  | readDevice block off len =>
      exact (readDevice_does hdev hgrid hinside).weaken fun bytes s hs => ⟨hs.1, hs.2.2.2, nofun⟩
  | program block off data =>
      exact Triple.seq (program_does hdev hgrid hinside) (Triple.pure fun s hs => ⟨hs, rfl, nofun⟩)
  | erase block =>
      exact Triple.seq (erase_does hdev hinside) (Triple.pure fun s hs => ⟨hs, rfl, nofun⟩)
  | sync =>
      exact Triple.seq (sync_does hdev hgrid)
        (Triple.pure fun s hs => ⟨hs.1, rfl, fun _ => hs.2⟩)

/-- A sequence of calls. -/
theorem execAll_does {rs : List Request} (hinside : ∀ r ∈ rs, r.Inside g) :
    Does g (Shows g cells c) (execAll dev g rs) fun replies s =>
      Shows g cells (c.after rs) s ∧ replies = c.replies rs ∧
        (rs.getLast? = some .sync → cells s.inner = c.after rs) := by
  induction rs generalizing c with
  | nil => exact Triple.pure fun s hs => ⟨hs, rfl, nofun⟩
  | cons r rs ih =>
      have hr := hinside r (List.mem_cons_self ..)
      have hrs : ∀ r' ∈ rs, r'.Inside g := fun r' h => hinside r' (List.mem_cons_of_mem _ h)
      refine Triple.bind (exec_does hdev hgrid hr) fun bytes => ?_
      cases rs with
      | nil =>
          refine Triple.bind (R := fun more s => more = [] ∧ Shows g cells (c.step r) s ∧
            bytes = c.reply r ∧ (r = .sync → cells s.inner = c.step r))
            (Triple.pure fun s hs => ⟨rfl, hs⟩) fun more => Triple.pure fun s hs => ?_
          obtain ⟨rfl, hshows, rfl, hsync⟩ := hs
          exact ⟨hshows, rfl, fun hlast => hsync (Option.some.inj hlast)⟩
      | cons r' rs =>
          have hlater : Does g (fun s => Shows g cells (c.step r) s ∧ bytes = c.reply r)
              (execAll dev g (r' :: rs)) fun more s =>
                (Shows g cells ((c.step r).after (r' :: rs)) s ∧
                  more = (c.step r).replies (r' :: rs) ∧
                  ((r' :: rs).getLast? = some .sync →
                    cells s.inner = (c.step r).after (r' :: rs))) ∧ bytes = c.reply r :=
            Triple.pre fun hbytes => (ih hrs).weaken fun more s hs => ⟨hs, hbytes⟩
          refine Triple.bind (hlater.strengthen fun s hs => ⟨hs.1, hs.2.1⟩) fun more =>
            Triple.pure fun s hs => ?_
          obtain ⟨⟨hshows, rfl, hsync⟩, rfl⟩ := hs
          refine ⟨hshows, rfl, fun hlast => hsync ?_⟩
          rw [List.getLast?_cons_cons] at hlast
          exact hlast

end Calls

/-! ## Runs -/

section Runs

variable {σ ε : Type} {dev : Storage σ ε} {g : Geometry} {cells : σ → Cells}

/-- A call that returns, as a run. -/
theorem Does.run {α : Type} {P : NorAlignedStorage σ → Prop} {m : Adapter σ ε α}
    {Q : α → NorAlignedStorage σ → Prop} (h : Does g P m Q) {s : NorAlignedStorage σ} (hs : P s) :
    ∃ a s' events, m.run s = ⟨.ok a, s', events⟩ ∧ Q a s' ∧ AllEvents (Request.Whole g) events := by
  obtain ⟨hwhole, hpost⟩ := h.post s hs fun _ _ => True.intro
  cases hrun : m s with
  | mk result s' events =>
      rw [hrun] at hwhole hpost
      cases result with
      | ok a => exact ⟨a, s', events, hrun, hpost, hwhole⟩
      | error e => exact False.elim hpost

/-- `into_inner` hands over a device that holds what was shown. -/
theorem intoInner_does (hdev : dev.Lawful g cells) (hgrid : Grid g) {c : Cells} :
    Does g (Shows g cells c) (intoInner dev g) fun inner _ => cells inner = c := by
  refine Triple.seq (flush_does hdev hgrid) (Triple.get_bind fun s hs => Triple.pure fun s' hs' =>
    ?_)
  obtain ⟨⟨hcoh, hview⟩, hclean⟩ := hs
  rw [← hcoh.clean hclean, hview]

/-- The adapter over a device without errors is a NOR device, byte for byte. -/
theorem adapter_refines (hdev : dev.Lawful g cells) {inner : σ} {s₀ : NorAlignedStorage σ}
    (hnew : NorAlignedStorage.new g inner = some s₀) {rs : List Request}
    (hinside : ∀ r ∈ rs, r.Inside g) :
    ∃ s events,
      (execAll dev g rs).run s₀ = ⟨.ok ((cells inner).replies rs), s, events⟩ ∧
      (rs.getLast? = some .sync → cells s.inner = (cells inner).after rs) ∧
      (∀ block off len, (Request.readDevice block off len).Inside g →
        ∃ s' events', (NorAlignedStorage.readDevice dev g block off len).run s =
            ⟨.ok ((cells s'.inner).bytes block off len), s', events'⟩ ∧
          ¬ Pending g s' block off len ∧
          ((NorAlignedStorage.read dev g block off len).run s).result =
            .ok ((cells s'.inner).bytes block off len)) ∧
      ∀ block off data, Request.program block off data ∈ events →
        data.length = g.progSize ∧ g.progSize ∣ off ∧ off + g.progSize ≤ g.blockSize ∧
          block < g.blockCount := by
  obtain ⟨hgrid, hshows⟩ := @new_shows _ g cells _ _ hnew
  obtain ⟨replies, s, events, hrun, ⟨hshown, rfl, hsync⟩, hwhole⟩ :=
    (execAll_does hdev hgrid hinside).run hshows
  refine ⟨s, events, hrun, hsync, fun block off len hin => ?_, fun block off data => hwhole _⟩
  obtain ⟨bytes, s', events', hdevice, ⟨-, hfree, rfl, hbytes⟩, -⟩ :=
    (readDevice_does hdev hgrid hin).run hshown
  obtain ⟨bytes', s'', events'', hread, ⟨-, rfl⟩, -⟩ := (read_does hdev hgrid hin).run hshown
  exact ⟨s', events', hdevice, hfree, by rw [hread, hbytes]⟩

end Runs

/-! ### A device in memory -/

/-- The device that is its cells. -/
def ram : Storage Cells Empty where
  read block off len c := (.ok (c.bytes block off len), c)
  readDevice block off len c := (.ok (c.bytes block off len), c)
  program block off data c := (.ok (), c.program block off data)
  erase block c := (.ok (), c.erase block)
  sync c := (.ok (), c)

theorem ram_lawful (g : Geometry) : ram.Lawful g id where
  read c _ _ _ _ := ⟨c, rfl, rfl⟩
  readDevice c _ _ _ _ := ⟨c, rfl, rfl⟩
  program c block off data _ := ⟨c.program block off data, rfl, rfl⟩
  erase c block _ := ⟨c.erase block, rfl, rfl⟩
  sync c := ⟨c, rfl, rfl⟩

/-- A program over two windows, one into the pending window, an erase of another block. -/
def windowCalls : List Request :=
  [.erase 0, .erase 1, .program 1 2 [0x0F, 0xF0, 0xAA, 0x55], .read 1 0 8, .program 1 5 [0x11],
    .erase 0, .readDevice 1 4 3, .program 1 0 [0x77], .sync]

theorem adapter_refines_ram :
    ∃ s events, (execAll ram ⟨1, 4, 8, 2, -1⟩ windowCalls).run
        ⟨fun _ _ => 0, none, 0, List.replicate maxProgSize 0xFF, false⟩ =
          ⟨.ok [[], [], [], [0xFF, 0xFF, 0x0F, 0xF0, 0xAA, 0x55, 0xFF, 0xFF], [], [],
            [0xAA, 0x11, 0xFF], [], []], s, events⟩ ∧
      Cells.bytes s.inner 1 0 8 = [0x77, 0xFF, 0x0F, 0xF0, 0xAA, 0x11, 0xFF, 0xFF] := by
  obtain ⟨s, events, hrun, hsync, -⟩ := @adapter_refines _ _ _ _ _
    (ram_lawful ⟨1, 4, 8, 2, -1⟩) (fun _ _ => 0) _ rfl windowCalls (by decide)
  have hcells : s.inner = Cells.after (fun _ _ => 0) windowCalls := hsync rfl
  refine ⟨s, events, hrun.trans ?_, ?_⟩
  · have hreplies : Cells.replies (id fun _ _ => 0) windowCalls =
        [[], [], [], [0xFF, 0xFF, 0x0F, 0xF0, 0xAA, 0x55, 0xFF, 0xFF], [], [],
          [0xAA, 0x11, 0xFF], [], []] := by decide
    rw [hreplies]
  · rw [hcells]
    decide

end LittlefsPure.Nor
