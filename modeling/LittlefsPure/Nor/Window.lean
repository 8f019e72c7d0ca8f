import LittlefsPure.Nor.Refines
import LittlefsPure.Logic.Checked
import Mathlib.Data.List.Nodup

/-!
# The read window

`storage.rs`: `read_range` reads any range of a block with reads on the read grid only.
The run of grid windows that covers the range is fetched in one read or in three that
follow one another without a gap or an overlap, so every window of the run is fetched once
and no window outside of it at all.

## Why three reads

The bytes asked for begin and end somewhere inside a window of the read grid.  The windows that are
covered in full are read straight into the output; the first and the last, where they are not, are
read into a scratch buffer and their part is copied.  When the whole range lies inside one window
there is one read.  The plan is computed first, as a list of reads with the part of each that is
kept, so that what the reads cover is arithmetic and has nothing to do with the device.
-/

namespace LittlefsPure.Nor

open Logic

section Source

variable {σ ε : Type} (dev : Storage σ ε)

/-- A read of the device, with any failure reported as `Io`.  The position is a `usize`, and
the device takes a `u32`. -/
def fetch (block pos len : ℕ) : Program σ Error Request (List Byte) := fun s =>
  let off := pos % 2 ^ 32
  ⟨(dev.read block off len s).1.mapError fun _ => .io, (dev.read block off len s).2,
    [.read block off len]⟩

/-- Bytes copied into a buffer from a position on. -/
def copyInto (out : List Byte) (pos : ℕ) (bytes : List Byte) : List Byte :=
  out.take pos ++ bytes ++ out.drop (pos + bytes.length)

/-- `checked_next_multiple_of` in words of `bits` bits. -/
def nextMultipleOf (bits n unit : ℕ) : Option ℕ :=
  if unit = 0 then none
  else if n % unit = 0 then some n
  else Checked.add bits n (unit - n % unit)

/-- The length of the run of grid windows that covers a range. -/
def covering (bits unit pos total : ℕ) : Option ℕ := do
  let stop ← Checked.add bits pos total
  let top ← nextMultipleOf bits stop unit
  return top - (pos - pos % unit)

/-- How far `read_range` has filled its destination. -/
structure Progress where
  out : List Byte
  pos : ℕ
  done : ℕ

/-- The leading fragment: the grid window that contains the first byte. -/
def leading (unit block total : ℕ) (p : Progress) : Program σ Error Request Progress :=
  let skew := p.pos % unit
  if skew ≠ 0 then do
    let window ← fetch dev block (p.pos - skew) unit
    let take := min (unit - skew) total
    pure ⟨copyInto p.out 0 ((window.drop skew).take take), p.pos + take, take⟩
  else pure p

/-- The aligned interior, straight into the destination. -/
def interior (unit block total : ℕ) (p : Progress) : Program σ Error Request Progress :=
  let whole := (total - p.done) / unit * unit
  if whole ≠ 0 then do
    let bytes ← fetch dev block p.pos whole
    pure ⟨copyInto p.out p.done bytes, p.pos + whole, p.done + whole⟩
  else pure p

/-- The trailing fragment: the grid window that contains the last byte. -/
def trailing (unit block total : ℕ) (p : Progress) : Program σ Error Request (List Byte) :=
  if p.done < total then do
    let window ← fetch dev block p.pos unit
    pure (copyInto p.out p.done (window.take (total - p.done)))
  else pure p.out

/-- `read_range` into a destination `out`, with a window of `windowLen` bytes, where a
`usize` has `bits` bits. -/
def readRange (bits : ℕ) (g : Geometry) (block off : ℕ) (out : List Byte) (windowLen : ℕ) :
    Program σ Error Request (List Byte) :=
  let unit := g.readSize
  if unit = 0 ∨ windowLen < unit then throw .geometryMismatch
  else if out = [] then pure out
  else
    let total := out.length
    let skew := off % unit
    if skew = 0 ∧ total % unit = 0 then fetch dev block off total
    else
      match (covering bits unit off total).filter (· ≤ windowLen) with
      | some covering => do
          let window ← fetch dev block (off - skew) covering
          pure ((window.drop skew).take total)
      | none => do
          let p ← leading dev unit block total ⟨out, off, 0⟩
          let p ← interior dev unit block total p
          trailing dev unit block total p

end Source

/-! ## Runs of grid windows -/

/-- Reads of a block that follow one another from `lo` to `hi` on the grid. -/
inductive Sweep (unit block : ℕ) : ℕ → ℕ → List Request → Prop where
  | nil (lo : ℕ) : Sweep unit block lo lo []
  | cons {lo len hi : ℕ} {reads : List Request} (hlo : unit ∣ lo) (hlen : unit ∣ len)
      (rest : Sweep unit block (lo + len) hi reads) :
      Sweep unit block lo hi (.read block lo len :: reads)

/-- The grid windows that a list of calls reads, as block and window number. -/
def windows (unit : ℕ) : List Request → List (ℕ × ℕ)
  | [] => []
  | .read block off len :: rest =>
      ((List.range' (off / unit) (len / unit)).map fun w => (block, w)) ++ windows unit rest
  | _ :: rest => windows unit rest

namespace Sweep

variable {unit block lo mid hi : ℕ} {xs ys : List Request}

theorem le (h : Sweep unit block lo hi xs) : lo ≤ hi := by
  induction h with
  | nil => exact Nat.le_refl _
  | cons _ _ _ ih => exact Nat.le_trans (Nat.le_add_right _ _) ih

theorem append (h : Sweep unit block lo mid xs) (h' : Sweep unit block mid hi ys) :
    Sweep unit block lo hi (xs ++ ys) := by
  induction h with
  | nil => exact h'
  | cons hlo hlen _ ih => exact cons hlo hlen (ih h')

theorem single {len : ℕ} (hlo : unit ∣ lo) (hlen : unit ∣ len) :
    Sweep unit block lo (lo + len) [.read block lo len] :=
  cons hlo hlen (nil _)

/-- Every call of the run is a read on the grid that stays between its ends. -/
theorem onGrid (h : Sweep unit block lo hi xs) :
    ∀ r ∈ xs, ∃ off len, r = .read block off len ∧ unit ∣ off ∧ unit ∣ len ∧ lo ≤ off ∧
      off + len ≤ hi := by
  induction h with
  | nil => intro r hr; cases hr
  | @cons lo len hi reads hlo hlen rest ih =>
      intro r hr
      rcases List.mem_cons.1 hr with rfl | hr
      · exact ⟨lo, len, rfl, hlo, hlen, Nat.le_refl _, rest.le⟩
      · obtain ⟨off, len', rfl, hoff, hlen', hle, hend⟩ := ih r hr
        exact ⟨off, len', rfl, hoff, hlen', Nat.le_trans (Nat.le_add_right _ _) hle, hend⟩

/-- The windows of the run, each once and in order. -/
theorem windows_eq (hunit : 0 < unit) (h : Sweep unit block lo hi xs) :
    windows unit xs = (List.range' (lo / unit) ((hi - lo) / unit)).map fun w => (block, w) := by
  induction h with
  | nil lo => simp [windows]
  | @cons lo len hi reads hlo hlen rest ih =>
      obtain ⟨a, rfl⟩ := hlo
      obtain ⟨n, rfl⟩ := hlen
      have hle := rest.le
      have hstart : (unit * a + unit * n) / unit = a + n := by
        rw [← Nat.mul_add, Nat.mul_div_cancel_left _ hunit]
      have hcount : (hi - unit * a) / unit = n + (hi - (unit * a + unit * n)) / unit := by
        rw [show hi - unit * a = unit * n + (hi - (unit * a + unit * n)) by omega,
          Nat.mul_add_div hunit]
      rw [windows, ih, hstart, Nat.mul_div_cancel_left _ hunit, Nat.mul_div_cancel_left _ hunit,
        hcount, ← List.map_append, List.range'_append_1]

theorem windows_nodup (hunit : 0 < unit) (h : Sweep unit block lo hi xs) :
    (windows unit xs).Nodup := by
  rw [h.windows_eq hunit]
  exact List.Nodup.map (fun _ _ h => (Prod.mk.inj h).2) List.nodup_range'

end Sweep

/-! ## What a run of `read_range` reads -/

/-- A read that returns does so with the bytes of the cells, and no read changes them. -/
structure Storage.ReadsCells {σ ε : Type} (dev : Storage σ ε) (g : Geometry) (cells : σ → Cells) :
    Prop where
  bytes : ∀ s block off len bs, (Request.read block off len).Inside g →
    (dev.read block off len s).1 = .ok bs → bs = (cells s).bytes block off len
  kept : ∀ s block off len, (Request.read block off len).Inside g →
    cells (dev.read block off len s).2 = cells s

/-- No read inside the device reports an error. -/
def Storage.NeverFails {σ ε : Type} (dev : Storage σ ε) (g : Geometry) : Prop :=
  ∀ s block off len, (Request.read block off len).Inside g →
    ∃ bs, (dev.read block off len s).1 = .ok bs

section Sweeps

variable {σ ε α β : Type} (dev : Storage σ ε) (g : Geometry) (cells : σ → Cells) (block : ℕ)
  (c : Cells)

/-- The run reads the grid windows from `lo` on, at most up to `hi`, in at most `n` reads,
and all of them with a result that meets the condition when it returns. -/
structure Fetched (lo hi n : ℕ) (Q : α → Prop) (r : Run σ Error Request α) : Prop where
  cells : cells r.state = c
  count : r.events.length ≤ n
  swept : ∃ mid, mid ≤ hi ∧ Sweep g.readSize block lo mid r.events ∧
    ∀ a, r.result = .ok a → mid = hi ∧ Q a
  returns : dev.NeverFails g → ∃ a, r.result = .ok a

/-- Every run over these cells does. -/
def Sweeps (lo hi n : ℕ) (m : Program σ Error Request α) (Q : α → Prop) : Prop :=
  ∀ s, cells s = c → Fetched dev g cells block c lo hi n Q (m s)

variable {dev g cells block c} {lo mid hi n k : ℕ} {m : Program σ Error Request α}
  {f : α → Program σ Error Request β} {Q Q' : α → Prop} {R : β → Prop}

theorem Sweeps.pure {a : α} (h : Q a) :
    Sweeps dev g cells block c lo lo 0 (Pure.pure a : Program σ Error Request α) Q := by
  intro s hs
  refine ⟨hs, Nat.le_refl _, ⟨lo, Nat.le_refl _, .nil _, fun b hb => ⟨rfl, ?_⟩⟩, fun _ => ⟨a, rfl⟩⟩
  cases hb
  exact h

theorem Sweeps.bind (hm : Sweeps dev g cells block c lo mid n m Q)
    (hf : ∀ a, Q a → Sweeps dev g cells block c mid hi k (f a) R) (hle : mid ≤ hi) :
    Sweeps dev g cells block c lo hi (n + k) (m >>= f) R := by
  intro s hs
  obtain ⟨hcells, hcount, ⟨stop, hstop, hsweep, hpost⟩, hreturns⟩ := hm s hs
  cases hr : (m s).result with
  | error e =>
      rw [Program.bind_of_error hr]
      refine ⟨hcells, Nat.le_trans hcount (Nat.le_add_right _ _), ⟨stop, Nat.le_trans hstop hle,
        hsweep, fun b hb => (by cases hb)⟩, fun hnever => ?_⟩
      obtain ⟨a, ha⟩ := hreturns hnever
      rw [hr] at ha
      cases ha
  | ok a =>
      obtain ⟨rfl, hQ⟩ := hpost a hr
      obtain ⟨hcells', hcount', ⟨stop', hstop', hsweep', hpost'⟩, hreturns'⟩ :=
        hf a hQ (m s).state hcells
      rw [Program.bind_of_ok hr]
      refine ⟨hcells', ?_, ⟨stop', hstop', hsweep.append hsweep', hpost'⟩, hreturns'⟩
      rw [List.length_append]
      exact Nat.add_le_add hcount hcount'

theorem Sweeps.weaken (h : Sweeps dev g cells block c lo hi n m Q) (hQ : ∀ a, Q a → Q' a)
    (hle : n ≤ k) : Sweeps dev g cells block c lo hi k m Q' := by
  intro s hs
  obtain ⟨hcells, hcount, ⟨stop, hstop, hsweep, hpost⟩, hreturns⟩ := h s hs
  exact ⟨hcells, Nat.le_trans hcount hle, ⟨stop, hstop, hsweep,
    fun a ha => ⟨(hpost a ha).1, hQ a (hpost a ha).2⟩⟩, hreturns⟩

/-- One read of whole grid windows. -/
theorem sweeps_fetch (hdev : dev.ReadsCells g cells) (hword : g.blockSize < 2 ^ 32)
    (hblock : block < g.blockCount) {len : ℕ}
    (hlo : g.readSize ∣ lo) (hlen : g.readSize ∣ len) (hin : lo + len ≤ g.blockSize) :
    Sweeps dev g cells block c lo (lo + len) 1 (fetch dev block lo len)
      fun bs => bs = c.bytes block lo len := by
  intro s hs
  have hinside : (Request.read block lo len).Inside g := ⟨hblock, hin⟩
  have hcast : lo % 2 ^ 32 = lo := Nat.mod_eq_of_lt (by omega)
  rw [fetch, hcast]
  refine ⟨(hdev.kept s block lo len hinside).trans hs, Nat.le_refl _,
    ⟨lo + len, Nat.le_refl _, .single hlo hlen, fun bs hbs => ⟨rfl, ?_⟩⟩, fun hnever => ?_⟩
  · change ((dev.read block lo len s).1.mapError fun _ => Error.io) = .ok bs at hbs
    cases hread : (dev.read block lo len s).1 with
    | error e => rw [hread] at hbs; cases hbs
    | ok bs' =>
        rw [hread] at hbs
        cases hbs
        rw [← hs]
        exact hdev.bytes s block lo len bs hinside hread
  · obtain ⟨bs, hread⟩ := hnever s block lo len hinside
    refine ⟨bs, ?_⟩
    change ((dev.read block lo len s).1.mapError fun _ => Error.io) = _
    rw [hread]
    rfl

end Sweeps

/-! ## The fragments -/

theorem length_copyInto {out : List Byte} {pos : ℕ} {bytes : List Byte}
    (h : pos + bytes.length ≤ out.length) : (copyInto out pos bytes).length = out.length := by
  simp only [copyInto, List.length_append, List.length_take, List.length_drop]
  omega

theorem take_copyInto {out : List Byte} {pos : ℕ} {bytes : List Byte} (h : pos ≤ out.length) :
    (copyInto out pos bytes).take (pos + bytes.length) = out.take pos ++ bytes := by
  have hlen : (out.take pos ++ bytes).length = pos + bytes.length := by
    rw [List.length_append, List.length_take, Nat.min_eq_left h]
  rw [copyInto, ← hlen]
  exact List.take_left

/-- Consecutive ranges make up one. -/
theorem Cells.bytes_add (c : Cells) (block off m n : ℕ) :
    c.bytes block off (m + n) = c.bytes block off m ++ c.bytes block (off + m) n := by
  simp only [Cells.bytes, List.range_add, List.map_append, List.map_map]
  congr 1
  refine List.map_congr_left fun i _ => ?_
  simp [Nat.add_assoc]

/-- A part of a range. -/
theorem Cells.bytes_slice (c : Cells) (block off m n k : ℕ) :
    ((c.bytes block off (m + n + k)).drop m).take n = c.bytes block (off + m) n := by
  rw [Nat.add_assoc, Cells.bytes_add, Cells.bytes_add, List.drop_left' (Cells.length_bytes _ _ _ _),
    List.take_left' (Cells.length_bytes _ _ _ _)]

/-- The destination holds the bytes of the range up to `done`. -/
structure Filled (c : Cells) (block off total : ℕ) (p : Progress) : Prop where
  pos : p.pos = off + p.done
  le : p.done ≤ total
  length : p.out.length = total
  bytes : p.out.take p.done = c.bytes block off p.done

theorem Filled.copy {c : Cells} {block off total len : ℕ} {p : Progress} {bytes : List Byte}
    (h : Filled c block off total p) (hbytes : bytes = c.bytes block (off + p.done) len)
    (hle : p.done + len ≤ total) :
    Filled c block off total ⟨copyInto p.out p.done bytes, p.pos + len, p.done + len⟩ := by
  have hlen : bytes.length = len := by rw [hbytes, Cells.length_bytes]
  refine ⟨by simp only [h.pos, Nat.add_assoc], hle, ?_, ?_⟩
  · rw [length_copyInto (by rw [hlen, h.length]; exact hle), h.length]
  · simp only
    rw [← hlen, take_copyInto (by rw [h.length]; exact h.le), h.bytes, hbytes, Cells.length_bytes,
      Cells.bytes_add]

theorem Filled.full {c : Cells} {block off total : ℕ} {p : Progress}
    (h : Filled c block off total p) (hdone : p.done = total) :
      p.out = c.bytes block off total := by
  have hbytes := h.bytes
  rw [hdone] at hbytes
  rw [← hbytes, ← h.length, List.take_length]

section Fragments

variable {σ ε : Type} {dev : Storage σ ε} {g : Geometry} {cells : σ → Cells} {block : ℕ} {c : Cells}
  {off total : ℕ} {p : Progress}

/-- The first grid boundary at or behind the first byte. -/
def alignedUp (unit off : ℕ) : ℕ := if off % unit = 0 then off else off - off % unit + unit

theorem sweeps_leading (hdev : dev.ReadsCells g cells) (hword : g.blockSize < 2 ^ 32)
    (hblock : block < g.blockCount)
    (hunit : 0 < g.readSize) (hin : off - off % g.readSize + g.readSize ≤ g.blockSize)
    (hlong : off - off % g.readSize + g.readSize ≤ off + total)
    (hp : Filled c block off total p) (hdone : p.done = 0) :
    Sweeps dev g cells block c (off - off % g.readSize) (alignedUp g.readSize off) 1
      (leading dev g.readSize block total p)
      fun q => Filled c block off total q ∧ q.pos = alignedUp g.readSize off := by
  have hpos : p.pos = off := by rw [hp.pos, hdone, Nat.add_zero]
  have hmod : off % g.readSize < g.readSize := Nat.mod_lt _ hunit
  have hle : off % g.readSize ≤ off := Nat.mod_le _ _
  rw [leading, hpos, alignedUp]
  by_cases hskew : off % g.readSize = 0
  · rw [if_neg (not_not.2 hskew), if_pos hskew, hskew]
    exact (Sweeps.pure ⟨hp, hpos⟩).weaken (fun _ => id) (Nat.zero_le _)
  rw [if_pos hskew, if_neg hskew]
  have htake : min (g.readSize - off % g.readSize) total = g.readSize - off % g.readSize :=
    Nat.min_eq_left (by omega)
  rw [htake]
  refine (sweeps_fetch hdev hword hblock (Nat.dvd_sub_mod off) (Nat.dvd_refl _) hin).bind
    (fun window hwindow => Sweeps.pure ?_) (Nat.le_refl _)
  have hslice : (window.drop (off % g.readSize)).take (g.readSize - off % g.readSize) =
      c.bytes block (off + p.done) (g.readSize - off % g.readSize) := by
    have hpart := Cells.bytes_slice c block (off - off % g.readSize) (off % g.readSize)
      (g.readSize - off % g.readSize) 0
    rw [Nat.add_zero, Nat.add_sub_cancel' (Nat.le_of_lt hmod), Nat.sub_add_cancel hle] at hpart
    rw [hwindow, hdone, hpart, Nat.add_zero]
  have hcopy := hp.copy hslice (by omega)
  rw [hdone, hpos, Nat.zero_add] at hcopy
  exact ⟨hcopy, by simp only; omega⟩

/-- The last grid boundary at or before the end, from a boundary before it. -/
theorem alignedDown_eq {unit pos stop : ℕ} (hunit : 0 < unit) (hpos : unit ∣ pos)
    (hle : pos ≤ stop) :
    pos + (stop - pos) / unit * unit = stop / unit * unit := by
  obtain ⟨a, rfl⟩ := hpos
  have hsplit : stop / unit = a + (stop - unit * a) / unit := by
    conv_lhs => rw [show stop = unit * a + (stop - unit * a) by omega, Nat.mul_add_div hunit]
  rw [hsplit, Nat.add_mul, Nat.mul_comm unit a]

theorem sweeps_interior (hdev : dev.ReadsCells g cells) (hword : g.blockSize < 2 ^ 32)
    (hblock : block < g.blockCount)
    (hunit : 0 < g.readSize) (hin : off + total ≤ g.blockSize) (hp : Filled c block off total p)
    (hpos : g.readSize ∣ p.pos) :
    Sweeps dev g cells block c p.pos ((off + total) / g.readSize * g.readSize) 1
      (interior dev g.readSize block total p)
      fun q => Filled c block off total q ∧ q.pos = (off + total) / g.readSize * g.readSize := by
  have hle := hp.le
  have hstart := hp.pos
  have hdown := alignedDown_eq hunit hpos (show p.pos ≤ off + total by omega)
  rw [show off + total - p.pos = total - p.done by omega] at hdown
  have hwhole : (total - p.done) / g.readSize * g.readSize ≤ total - p.done :=
    Nat.div_mul_le_self _ _
  rw [interior, ← hdown]
  split_ifs with hsome
  · refine (sweeps_fetch hdev hword hblock hpos (Nat.dvd_mul_left _ _) (by omega)).bind
      (fun bytes hbytes => Sweeps.pure ⟨?_, rfl⟩) (Nat.le_refl _)
    exact hp.copy (hstart ▸ hbytes) (by omega)
  · rw [not_not.1 hsome, Nat.add_zero]
    exact (Sweeps.pure ⟨hp, rfl⟩).weaken (fun _ => id) (Nat.zero_le _)

theorem alignedUp_dvd (unit n : ℕ) : unit ∣ alignedUp unit n := by
  rw [alignedUp]
  split_ifs with h
  · exact Nat.dvd_of_mod_eq_zero h
  · exact (Nat.dvd_add_self_right).2 (Nat.dvd_sub_mod n)

theorem le_alignedUp {unit : ℕ} (hunit : 0 < unit) (n : ℕ) : n ≤ alignedUp unit n := by
  have hmod := Nat.mod_lt n hunit
  rw [alignedUp]
  split_ifs <;> omega

theorem alignedUp_lt {unit : ℕ} (hunit : 0 < unit) (n : ℕ) : alignedUp unit n < n + unit := by
  have hle := Nat.mod_le n unit
  rw [alignedUp]
  split_ifs <;> omega

/-- No other boundary is as low and not below the number. -/
theorem alignedUp_le {unit n top : ℕ} (hunit : 0 < unit) (htop : unit ∣ top) (hle : n ≤ top) :
    alignedUp unit n ≤ top := by
  obtain ⟨a, ha⟩ := alignedUp_dvd unit n
  obtain ⟨b, rfl⟩ := htop
  have hlt := alignedUp_lt hunit n
  rw [ha] at hlt ⊢
  refine Nat.mul_le_mul_left _ (Nat.le_of_lt_succ ?_)
  refine Nat.lt_of_mul_lt_mul_left (a := unit) ?_
  rw [Nat.mul_succ]
  omega

theorem sweeps_trailing (hdev : dev.ReadsCells g cells) (hword : g.blockSize < 2 ^ 32)
    (hblock : block < g.blockCount)
    (hunit : 0 < g.readSize) (hin : alignedUp g.readSize (off + total) ≤ g.blockSize)
    (hp : Filled c block off total p)
    (hpos : p.pos = (off + total) / g.readSize * g.readSize) :
    Sweeps dev g cells block c p.pos (alignedUp g.readSize (off + total)) 1
      (trailing dev g.readSize block total p) fun out => out = c.bytes block off total := by
  have hle := hp.le
  have hstart := hp.pos
  have hstop : (off + total) % g.readSize + p.pos = off + total := by
    rw [hpos, Nat.mul_comm, Nat.mod_add_div]
  rw [trailing]
  split_ifs with hsome
  · have htop : alignedUp g.readSize (off + total) = p.pos + g.readSize := by
      rw [alignedUp, if_neg (by omega)]
      omega
    rw [htop] at hin ⊢
    refine (sweeps_fetch hdev hword hblock (hpos ▸ Nat.dvd_mul_left _ _) (Nat.dvd_refl _) hin).bind
      (fun window hwindow => Sweeps.pure ?_) (Nat.le_refl _)
    have hslice : window.take (total - p.done) = c.bytes block (off + p.done) (total - p.done) := by
      have hpart := Cells.bytes_slice c block (off + p.done) 0 (total - p.done)
        (g.readSize - (total - p.done))
      have hmod : (off + total) % g.readSize < g.readSize :=
        Nat.mod_lt _ hunit
      rw [Nat.zero_add, Nat.add_sub_cancel' (by omega), List.drop_zero, Nat.add_zero,
        ← hstart] at hpart
      rw [hwindow, hpart, hstart]
    exact (hp.copy hslice (by omega)).full (Nat.add_sub_cancel' hle)
  · have htop : alignedUp g.readSize (off + total) = p.pos := by
      rw [alignedUp, if_pos (by omega)]
      omega
    rw [htop]
    exact Sweeps.weaken (Q := fun out => out = c.bytes block off total)
      (Sweeps.pure (hp.full (by omega))) (fun _ => id) (Nat.zero_le _)

/-! ## The three regimes -/

/-- The rounding of the source, where the sum is a word. -/
theorem covering_eq {bits unit pos total : ℕ} (hunit : 0 < unit)
    (h : alignedUp unit (pos + total) < 2 ^ bits) :
    covering bits unit pos total =
      some (alignedUp unit (pos + total) - (pos - pos % unit)) := by
  have hle := le_alignedUp hunit (pos + total)
  have hmod := Nat.mod_lt (pos + total) hunit
  have hmodle := Nat.mod_le (pos + total) unit
  have hround : nextMultipleOf bits (pos + total) unit = some (alignedUp unit (pos + total)) := by
    rw [nextMultipleOf, if_neg (Nat.ne_of_gt hunit)]
    rw [alignedUp] at h ⊢
    split_ifs with hskew
    · rfl
    · rw [if_neg hskew] at h
      rw [Checked.add_of_lt (by omega)]
      congr 1
      omega
  rw [covering, Checked.add_of_lt (by omega)]
  simp only [Option.bind_eq_bind, Option.bind_some, hround]
  rfl

theorem sweeps_fragments (hdev : dev.ReadsCells g cells) (hword : g.blockSize < 2 ^ 32)
    (hblock : block < g.blockCount)
    (hunit : 0 < g.readSize) (hin : alignedUp g.readSize (off + total) ≤ g.blockSize)
    (hlong : g.readSize < alignedUp g.readSize (off + total) - (off - off % g.readSize))
    {out : List Byte} (hout : out.length = total) :
    Sweeps dev g cells block c (off - off % g.readSize) (alignedUp g.readSize (off + total)) 3
      (do
        let p ← leading dev g.readSize block total ⟨out, off, 0⟩
        let p ← interior dev g.readSize block total p
        trailing dev g.readSize block total p)
      fun out => out = c.bytes block off total := by
  have hstop := le_alignedUp hunit (off + total)
  have hboundary : g.readSize ∣ off - off % g.readSize := Nat.dvd_sub_mod off
  have hwide : off - off % g.readSize + g.readSize ≤ off + total := by
    by_contra hlt
    have hmin := alignedUp_le hunit ((Nat.dvd_add_self_right).2 hboundary)
      (Nat.le_of_lt (Nat.lt_of_not_le hlt))
    omega
  have hfilled : Filled c block off total ⟨out, off, 0⟩ := ⟨rfl, Nat.zero_le _, hout, rfl⟩
  have hup : alignedUp g.readSize off ≤ off + total := by
    rw [alignedUp]
    split_ifs <;> omega
  have hupdown : alignedUp g.readSize off ≤ (off + total) / g.readSize * g.readSize := by
    have hdown := alignedDown_eq hunit (alignedUp_dvd g.readSize off) hup
    omega
  have hdowntop : (off + total) / g.readSize * g.readSize ≤ alignedUp g.readSize (off + total) :=
    Nat.le_trans (Nat.div_mul_le_self _ _) hstop
  refine (sweeps_leading hdev hword hblock hunit (by omega) hwide hfilled rfl).bind
    (k := 2) (fun p hp => ?_) (Nat.le_trans hupdown hdowntop)
  obtain ⟨hp, hpos⟩ := hp
  rw [← hpos]
  refine (sweeps_interior hdev hword hblock hunit (by omega) hp (hpos ▸ alignedUp_dvd _ _)).bind
    (k := 1) (fun q hq => ?_) hdowntop
  obtain ⟨hq, hpos⟩ := hq
  rw [← hpos]
  exact sweeps_trailing hdev hword hblock hunit hin hq hpos

/-- The reads a range takes at most. -/
def readBound (g : Geometry) (off total windowLen : ℕ) : ℕ :=
  if alignedUp g.readSize (off + total) - (off - off % g.readSize) ≤ windowLen then 1 else 3

theorem one_le_readBound (g : Geometry) (off total windowLen : ℕ) :
    1 ≤ readBound g off total windowLen := by
  rw [readBound]
  split_ifs <;> omega

theorem sweeps_readRange (hdev : dev.ReadsCells g cells) (hword : g.blockSize < 2 ^ 32)
    (hblock : block < g.blockCount)
    (hunit : 0 < g.readSize) (hgrid : g.readSize ∣ g.blockSize) {bits : ℕ}
    (hbits : g.blockSize < 2 ^ bits) {out : List Byte} (hout : out ≠ [])
    (hin : off + out.length ≤ g.blockSize) {windowLen : ℕ} (hwindow : g.readSize ≤ windowLen) :
    Sweeps dev g cells block c (off - off % g.readSize) (alignedUp g.readSize (off + out.length))
      (readBound g off out.length windowLen) (readRange dev bits g block off out windowLen)
      fun buf => buf = c.bytes block off out.length := by
  have htop : alignedUp g.readSize (off + out.length) ≤ g.blockSize := alignedUp_le hunit hgrid hin
  have hstop := le_alignedUp hunit (off + out.length)
  have hmod : off % g.readSize ≤ off := Nat.mod_le _ _
  have hboundary : g.readSize ∣ off - off % g.readSize := Nat.dvd_sub_mod off
  simp only [readRange]
  rw [if_neg (by omega), if_neg hout]
  by_cases haligned : off % g.readSize = 0 ∧ out.length % g.readSize = 0
  · rw [if_pos haligned, haligned.1, Nat.sub_zero]
    have hdvd : g.readSize ∣ off := Nat.dvd_of_mod_eq_zero haligned.1
    have hdvd' : g.readSize ∣ out.length := Nat.dvd_of_mod_eq_zero haligned.2
    have hend : alignedUp g.readSize (off + out.length) = off + out.length :=
      if_pos (Nat.mod_eq_zero_of_dvd (Nat.dvd_add hdvd hdvd'))
    rw [hend]
    exact (sweeps_fetch hdev hword hblock hdvd hdvd' hin).weaken (fun _ => id)
      (one_le_readBound _ _ _ _)
  rw [if_neg haligned, covering_eq hunit (Nat.lt_of_le_of_lt htop hbits), readBound]
  by_cases hshort : alignedUp g.readSize (off + out.length) - (off - off % g.readSize) ≤ windowLen
  · rw [Option.filter_some, if_pos (decide_eq_true hshort), if_pos hshort]
    have hrun : off - off % g.readSize +
        (alignedUp g.readSize (off + out.length) - (off - off % g.readSize)) =
          alignedUp g.readSize (off + out.length) := Nat.add_sub_cancel' (by omega)
    have hfetch := sweeps_fetch (c := c) hdev hword hblock hboundary
      (Nat.dvd_sub (alignedUp_dvd _ _) hboundary) (by rw [hrun]; exact htop)
    rw [hrun] at hfetch
    refine hfetch.bind (k := 0) (fun window hbytes => ?_) (Nat.le_refl _)
    refine Sweeps.pure ?_
    have hpart := Cells.bytes_slice c block (off - off % g.readSize) (off % g.readSize) out.length
      (alignedUp g.readSize (off + out.length) - (off + out.length))
    rw [show off % g.readSize + out.length +
      (alignedUp g.readSize (off + out.length) - (off + out.length)) =
        alignedUp g.readSize (off + out.length) - (off - off % g.readSize) by omega,
      Nat.sub_add_cancel hmod] at hpart
    rw [hbytes, hpart]
  · rw [Option.filter_some, if_neg hshort, if_neg (by simpa using hshort)]
    exact sweeps_fragments hdev hword hblock hunit htop (by omega) rfl

end Fragments

/-! ## The window is correct -/

/-- What a run of `read_range` over the bytes `[off, off + total)` of a block does. -/
structure ReadsRange {σ ε : Type} (dev : Storage σ ε) (g : Geometry) (cells : σ → Cells)
    (block off total windowLen : ℕ) (s : σ) (r : Run σ Error Request (List Byte)) : Prop where
  kept : cells r.state = cells s
  bytes : ∀ out, r.result = .ok out → out = (cells s).bytes block off total
  returns : dev.NeverFails g → ∃ out, r.result = .ok out
  onGrid : ∀ e ∈ r.events, ∃ o len, e = .read block o len ∧ g.readSize ∣ o ∧ g.readSize ∣ len ∧
    o + len ≤ g.blockSize
  once : (windows g.readSize r.events).Nodup
  requested : ∀ w ∈ windows g.readSize r.events, ∃ o, off ≤ o ∧ o < off + total ∧
    w = (block, o / g.readSize)
  three : r.events.length ≤ 3
  one : alignedUp g.readSize (off + total) - (off - off % g.readSize) ≤ windowLen →
    r.events.length ≤ 1

/-- A window of the run holds a byte of the range. -/
theorem requested_of_window {unit off total mid w : ℕ} (hunit : 0 < unit) (htotal : 0 < total)
    (hmid : mid ≤ alignedUp unit (off + total))
    (hw : w ∈ List.range' ((off - off % unit) / unit) ((mid - (off - off % unit)) / unit)) :
    ∃ o, off ≤ o ∧ o < off + total ∧ w = o / unit := by
  have htop := alignedUp_lt hunit (off + total)
  have hfirst : off - off % unit = unit * (off / unit) := by
    have hsplit := Nat.div_add_mod off unit
    omega
  rw [hfirst, Nat.mul_div_cancel_left _ hunit, List.mem_range'_1] at hw
  obtain ⟨hlow, hhigh⟩ := hw
  have hcount : (w + 1 - off / unit) * unit ≤ mid - unit * (off / unit) :=
    (Nat.le_div_iff_mul_le hunit).1 (by omega)
  rw [Nat.sub_mul, Nat.succ_mul, Nat.mul_comm _ unit, Nat.mul_comm _ unit] at hcount
  have hmul : unit * (off / unit) ≤ unit * w := Nat.mul_le_mul_left _ hlow
  by_cases hoff : off ≤ unit * w
  · exact ⟨unit * w, hoff, by omega, (Nat.mul_div_cancel_left _ hunit).symm⟩
  · refine ⟨off, Nat.le_refl _, by omega, Nat.le_antisymm ?_ hlow⟩
    rw [Nat.le_div_iff_mul_le hunit, Nat.mul_comm]
    omega

theorem readRange_window {σ ε : Type} {dev : Storage σ ε} {g : Geometry} {cells : σ → Cells}
    (hdev : dev.ReadsCells g cells) (hunit : 1 ≤ g.readSize) (hgrid : g.readSize ∣ g.blockSize)
    (hword : g.blockSize < 2 ^ 32) {bits : ℕ} (hbits : g.blockSize < 2 ^ bits) {block off : ℕ}
    {out : List Byte} (hblock : block < g.blockCount) (hin : off + out.length ≤ g.blockSize)
      {windowLen : ℕ}
    (hwindow : g.readSize ≤ windowLen) (s : σ) :
    ReadsRange dev g cells block off out.length windowLen s
      (readRange dev bits g block off out windowLen s) := by
  by_cases hout : out = []
  · have hrun : readRange dev bits g block off out windowLen s = ⟨.ok out, s, []⟩ := by
      simp only [readRange]
      rw [if_neg (by omega), if_pos hout]
      rfl
    rw [hrun, hout]
    refine ⟨rfl, fun buf hbuf => ?_, fun _ => ⟨[], rfl⟩, fun e he => (by cases he), List.nodup_nil,
      fun w hw => (by cases hw), Nat.zero_le _, fun _ => Nat.zero_le _⟩
    cases hbuf
    rfl
  obtain ⟨hcells, hcount, ⟨mid, hmid, hsweep, hpost⟩, hreturns⟩ :=
    sweeps_readRange (c := cells s) hdev hword hblock hunit hgrid hbits hout hin hwindow s rfl
  have htop : alignedUp g.readSize (off + out.length) ≤ g.blockSize := alignedUp_le hunit hgrid hin
  refine ⟨hcells, fun buf hbuf => (hpost buf hbuf).2, hreturns, fun e he => ?_,
    hsweep.windows_nodup hunit, fun w hw => ?_, ?_, fun hshort => ?_⟩
  · obtain ⟨o, len, rfl, ho, hlen, -, hend⟩ := hsweep.onGrid e he
    exact ⟨o, len, rfl, ho, hlen, by omega⟩
  · rw [hsweep.windows_eq hunit] at hw
    obtain ⟨n, hn, rfl⟩ := List.mem_map.1 hw
    obtain ⟨o, hlow, hhigh, rfl⟩ :=
      requested_of_window hunit (List.length_pos_iff.2 hout) hmid hn
    exact ⟨o, hlow, hhigh, rfl⟩
  · rw [readBound] at hcount
    split_ifs at hcount <;> omega
  · rwa [readBound, if_pos hshort] at hcount

theorem ram_readsCells (g : Geometry) : ram.ReadsCells g id where
  bytes c block off len bs _ h := by cases h; rfl
  kept _ _ _ _ _ := rfl

/-- Eight bytes from offset 2 on a grid of 3, through a window of one unit. -/
theorem readRange_window_ram :
    ReadsRange ram ⟨3, 3, 12, 1, 0⟩ id 0 2 8 3 (fun _ o => BitVec.ofNat 8 o)
        (readRange ram 32 ⟨3, 3, 12, 1, 0⟩ 0 2 (List.replicate 8 0) 3 fun _ o => BitVec.ofNat 8 o) ∧
      (readRange ram 32 ⟨3, 3, 12, 1, 0⟩ 0 2 (List.replicate 8 0) 3
        fun _ o => BitVec.ofNat 8 o).events = [.read 0 0 3, .read 0 3 6, .read 0 9 3] :=
  ⟨@readRange_window _ _ ram ⟨3, 3, 12, 1, 0⟩ id (ram_readsCells _) (by decide) (by decide)
    (by decide) 32
    (by decide) 0 2 (List.replicate 8 0) (by decide) (by decide) 3 (by decide) _, by decide⟩

end LittlefsPure.Nor
