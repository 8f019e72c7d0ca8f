import LittlefsPure.Fs.Operations
import LittlefsPure.Logic.Brent
import LittlefsPure.Logic.Except

/-!
# The cycle test of the chain walks

`BrentTailWalk` is Brent's test with a stride that saturates at the largest 32 bit word.
A walk that calls `advance` on each successor is never stopped on a chain that ends, and is
stopped on a chain that enters a cycle no longer than that stride.  A device holds fewer
pairs than that in any cycle, as the successor of a pair is read from one of its blocks; so
the chain walks of `fs.rs` end within their bound, `chainFuel`.

## Why the bound is never the reason

A walk in Lean needs a bound to be a function.  The bound here is a number of steps that Brent's
test cannot exceed: a chain that ends does so within as many steps as there are distinct pairs,
and one that does not is stopped by the test.  So whenever the bounded walk fails, it fails for a
reason of the source, and the bound is no behaviour of the model.
-/

namespace LittlefsPure

open Logic

namespace BrentTailWalk

/-- The stride at which `power` saturates: `u32::MAX`. -/
def maxPower : ℕ := 0xFFFFFFFF

/-- A walk that calls `advance` on each successor, after `n` steps; none once the chain has
ended. -/
def follow (next : BlockPair → Option BlockPair) (start : BlockPair) :
    ℕ → Except Error (Option (BlockPair × BrentTailWalk))
  | 0 => .ok (some (start, new start))
  | n + 1 => do
      match ← follow next start n with
      | none => pure none
      | some (current, walk) =>
          match next current with
          | none => pure none
          | some tail => do
              let walk ← walk.advance tail
              pure (some (tail, walk))

/-- The test of the library, as the source has it. -/
def ofBrent (w : Brent BlockPair) : BrentTailWalk := ⟨w.saved, w.power, w.steps⟩

/-- What a walk has come to, as the source reports it. -/
def report : Brent.Outcome BlockPair → Except Error (Option (BlockPair × BrentTailWalk))
  | .caught => .error .corrupt
  | .ended => .ok none
  | .going place w => .ok (some (place, ofBrent w))

section Follow

variable {next : BlockPair → Option BlockPair} {start : BlockPair}

theorem advance_ofBrent (w : Brent BlockPair) (p : BlockPair) :
    (ofBrent w).advance p = match w.advance maxPower p with
      | none => .error .corrupt
      | some w' => .ok (ofBrent w') := by
  unfold advance Brent.advance
  by_cases hsaved : p = w.saved
  · rw [if_pos hsaved, if_pos (show p = (ofBrent w).saved from hsaved)]
  · rw [if_neg hsaved, if_neg (show ¬ p = (ofBrent w).saved from hsaved)]
    by_cases hfull : w.steps + 1 = w.power
    · rw [if_pos hfull, if_pos (show (ofBrent w).steps + 1 = (ofBrent w).power from hfull)]
      rfl
    · rw [if_neg hfull, if_neg (show ¬ (ofBrent w).steps + 1 = (ofBrent w).power from hfull)]
      rfl

theorem follow_eq (n : ℕ) : follow next start n = report (Brent.after maxPower next start n) := by
  induction n with
  | zero => rfl
  | succ n ih =>
      rw [follow, ih, Brent.after_succ]
      cases Brent.after maxPower next start n with
      | caught => rfl
      | ended => rfl
      | going place w =>
          show (match next place with
            | none => _
            | some tail => _) = report (Brent.Outcome.step maxPower next (.going place w))
          rw [Brent.Outcome.step]
          cases next place with
          | none => rfl
          | some tail =>
              have hadvance := advance_ofBrent w tail
              cases hw : w.advance maxPower tail with
              | none =>
                  rw [hw] at hadvance
                  dsimp only
                  rw [hadvance, hw]
                  rfl
              | some w' =>
                  rw [hw] at hadvance
                  dsimp only
                  rw [hadvance, hw]
                  rfl

/-- The test never stops a chain that ends, and stops a chain that enters a cycle no longer
than the largest stride, within three steps for each pair of the way in and of the cycle. -/
theorem follow_decides (next : BlockPair → Option BlockPair) (start : BlockPair) :
    (∀ k, orbit next start k = none → ∀ n, follow next start n ≠ .error .corrupt ∧
      (k ≤ n → follow next start n = .ok none)) ∧
    ∀ μ lam, Repeats next start μ lam → lam ≤ maxPower → ∀ n, 3 * (μ + lam) ≤ n →
      follow next start n = .error .corrupt := by
  have hcap : 0 < maxPower := by decide
  refine ⟨fun k hend n => ⟨?_, fun hk => ?_⟩, fun μ lam hrep hlam n hn => ?_⟩
  · have hne := Brent.after_ne_caught_of_end hcap hend n
    rw [follow_eq]
    cases hafter : Brent.after maxPower next start n with
    | caught => exact absurd hafter hne
    | ended => exact fun h => by cases h
    | going place w => exact fun h => by cases h
  · rw [follow_eq, Brent.after_ended hcap (orbit_none_of_le hend hk)]
    rfl
  · rw [follow_eq, Brent.after_caught hrep hlam hn]
    rfl

/-- A self-loop behind one pair is found, and a chain of two pairs runs to its end. -/
theorem follow_decides_small :
    follow (fun _ => some ⟨4, 5⟩) ⟨2, 3⟩ 6 = .error .corrupt ∧
      follow (fun p => if p = ⟨2, 3⟩ then some ⟨4, 5⟩ else none) ⟨2, 3⟩ 2 = .ok none := by
  constructor
  · exact (follow_decides (fun _ => some ⟨4, 5⟩) ⟨2, 3⟩).2 1 1 ⟨by decide, rfl, by decide⟩
      (by decide) 6 (by decide)
  · exact ((follow_decides (fun p => if p = ⟨2, 3⟩ then some ⟨4, 5⟩ else none) ⟨2, 3⟩).1 2
      (by decide) 2).2 (Nat.le_refl 2)

end Follow

/-! ## A cycle longer than the stride -/

/-- Pairs that count through the 32 bit words. -/
def counting (p : BlockPair) : Option BlockPair := some ⟨(p.a + 1) % 2 ^ 32, p.b⟩

theorem orbit_counting (n : ℕ) : orbit counting ⟨0, 0⟩ n = some ⟨n % 2 ^ 32, 0⟩ := by
  induction n with
  | zero => rfl
  | succ n ih => rw [orbit, ih, Option.bind_some, counting, Nat.mod_add_mod]

/-- The stride stops doubling one short of this cycle, so its pairs are walked for ever. -/
theorem follow_misses_counting : ¬ ∃ c, ∀ next start μ lam, Repeats next start μ lam →
    ∃ n ≤ c * (μ + lam), follow next start n = .error .corrupt := by
  rintro ⟨c, h⟩
  have hrep : Repeats counting ⟨0, 0⟩ 0 (2 ^ 32) := by
    refine ⟨by decide, ?_, ?_⟩
    · rw [orbit_counting, orbit_counting]
      rfl
    · rw [orbit_counting]
      exact Option.some_ne_none _
  have hlong : ∀ μ lam, Repeats counting ⟨0, 0⟩ μ lam → maxPower < lam := by
    intro μ lam hrep
    have hagain := hrep.again
    have hpos := hrep.pos
    rw [orbit_counting, orbit_counting, Option.some.injEq, BlockPair.mk.injEq] at hagain
    rw [maxPower]
    omega
  obtain ⟨n, -, hn⟩ := h counting ⟨0, 0⟩ 0 (2 ^ 32) hrep
  rw [follow_eq] at hn
  have hne := Brent.after_ne_caught (by decide) hlong n
  cases hafter : Brent.after maxPower counting ⟨0, 0⟩ n with
  | caught => exact hne hafter
  | ended =>
      rw [hafter] at hn
      cases hn
  | going place w =>
      rw [hafter] at hn
      cases hn

end BrentTailWalk

/-! ## The chain walks -/

section ChainWalks

variable (g : Geometry) (d : Device)

/-- The successor of a pair on a directory's chain. -/
def hardSuccessor (p : BlockPair) : Option BlockPair :=
  match d.fetch g p with
  | .ok pair => pair.reader.hardNext
  | .error _ => none

variable {g d}

/-- The successor of a pair is read from a block of the device. -/
theorem hardSuccessor_eq_some {p q : BlockPair} (h : hardSuccessor g d p = some q) :
    ∃ b < g.blockCount, ((d.get b).reader g).hardNext = some q := by
  unfold hardSuccessor at h
  cases hfetch : d.fetch g p with
  | error e =>
      rw [hfetch] at h
      cases h
  | ok pair =>
      rw [hfetch] at h
      unfold Device.fetch at hfetch
      split_ifs at hfetch with hbounds
      obtain ⟨⟨a, b⟩, hreaders, hparse⟩ := bind_eq_ok.1 hfetch
      obtain ⟨blockA, ha, hreaders⟩ := bind_eq_ok.1 hreaders
      obtain ⟨blockB, hb, hreaders⟩ := bind_eq_ok.1 hreaders
      cases hreaders
      obtain ⟨hlta, hltb⟩ := Geometry.pairInBounds_iff.1 hbounds
      rcases MetadataPair.parse_eq_ok hparse with rfl | rfl
      · exact ⟨p.a, hlta, by rw [(Device.read_eq_ok.1 ha).2]; exact h⟩
      · exact ⟨p.b, hltb, by rw [(Device.read_eq_ok.1 hb).2]; exact h⟩

/-- A chain of a device ends or repeats itself before it has more pairs than blocks. -/
theorem hardChain_ends_or_repeats (start : BlockPair) :
    orbit (hardSuccessor g d) start (g.blockCount + 1) = none ∨
      ∃ μ lam, Repeats (hardSuccessor g d) start μ lam ∧ μ + lam ≤ g.blockCount + 1 ∧
        lam ≤ g.blockCount := by
  have hcard : ((List.range g.blockCount).filterMap
      fun b => ((d.get b).reader g).hardNext).toFinset.card ≤ g.blockCount := by
    refine (List.toFinset_card_le _).trans ((List.length_filterMap_le _ _).trans ?_)
    rw [List.length_range]
  refine ends_or_repeats hcard fun n q hq => ?_
  rw [orbit, Option.bind_eq_some_iff] at hq
  obtain ⟨p, -, hp⟩ := hq
  obtain ⟨b, hb, hnext⟩ := hardSuccessor_eq_some hp
  exact List.mem_toFinset.2 (List.mem_filterMap.2 ⟨b, List.mem_range.2 hb, hnext⟩)

open BrentTailWalk in
/-- The walk with the test is over within `chainFuel` steps. -/
theorem chainFuel_stops (hcount : g.blockCount ≤ maxPower) (start : BlockPair)
    (place : BlockPair) (w : Brent BlockPair) :
    Brent.after maxPower (hardSuccessor g d) start (chainFuel g) ≠ .going place w := by
  have hfuel : 3 * (g.blockCount + 1) ≤ chainFuel g := by
    have hsq := Nat.le_mul_self g.blockCount
    rw [chainFuel]
    omega
  intro hgoing
  rcases hardChain_ends_or_repeats (d := d) (g := g) start with hend | ⟨μ, lam, hrep, hsum, hlam⟩
  · rw [Brent.after_ended (by decide) (orbit_none_of_le hend (by omega))] at hgoing
    cases hgoing
  · rw [Brent.after_caught hrep (hlam.trans hcount) (by omega)] at hgoing
    cases hgoing

/-- A loop along a chain: it goes on only to the successor, when `advance` allows it. -/
def ChainLoop (g : Geometry) (d : Device) {α : Type} (loop : ℕ → BlockPair → BrentTailWalk → α) :
    Prop :=
  ∀ m n current walk, (∀ next walk', hardSuccessor g d current = some next →
    walk.advance next = .ok walk' → loop m next walk' = loop n next walk') →
      loop (m + 1) current walk = loop (n + 1) current walk

open BrentTailWalk in
theorem ChainLoop.stops {α : Type} {loop : ℕ → BlockPair → BrentTailWalk → α}
    (hloop : ChainLoop g d loop) {fuel : ℕ} {current : BlockPair} {w : Brent BlockPair}
    (hstop : ∀ place w', (Brent.Outcome.step maxPower (hardSuccessor g d))^[fuel]
      (.going current w) ≠ .going place w') {n : ℕ} (hn : fuel ≤ n) :
    loop n current (ofBrent w) = loop fuel current (ofBrent w) := by
  induction fuel generalizing current w n with
  | zero => exact absurd rfl (hstop current w)
  | succ fuel ih =>
      obtain ⟨n, rfl⟩ : ∃ m, n = m + 1 := ⟨n - 1, by omega⟩
      refine hloop n fuel current _ fun next walk' hnext hadvance => ?_
      rw [advance_ofBrent] at hadvance
      cases hw : w.advance maxPower next with
      | none =>
          rw [hw] at hadvance
          cases hadvance
      | some w' =>
          rw [hw] at hadvance
          cases hadvance
          refine ih (fun place w'' => ?_) (Nat.le_of_succ_le_succ hn)
          have hstep : (Brent.Outcome.going current w).step maxPower (hardSuccessor g d) =
              .going next w' := by
            rw [Brent.Outcome.step, hnext]
            dsimp only
            rw [hw]
          have h := hstop place w''
          rw [Function.iterate_succ_apply, hstep] at h
          exact h

/-- No walk along a chain runs out of its bound. -/
theorem ChainLoop.suffices {α : Type} {loop : ℕ → BlockPair → BrentTailWalk → α}
    (hloop : ChainLoop g d loop) (hcount : g.blockCount ≤ BrentTailWalk.maxPower)
    (start : BlockPair) {n : ℕ} (hn : chainFuel g ≤ n) :
    loop n start (.new start) = loop (chainFuel g) start (.new start) :=
  hloop.stops (w := ⟨start, 1, 0⟩) (fun place w => chainFuel_stops hcount start place w) hn

theorem bind_congr_ok {ε α β : Type} {x : Except ε α} {f f' : α → Except ε β}
    (h : ∀ a, x = .ok a → f a = f' a) : (x >>= f) = (x >>= f') := by
  cases hx : x with
  | error e => rfl
  | ok a => exact h a hx

/-- What a turn of a loop does with the walk: it goes on to the successor, or not at all. -/
theorem advance_bind_congr {α : Type} {pair : MetadataPair} {current : BlockPair}
    {walk : BrentTailWalk} {m n : ℕ} {loop : ℕ → BlockPair → BrentTailWalk → α}
    (hfetch : d.fetch g current = .ok pair)
    (h : ∀ next walk', hardSuccessor g d current = some next → walk.advance next = .ok walk' →
      loop m next walk' = loop n next walk')
    {next : BlockPair} (hnext : pair.reader.hardNext = some next) {β : Type}
    (k : α → Except Error β) :
    (walk.advance next >>= fun walk => k (loop m next walk)) =
      (walk.advance next >>= fun walk => k (loop n next walk)) := by
  have hsucc : hardSuccessor g d current = some next := by
    rw [hardSuccessor, hfetch]
    exact hnext
  refine bind_congr_ok fun walk' hadvance => ?_
  rw [h next walk' hsucc hadvance]

theorem chainLoop_listPairChain : ChainLoop g d (listPairChainFrom g d) := by
  intro m n current walk h
  rw [listPairChainFrom, listPairChainFrom]
  refine bind_congr_ok fun pair hfetch => bind_congr_ok fun entries _ => ?_
  cases hnext : pair.reader.hardNext with
  | none => rfl
  | some next => exact advance_bind_congr hfetch h hnext fun more => do
      let more ← more
      pure (entries.2 ++ more)

theorem chainLoop_seekEntry (name : Body) : ChainLoop g d (seekEntryFrom g d name) := by
  intro m n current walk h
  rw [seekEntryFrom, seekEntryFrom]
  refine bind_congr_ok fun pair hfetch => bind_congr_ok fun hit _ => bind_congr_ok fun slots _ => ?_
  cases hit with
  | some r => rfl
  | none =>
      cases hnext : pair.reader.hardNext with
      | none => rfl
      | some next => exact advance_bind_congr hfetch h hnext id

theorem chainLoop_findDirPair (name : Body) : ChainLoop g d (findDirPairFrom g d name) := by
  intro m n current walk h
  rw [findDirPairFrom, findDirPairFrom]
  refine bind_congr_ok fun pair hfetch => bind_congr_ok fun hit _ => ?_
  cases hit with
  | some r => rfl
  | none =>
      cases hnext : pair.reader.hardNext with
      | none => rfl
      | some next => exact advance_bind_congr hfetch h hnext id

theorem chainLoop_steal : ChainLoop g d (stealFrom g d) := by
  intro m n current walk h
  funext stolen
  rw [stealFrom, stealFrom]
  refine bind_congr_ok fun pair hfetch => ?_
  by_cases hhard : pair.reader.isHardTail = true
  · simp only [hhard, if_true]
    cases htail : pair.reader.tail with
    | none => rfl
    | some next =>
        have hnext : pair.reader.hardNext = some next := by
          rw [MetadataLog.hardNext, if_pos hhard, htail]
        exact advance_bind_congr hfetch h hnext fun loop => loop _
  · simp only [if_neg hhard]

/-- On a device of at most `u32::MAX` blocks no chain walk runs out of its bound: a greater
one changes nothing. -/
theorem chain_walks_end (hcount : g.blockCount ≤ BrentTailWalk.maxPower) (start : BlockPair)
    (name : Body) {n : ℕ} (hn : chainFuel g ≤ n) :
    listPairChainFrom g d n start (.new start) = listPairChain g d start ∧
      seekEntryFrom g d name n start (.new start) = seekEntryInChain g d start name ∧
      findDirPairFrom g d name n start (.new start) = findDirPair g d start name ∧
      ∀ stolen, stealFrom g d n start (.new start) stolen =
        stealFrom g d (chainFuel g) start (.new start) stolen :=
  ⟨chainLoop_listPairChain.suffices hcount start hn,
    (chainLoop_seekEntry name).suffices hcount start hn,
    (chainLoop_findDirPair name).suffices hcount start hn,
    congrFun (chainLoop_steal.suffices hcount start hn)⟩

end ChainWalks

end LittlefsPure
