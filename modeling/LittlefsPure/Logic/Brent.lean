import Mathlib.Tactic.Common
import Mathlib.Tactic.Linarith
import Mathlib.Logic.Function.Iterate
import Mathlib.Data.Fintype.Card

/-!
# Brent's cycle test

A walk along a successor function compares each place it comes to with one it has saved.
The saved place is replaced after a stride, and the stride doubles each time, up to a cap.

A place that comes again is on a cycle, so a walk that ends is never caught.  On a cycle no
longer than the cap the walk is caught: once a place of the cycle is saved with a stride as
long as the cycle, it comes again within the stride.  The strides before that one are
either saved short of the cycle or shorter than it, which bounds where it begins.

## Why the cap matters

With strides that double for ever the walk is caught on every cycle.  A stride that is kept in a
word saturates, and from then on the saved place is replaced at equal distances.  A cycle longer
than that distance is never closed between two replacements, so the walk goes round it without
end.  Both halves are here: `after_caught` for the cycles that fit, and the walk that is never
caught for those that do not, with the place it has come to at every moment.

The state of the walk is three numbers, the steps since the last replacement, the stride and
the saved place, so the invariant says where in the orbit the saved place lies and where the
walk stands.  Everything else is arithmetic on the orbit.
-/

namespace Logic

section Orbit

variable {α : Type*} (next : α → Option α) (start : α)

/-- The place after a number of steps; none behind the end. -/
def orbit : ℕ → Option α
  | 0 => some start
  | n + 1 => (orbit n).bind next

variable {next start} {i j k m n μ lam : ℕ}

theorem orbit_none_of_le (h : orbit next start k = none) (hle : k ≤ n) :
    orbit next start n = none := by
  induction hle with
  | refl => exact h
  | step _ ih => rw [orbit, ih, Option.bind_none]

/-- From a place that has come again the walk repeats itself. -/
theorem orbit_add (h : orbit next start i = orbit next start j) (n : ℕ) :
    orbit next start (i + n) = orbit next start (j + n) := by
  induction n with
  | zero => exact h
  | succ n ih => rw [← Nat.add_assoc, ← Nat.add_assoc, orbit, orbit, ih]

variable (next start) in
/-- The walk enters a cycle: the place after `μ` steps comes again `lam` steps later. -/
structure Repeats (μ lam : ℕ) : Prop where
  pos : 0 < lam
  again : orbit next start (μ + lam) = orbit next start μ
  place : orbit next start μ ≠ none

theorem Repeats.later (h : Repeats next start μ lam) (hle : μ ≤ n) :
    orbit next start (n + lam) = orbit next start n := by
  have hadd := orbit_add h.again (n - μ)
  rw [Nat.add_right_comm, Nat.add_sub_cancel' hle] at hadd
  exact hadd

/-- A walk that repeats itself does not end. -/
theorem Repeats.endless (h : Repeats next start μ lam) (n : ℕ) : orbit next start n ≠ none := by
  have hround : ∀ m, orbit next start (μ + m * lam) = orbit next start μ := by
    intro m
    induction m with
    | zero => rw [Nat.zero_mul, Nat.add_zero]
    | succ m ih => rw [Nat.succ_mul, ← Nat.add_assoc, h.later (Nat.le_add_right μ _), ih]
  intro hnone
  have hfar : n ≤ μ + n * lam :=
    (Nat.le_mul_of_pos_right n h.pos).trans (Nat.le_add_left _ μ)
  exact h.place (hround n ▸ orbit_none_of_le hnone hfar)

/-- A walk over few places ends or repeats itself. -/
theorem ends_or_repeats {c : ℕ} {places : Finset α} (hcard : places.card ≤ c)
    (hplaces : ∀ n a, orbit next start (n + 1) = some a → a ∈ places) :
    orbit next start (c + 1) = none ∨
      ∃ μ lam, Repeats next start μ lam ∧ μ + lam ≤ c + 1 ∧ lam ≤ c := by
  by_cases hend : orbit next start (c + 1) = none
  · exact .inl hend
  refine .inr ?_
  have hgoes : ∀ n ≤ c, ∃ a, orbit next start (n + 1) = some a := by
    intro n hn
    refine Option.ne_none_iff_exists'.1 fun hnone => hend ?_
    exact orbit_none_of_le hnone (Nat.succ_le_succ hn)
  have : Nonempty α := ⟨start⟩
  choose! place hplace using hgoes
  have hmaps : ∀ n ∈ Finset.range (c + 1), place n ∈ places := fun n hn =>
    hplaces n _ (hplace n (Nat.lt_succ_iff.1 (Finset.mem_range.1 hn)))
  obtain ⟨i, hi, j, hj, hne, hsame⟩ := Finset.exists_ne_map_eq_of_card_lt_of_maps_to
    (by rw [Finset.card_range]; exact Nat.lt_succ_of_le hcard) hmaps
  have hi' := Nat.lt_succ_iff.1 (Finset.mem_range.1 hi)
  have hj' := Nat.lt_succ_iff.1 (Finset.mem_range.1 hj)
  -- the earlier of the two indices is where the cycle is met
  have hmeet : ∀ i j, i ≤ c → j ≤ c → i < j → place i = place j →
      ∃ μ lam, Repeats next start μ lam ∧ μ + lam ≤ c + 1 ∧ lam ≤ c := by
    intro i j hi hj hlt hsame
    refine ⟨i + 1, j - i, ⟨by omega, ?_, ?_⟩, by omega, by omega⟩
    · rw [show i + 1 + (j - i) = j + 1 by omega, hplace i hi, hplace j hj, hsame]
    · rw [hplace i hi]
      exact Option.some_ne_none _
  rcases Nat.lt_or_gt_of_ne hne with hlt | hlt
  · exact hmeet i j hi' hj' hlt hsame
  · exact hmeet j i hj' hi' hlt hsame.symm

end Orbit

/-! ## The test -/

/-- The saved place, the stride, and the steps since the place was saved. -/
structure Brent (α : Type*) where
  saved : α
  power : ℕ
  steps : ℕ

namespace Brent

variable {α : Type*}

section Strides

variable (cap : ℕ) (next : α → Option α) (start : α)

/-- The walk goes on after `n` steps, from which `saved` is the `p`-th place. -/
structure At (n p : ℕ) (place : α) (w : Brent α) : Prop where
  place : orbit next start n = some place
  saved : orbit next start p = some w.saved
  since : p + w.steps = n
  within : w.steps < w.power
  capped : w.power ≤ cap
  /-- The strides double, so a place is saved no later than twice the last. -/
  stride : w.power ≤ p + 1
  full : w.power = p + 1 ∨ w.power = cap
  /-- The saved place has not come again. -/
  apart : ∀ i, 0 < i → i ≤ w.steps → orbit next start (p + i) ≠ some w.saved
  early : ∀ μ lam, Repeats next start μ lam → lam ≤ cap → p < 2 * (μ + lam)

variable {cap next start} {place place' : α} {w : Brent α} {n p μ lam : ℕ}

theorem at_start (hcap : 0 < cap) : At cap next start 0 0 start ⟨start, 1, 0⟩ where
  place := rfl
  saved := rfl
  since := rfl
  within := Nat.one_pos
  capped := hcap
  stride := Nat.le_refl _
  full := .inl rfl
  apart i hi hle := absurd hle (Nat.not_le_of_lt hi)
  early μ lam h _ := by
    have := h.pos
    omega

theorem At.place_succ (h : At cap next start n p place w) (hnext : next place = some place') :
    orbit next start (n + 1) = some place' := by
  rw [orbit, h.place, Option.bind_some, hnext]

/-- The next place is not the saved one either, when the walk goes on. -/
theorem At.apart_succ (h : At cap next start n p place w) (hnext : next place = some place')
    (hne : place' ≠ w.saved) (i : ℕ) (hi : 0 < i) (hle : i ≤ w.steps + 1) :
    orbit next start (p + i) ≠ some w.saved := by
  rcases Nat.lt_or_eq_of_le hle with hlt | rfl
  · exact h.apart i hi (Nat.le_of_lt_succ hlt)
  · rw [← Nat.add_assoc, h.since, h.place_succ hnext]
    exact fun heq => hne (Option.some.inj heq)

/-- A stride that has passed without the saved place coming again was saved short of the
cycle, or was shorter than it. -/
theorem At.stride_end (h : At cap next start n p place w) (hnext : next place = some place')
    (hne : place' ≠ w.saved) (hfull : w.steps + 1 = w.power) (hrep : Repeats next start μ lam)
    (hlam : lam ≤ cap) : p + w.power < 2 * (μ + lam) := by
  have hpos := hrep.pos
  have hstride := h.stride
  by_cases hp : p < μ
  · omega
  · have hshort : w.power < lam := by
      by_contra hlong
      refine h.apart_succ hnext hne lam hpos (by omega) ?_
      rw [hrep.later (Nat.le_of_not_lt hp), h.saved]
    rcases h.full with hpow | hpow
    · omega
    · omega

end Strides

/-! ### The walk -/

variable [DecidableEq α]

/-- Go on to a place; none when it is the saved one. -/
def advance (cap : ℕ) (w : Brent α) (place : α) : Option (Brent α) :=
  if place = w.saved then none
  else if w.steps + 1 = w.power then some ⟨place, min (w.power * 2) cap, 0⟩
  else some { w with steps := w.steps + 1 }

/-- Where a walk with the test has come to. -/
inductive Outcome (α : Type*) where
  | caught
  | ended
  | going (place : α) (w : Brent α)

section Walk

variable (cap : ℕ) (next : α → Option α) (start : α)

/-- One step of the walk. -/
def Outcome.step : Outcome α → Outcome α
  | .caught => .caught
  | .ended => .ended
  | .going place w =>
      match next place with
      | none => .ended
      | some place' =>
          match w.advance cap place' with
          | none => .caught
          | some w' => .going place' w'

/-- The walk after a number of steps. -/
def after (n : ℕ) : Outcome α := (Outcome.step cap next)^[n] (.going start ⟨start, 1, 0⟩)

variable {cap next start} {place place' : α} {w w' : Brent α} {n p μ lam : ℕ}

theorem At.advance (h : At cap next start n p place w) (hnext : next place = some place')
    (hadv : w.advance cap place' = some w') : ∃ p', At cap next start (n + 1) p' place' w' := by
  rw [Brent.advance] at hadv
  split_ifs at hadv with hcaught hfull
  · cases hadv
    have hp : p + w.power = n + 1 := by
      have := h.since
      omega
    have hplace := h.place_succ hnext
    have hcapped := h.capped
    have hwithin := h.within
    refine ⟨n + 1, hplace, hplace, rfl, ?_, Nat.min_le_right _ _, ?_, ?_, ?_, ?_⟩
    · show 0 < min (w.power * 2) cap
      omega
    · have := h.stride
      show min (w.power * 2) cap ≤ n + 1 + 1
      omega
    · show min (w.power * 2) cap = n + 1 + 1 ∨ min (w.power * 2) cap = cap
      rcases h.full with hpow | hpow
      · omega
      · omega
    · exact fun i hi hle => absurd hle (Nat.not_le_of_lt hi)
    · intro μ lam hrep hlam
      rw [← hp]
      exact h.stride_end hnext hcaught hfull hrep hlam
  · cases hadv
    have hsince := h.since
    have hwithin := h.within
    refine ⟨p, h.place_succ hnext, h.saved, ?_, ?_, h.capped, h.stride, h.full,
      h.apart_succ hnext hcaught, h.early⟩
    · show p + (w.steps + 1) = n + 1
      omega
    · show w.steps + 1 < w.power
      omega

theorem after_succ (n : ℕ) :
    after cap next start (n + 1) = (after cap next start n).step cap next :=
  Function.iterate_succ_apply' ..

/-- What the walk has come to. -/
theorem after_cases (hcap : 0 < cap) (n : ℕ) :
    match after cap next start n with
    | .caught => ∃ μ lam, Repeats next start μ lam ∧ lam ≤ cap
    | .ended => orbit next start n = none
    | .going place w => ∃ p, At cap next start n p place w := by
  induction n with
  | zero => exact ⟨0, at_start hcap⟩
  | succ n ih =>
      rw [after_succ]
      cases hn : after cap next start n with
      | caught =>
          rw [hn] at ih
          exact ih
      | ended =>
          rw [hn] at ih
          exact orbit_none_of_le ih (Nat.le_succ n)
      | going place w =>
          rw [hn] at ih
          obtain ⟨p, hat⟩ := ih
          rw [Outcome.step]
          cases hnext : next place with
          | none =>
              show orbit next start (n + 1) = none
              rw [orbit, hat.place, Option.bind_some, hnext]
          | some place' =>
              dsimp only
              cases hadv : w.advance cap place' with
              | some w' => exact hat.advance hnext hadv
              | none =>
                  rw [Brent.advance] at hadv
                  split_ifs at hadv with hcaught
                  have hsince := hat.since
                  refine ⟨p, w.steps + 1, ⟨Nat.succ_pos _, ?_, ?_⟩,
                    (Nat.succ_le_of_lt hat.within).trans hat.capped⟩
                  · rw [← Nat.add_assoc, hsince, hat.place_succ hnext, hat.saved, hcaught]
                  · rw [hat.saved]
                    exact Option.some_ne_none _

/-- A walk is caught only by a cycle that is no longer than the cap. -/
theorem after_ne_caught (hcap : 0 < cap)
    (hlong : ∀ μ lam, Repeats next start μ lam → cap < lam) (n : ℕ) :
    after cap next start n ≠ .caught := by
  intro hn
  have hcases := @after_cases α _ cap next start hcap n
  rw [hn] at hcases
  obtain ⟨μ, lam, hrep, hlam⟩ := hcases
  exact absurd hlam (Nat.not_le_of_lt (hlong μ lam hrep))

/-- A walk that ends is never caught. -/
theorem after_ne_caught_of_end (hcap : 0 < cap) {k : ℕ} (hend : orbit next start k = none) (n : ℕ) :
    after cap next start n ≠ .caught :=
  after_ne_caught hcap (fun _ _ hrep => absurd hend (hrep.endless k)) n

/-- A walk ends where its places do. -/
theorem after_ended (hcap : 0 < cap) (hend : orbit next start n = none) :
    after cap next start n = .ended := by
  have hcases := @after_cases α _ cap next start hcap n
  cases hn : after cap next start n with
  | ended => rfl
  | caught => exact absurd hn (after_ne_caught_of_end hcap hend n)
  | going place w =>
      rw [hn] at hcases
      obtain ⟨p, hat⟩ := hcases
      rw [hat.place] at hend
      cases hend

/-- A walk into a cycle no longer than the cap is caught. -/
theorem after_caught (hrep : Repeats next start μ lam) (hlam : lam ≤ cap) (hn : 3 * (μ + lam) ≤ n) :
    after cap next start n = .caught := by
  have hcases := @after_cases α _ cap next start (Nat.lt_of_lt_of_le hrep.pos hlam) n
  cases hafter : after cap next start n with
  | caught => rfl
  | ended =>
      rw [hafter] at hcases
      exact absurd hcases (hrep.endless n)
  | going place w =>
      rw [hafter] at hcases
      obtain ⟨p, hat⟩ := hcases
      have hearly := hat.early μ lam hrep hlam
      have hsince := hat.since
      have hpos := hrep.pos
      by_cases hp : p < μ
      · -- the stride has not reached the cycle, and is too short to be here
        have hstride := hat.stride
        have hwithin := hat.within
        omega
      · refine absurd ?_ (hat.apart lam hpos (by omega))
        rw [hrep.later (Nat.le_of_not_lt hp), hat.saved]

end Walk

end Brent
end Logic
