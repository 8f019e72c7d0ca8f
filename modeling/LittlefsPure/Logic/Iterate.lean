import Mathlib.Tactic.Common
import Mathlib.Tactic.Linarith

/-!
# Iterators

An iterator is a state with a function that yields an item and the next state, or nothing.
`Yields` says which items a state yields until it is exhausted, and which state that is, with
no bound on the number of turns.  A loop on a bound that yields the same items whatever the
bound beyond their number is such a run.

## Why no bound on the turns

A loop of the source runs until its iterator is exhausted.  In Lean it runs on a number of turns,
and each statement about it would have to speak of that number.  `Yields` leaves it out: it is a
relation between a state, the items and the state behind them, so runs compose and can be taken
apart anywhere, and the number comes in once, when a concrete loop is shown to be such a run.
-/

namespace Logic

variable {σ τ α : Type} {next : σ → Option (α × σ)} {s s' last last' : σ} {as as' : List α}

/-- The state yields these items, and is exhausted in the last state. -/
inductive Yields (next : σ → Option (α × σ)) : σ → List α → σ → Prop where
  | done {s : σ} (h : next s = none) : Yields next s [] s
  | step {s s' last : σ} {a : α} {as : List α} (h : next s = some (a, s'))
      (rest : Yields next s' as last) : Yields next s (a :: as) last

namespace Yields

/-- An iterator yields one sequence and ends in one state. -/
theorem unique (h : Yields next s as last) (h' : Yields next s as' last') :
    as = as' ∧ last = last' := by
  induction h generalizing as' with
  | done hnone =>
      cases h' with
      | done => exact ⟨rfl, rfl⟩
      | step hsome =>
          rw [hnone] at hsome
          cases hsome
  | step hsome _ ih =>
      cases h' with
      | done hnone =>
          rw [hsome] at hnone
          cases hnone
      | step hsome' rest' =>
          rw [hsome] at hsome'
          cases hsome'
          obtain ⟨rfl, rfl⟩ := ih rest'
          exact ⟨rfl, rfl⟩

/-- What each step adds to a position, the whole run adds to it. -/
theorem gains (h : Yields next s as last) {P : α → Prop} (hP : ∀ a ∈ as, P a) {size : α → ℕ}
    {pos : σ → ℕ} (hstep : ∀ s a s', P a → next s = some (a, s') → pos s' = pos s + size a) :
    pos last = pos s + (as.map size).sum := by
  induction h with
  | done => rfl
  | @step s s' last a as hsome _ ih =>
      rw [ih fun b hb => hP b (List.mem_cons_of_mem _ hb),
        hstep _ _ _ (hP a (List.mem_cons_self ..)) hsome, List.map_cons, List.sum_cons,
        Nat.add_assoc]

/-- What each step takes off a position, the whole run takes off it. -/
theorem spends (h : Yields next s as last) (pos : σ → ℕ) {P : α → Prop} (hP : ∀ a ∈ as, P a)
    {size : α → ℕ} (hstep : ∀ s a s', P a → next s = some (a, s') → pos s = pos s' + size a) :
    pos s = pos last + (as.map size).sum := by
  induction h with
  | done => rfl
  | @step s s' last a as hsome _ ih =>
      rw [hstep _ _ _ (hP a (List.mem_cons_self ..)) hsome,
        ih fun b hb => hP b (List.mem_cons_of_mem _ hb), List.map_cons, List.sum_cons,
        Nat.add_assoc, Nat.add_comm (size a)]

/-- A loop on a bound that yields the items for every bound beyond their number. -/
theorem of_collect (collect : ℕ → σ → List α)
    (hnone : ∀ n s, next s = none → collect (n + 1) s = [])
    (hsome : ∀ n s a s', next s = some (a, s') → collect (n + 1) s = a :: collect n s')
    (h : ∀ fuel, collect (as.length + fuel) s = as) : ∃ last, Yields next s as last := by
  induction as generalizing s with
  | nil =>
      cases hnext : next s with
      | none => exact ⟨s, .done hnext⟩
      | some p =>
          have hone := h 1
          rw [List.length_nil, Nat.zero_add, hsome _ _ _ _ hnext] at hone
          cases hone
  | cons a as ih =>
      have hturn : ∀ fuel, collect (as.length + fuel + 1) s = a :: as := fun fuel => by
        rw [← h fuel, List.length_cons, Nat.add_right_comm]
      cases hnext : next s with
      | none =>
          have hzero := hturn 0
          rw [hnone _ _ hnext] at hzero
          cases hzero
      | some p =>
          have hrest : ∀ fuel, p.1 :: collect (as.length + fuel) p.2 = a :: as := fun fuel => by
            rw [← hturn fuel, hsome _ _ _ _ hnext]
          obtain ⟨last, hlast⟩ := ih fun fuel => (List.cons.inj (hrest fuel)).2
          refine ⟨last, .step ?_ hlast⟩
          rw [hnext, ← (List.cons.inj (hrest 0)).1]

end Yields

end Logic
