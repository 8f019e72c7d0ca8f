import Mathlib.Tactic.Common

/-!
# Sessions with a durable object

An object is used through calls, and power may fail in the middle of one.  A call that
returned has taken effect, one that failed has not, and of one that was cut off nothing is
known but that it did one or the other, in full.  `Outcome` says which values of the object a
history of calls leaves possible; `Lifetime.refines` is the induction that carries a system
from one call to the next, restarts included.

Nothing here names a particular object; calls, values and states are arbitrary types.

## Why a set of outcomes

Behind a power failure it is not known whether the call that was cut off has taken effect, so
what a history determines is not one value but the values that are left possible.  An object
that is durable in the usual sense is one whose answers, at every moment, are those of a value in
that set; and answers between two failures are those of one and the same value, which is why the
relation fixes a value as soon as a call returns.
-/

namespace Logic

/-- How a call ended. -/
inductive Fate where
  | done
  | failed
  | cut
  deriving DecidableEq, Repr

/-- An object: when a call can return, and what it makes of the object then. -/
structure Durable (ι δ : Type) where
  Enabled : ι → δ → Prop
  apply : ι → δ → δ

variable {ι δ σ : Type}

namespace Durable

/-- The values that a call which ended in some way may leave. -/
inductive After (A : Durable ι δ) (c : ι) (D : δ) : Fate → δ → Prop
  | done (hc : A.Enabled c D) : A.After c D .done (A.apply c D)
  | failed : A.After c D .failed D
  | cutBefore : A.After c D .cut D
  | cutBehind (hc : A.Enabled c D) : A.After c D .cut (A.apply c D)

/-- The values that a history of calls leaves possible, from an initial value on. -/
inductive Outcome (A : Durable ι δ) (init : δ) : List (ι × Fate) → δ → Prop
  | init : A.Outcome init [] init
  | after {history : List (ι × Fate)} {c : ι} {fate : Fate} {D D' : δ}
      (h : A.Outcome init history D) (hafter : A.After c D fate D') :
      A.Outcome init (history ++ [(c, fate)]) D'

end Durable

/-- The histories of a system that starts in some states and goes from call to call. -/
inductive Lifetime (start : σ → Prop) (step : ι → Fate → σ → σ → Prop) :
    List (ι × Fate) → σ → Prop
  | start {s : σ} (h : start s) : Lifetime start step [] s
  | step {history : List (ι × Fate)} {c : ι} {fate : Fate} {s s' : σ}
      (h : Lifetime start step history s) (hstep : step c fate s s') :
      Lifetime start step (history ++ [(c, fate)]) s'

/-- The run lemma: a system each of whose calls leaves what the object allows is at every
point of every session in a state that stands for a possible outcome. -/
theorem Lifetime.refines {start : σ → Prop} {step : ι → Fate → σ → σ → Prop} (A : Durable ι δ)
    {init : δ} (R : δ → σ → Prop) (hstart : ∀ s, start s → R init s)
    (hstep : ∀ c fate s s' D, R D s → step c fate s s' → ∃ D', A.After c D fate D' ∧ R D' s')
    {history : List (ι × Fate)} {s : σ} (h : Lifetime start step history s) :
    ∃ D, A.Outcome init history D ∧ R D s := by
  induction h with
  | start h => exact ⟨init, .init, hstart _ h⟩
  | step h hs ih =>
      obtain ⟨D, hout, hR⟩ := ih
      obtain ⟨D', hafter, hR'⟩ := hstep _ _ _ _ D hR hs
      exact ⟨D', .after hout hafter, hR'⟩

end Logic
