import Mathlib.Data.List.Forall2
import Mathlib.Tactic.Linarith

/-!
# Weights

Each element of a list weighs at most some number, and the list at most their sum.  What a
change adds to the weight of one element it adds to the weight of the list.
-/

namespace Logic

variable {α : Type} {W : α → ℕ → Prop} {l l' : List α} {x : α} {f : α → α} {n m d i : ℕ}

/-- A list whose elements can be weighed with a total of at most `n`. -/
def Weighted (W : α → ℕ → Prop) (l : List α) (n : ℕ) : Prop :=
  ∃ ws, List.Forall₂ W l ws ∧ ws.sum ≤ n

namespace Weighted

theorem nil : Weighted W [] n := ⟨[], .nil, Nat.zero_le n⟩

theorem mono (h : Weighted W l n) (hle : n ≤ m) : Weighted W l m := by
  obtain ⟨ws, hws, hsum⟩ := h
  exact ⟨ws, hws, hsum.trans hle⟩

theorem cons (hx : W x n) (h : Weighted W l m) : Weighted W (x :: l) (n + m) := by
  obtain ⟨ws, hws, hsum⟩ := h
  refine ⟨n :: ws, .cons hx hws, ?_⟩
  rw [List.sum_cons]
  exact Nat.add_le_add_left hsum n

theorem append (h : Weighted W l n) (h' : Weighted W l' m) : Weighted W (l ++ l') (n + m) := by
  obtain ⟨ws, hws, hsum⟩ := h
  obtain ⟨us, hus, husum⟩ := h'
  refine ⟨ws ++ us, List.rel_append hws hus, ?_⟩
  rw [List.sum_append]
  exact Nat.add_le_add hsum husum

/-- A change that adds `d` to the weight of an element adds no more to the list. -/
theorem modify (h : Weighted W l n) (i : ℕ) (hf : ∀ x w, W x w → W (f x) (w + d)) :
    Weighted W (l.modify i f) (n + d) := by
  obtain ⟨ws, hws, hsum⟩ := h
  induction hws generalizing i n with
  | nil => exact ⟨[], by simp, Nat.zero_le _⟩
  | @cons x w l ws hx hws ih =>
      rw [List.sum_cons] at hsum
      cases i with
      | zero =>
          rw [List.modify_zero_cons]
          exact (cons (hf x w hx) ⟨ws, hws, le_rfl⟩).mono (by omega)
      | succ i =>
          rw [List.modify_succ_cons]
          exact (cons hx (ih i le_rfl)).mono (by omega)

theorem eraseIdx (h : Weighted W l n) (i : ℕ) : Weighted W (l.eraseIdx i) n := by
  obtain ⟨ws, hws, hsum⟩ := h
  induction hws generalizing i n with
  | nil => exact nil
  | @cons x w l ws hx hws ih =>
      rw [List.sum_cons] at hsum
      cases i with
      | zero =>
          rw [List.eraseIdx_cons_zero]
          exact ⟨ws, hws, (Nat.le_add_left _ _).trans hsum⟩
      | succ i =>
          rw [List.eraseIdx_cons_succ]
          exact (cons hx (ih i le_rfl)).mono hsum

end Weighted

end Logic
