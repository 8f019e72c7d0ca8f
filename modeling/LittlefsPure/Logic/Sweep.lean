import Mathlib.Data.List.Pairwise
import Mathlib.Logic.Relation
import Mathlib.Tactic.Common

/-!
# Sweeps of a graph

A sweep starts at a root, visits in turn what is queued, and queues the successors of what it
visits, unless one that counts as the same is queued already.  `Frontier` is its invariant:
everything queued is reached from the root, no two of it count as the same, and whatever has
been visited has its successors queued.  When nothing is left to visit, the queue is `Swept`.

`Queues` is what a round of queueing does; `Frontier.visit` puts one behind a visit.

## What counts as the same

The nodes of a sweep may have several names: a pair of blocks is the same pair in either order.
So the sweep is over names, and the relation that says when two of them count as the same is a
parameter.  A name that counts as one in the queue is passed over, and its own successors are
never looked at; `Frontier.closed` asks that each successor of a visited node has its like in the
queue, which is as much as such a sweep can promise.

## What the library leaves to its user

A sweep that fails says nothing here.  Why one may fail, for want of a slot in the queue or at a
node that cannot be read, is the business of the function that sweeps.
-/

namespace Logic

variable {α : Type} {same Step : α → α → Prop} {root x y : α}
  {seen candidates candidates' more more' visited pending : List α}

/-! ## Queueing -/

/-- What a round of queueing adds: candidates, none of them like another or like one that is
queued already, and enough of them that every candidate has its like in the queue. -/
structure Queues (same : α → α → Prop) (seen candidates more : List α) : Prop where
  candidate : ∀ y ∈ more, y ∈ candidates
  covers : ∀ y ∈ candidates, ∃ z ∈ seen ++ more, same z y
  apart : more.Pairwise fun y z => ¬ same y z
  new : ∀ y ∈ seen, ∀ z ∈ more, ¬ same y z

namespace Queues

theorem nil : Queues same seen [] [] := ⟨by simp, by simp, .nil, by simp⟩

/-- A candidate that has its like in the queue. -/
theorem old (h : ∃ z ∈ seen, same z y) : Queues same seen [y] [] where
  candidate := by simp
  covers := by simpa using h
  apart := .nil
  new := by simp

/-- A candidate that has none. -/
theorem fresh (hrefl : same y y) (h : ∀ z ∈ seen, ¬ same z y) : Queues same seen [y] [y] where
  candidate := fun _ => id
  covers := by
    simp only [List.mem_singleton, forall_eq]
    exact ⟨y, by simp, hrefl⟩
  apart := List.pairwise_singleton ..
  new := by simpa using h

/-- One round after another. -/
theorem append (h : Queues same seen candidates more)
    (h' : Queues same (seen ++ more) candidates' more') :
    Queues same seen (candidates ++ candidates') (more ++ more') where
  candidate := by
    simp only [List.mem_append]
    exact fun y hy => hy.imp (h.candidate y) (h'.candidate y)
  covers := by
    intro y hy
    rw [← List.append_assoc]
    rcases List.mem_append.1 hy with hy | hy
    · obtain ⟨z, hz, hsame⟩ := h.covers y hy
      exact ⟨z, List.mem_append_left _ hz, hsame⟩
    · exact h'.covers y hy
  apart := List.pairwise_append.2
    ⟨h.apart, h'.apart, fun y hy => h'.new y (List.mem_append_right _ hy)⟩
  new := by
    intro y hy z hz
    rcases List.mem_append.1 hz with hz | hz
    · exact h.new y hy z hz
    · exact h'.new y (List.mem_append_left _ hy) z hz

end Queues

/-! ## Sweeping -/

/-- The invariant of a sweep. -/
structure Frontier (same Step : α → α → Prop) (root : α) (visited pending : List α) : Prop where
  rooted : root ∈ visited ++ pending
  reached : ∀ x ∈ visited ++ pending, Relation.ReflTransGen Step root x
  apart : (visited ++ pending).Pairwise fun x y => ¬ same x y
  closed : ∀ x ∈ visited, ∀ y, Step x y → ∃ z ∈ visited ++ pending, same z y

/-- A finished sweep: the nodes reached from the root, one of each kind. -/
def Swept (same Step : α → α → Prop) (root : α) (visited : List α) : Prop :=
  Frontier same Step root visited []

namespace Frontier

theorem start : Frontier same Step root [] [root] where
  rooted := List.mem_singleton_self _
  reached := by simpa using Relation.ReflTransGen.refl
  apart := List.pairwise_singleton ..
  closed := by simp

/-- What a round of queueing adds behind a visit is reached, and like nothing seen. -/
theorem extend (h : Frontier same Step root visited (x :: pending))
    (hq : Queues same (visited ++ x :: pending) candidates more)
    (hstep : ∀ y ∈ candidates, Step x y) :
    (∀ y ∈ visited ++ x :: pending ++ more, Relation.ReflTransGen Step root y) ∧
      (visited ++ x :: pending ++ more).Pairwise fun y z => ¬ same y z := by
  refine ⟨fun y hy => ?_, List.pairwise_append.2 ⟨h.apart, hq.apart, hq.new⟩⟩
  rcases List.mem_append.1 hy with hy | hy
  · exact h.reached y hy
  · exact (h.reached x (by simp)).tail (hstep y (hq.candidate y hy))

/-- The step lemma: a visit that queues the successors keeps the invariant. -/
theorem visit (h : Frontier same Step root visited (x :: pending))
    (hq : Queues same (visited ++ x :: pending) candidates more)
    (hstep : ∀ y, Step x y ↔ y ∈ candidates) :
    Frontier same Step root (visited ++ [x]) (pending ++ more) := by
  have hqueue : visited ++ [x] ++ (pending ++ more) = visited ++ x :: pending ++ more := by simp
  obtain ⟨hreached, hapart⟩ := h.extend hq fun y hy => (hstep y).2 hy
  refine ⟨hqueue ▸ List.mem_append_left _ h.rooted, hqueue ▸ hreached, hqueue ▸ hapart, ?_⟩
  rw [hqueue]
  intro y hy z hz
  rcases List.mem_append.1 hy with hy | hy
  · obtain ⟨w, hw, hsame⟩ := h.closed y hy z hz
    exact ⟨w, List.mem_append_left _ hw, hsame⟩
  · cases List.mem_singleton.1 hy
    exact hq.covers z ((hstep z).1 hz)

end Frontier

end Logic
