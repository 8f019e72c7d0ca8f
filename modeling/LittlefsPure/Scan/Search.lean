import LittlefsPure.Scan.Marks
import Mathlib.Logic.Relation

/-!
# The search both scans make

`scanLoop` visits pairs in breadth first order and uses the bitmap it fills as its visited
set.  What it visits is described by two relations: `succ p c` says that pair `p` refers to
pair `c`, and `own p b` that a visit of `p` marks block `b`.  The loop states of a search are
the `Searching` ones.

A pair is passed over when both its blocks are marked already, whoever marked them.  So the
search marks what the reachable pairs own, provided that no reachable pair is hidden behind
the blocks of others: this is `scanLoop_marks`.

## When it succeeds

Which pairs are passed over depends on the order of the visits, so the pairs that have to be
visited for the search to succeed are not the reachable ones but those that it comes to in its
own order.  `ComesTo` describes that order from the names and the marks of the pairs alone: a
queue without a limit, visits that cannot fail.  `scanLoop_ok_iff` says that the search succeeds
exactly when each pair that it comes to can be visited and the queue has a slot for each.
-/

namespace LittlefsPure
namespace Alloc

open Logic

/-! ## The queue -/

/-- What is queued: the children that are not queued yet, each once. -/
theorem enqueueChildren_eq_ok {children pending pending' : List BlockPair} {tail tail' : ℕ}
    (h : enqueueChildren children pending tail = .ok (pending', tail')) :
    ∃ new, pending' = pending ++ new ∧ tail' = tail + new.length ∧ new ⊆ children ∧
      (∀ c ∈ children, containsPair pending' c = true) ∧
      (tail ≤ maxQueuedPairs → tail' ≤ maxQueuedPairs) ∧
      ∀ before, DistinctPairs (before ++ pending) →
        (∀ c ∈ children, containsPair before c = false) → DistinctPairs (before ++ pending') := by
  induction children generalizing pending tail with
  | nil =>
      cases h
      exact ⟨[], by simp, by simp, by simp, by simp, id, fun _ h _ => h⟩
  | cons c rest ih =>
      rw [enqueueChildren] at h
      split_ifs at h with hqueued hfull
      · obtain ⟨new, rfl, rfl, hsub, hall, hcap, hdistinct⟩ := ih h
        refine ⟨new, rfl, rfl, List.subset_cons_of_subset _ hsub, ?_, hcap, fun before hb hc => ?_⟩
        · rw [List.forall_mem_cons]
          exact ⟨containsPair_mono (List.subset_append_left ..) hqueued, hall⟩
        · exact hdistinct before hb (List.forall_mem_cons.1 hc).2
      · obtain ⟨new, rfl, rfl, hsub, hall, hcap, hdistinct⟩ := ih h
        refine ⟨c :: new, by simp, by simp [Nat.add_assoc, Nat.add_comm 1], ?_, ?_, ?_,
          fun before hb hc => ?_⟩
        · exact List.cons_subset_cons c hsub
        · rw [List.forall_mem_cons]
          exact ⟨containsPair_of_mem (by simp), hall⟩
        · exact fun _ => hcap (Nat.lt_of_not_le hfull)
        · rw [List.forall_mem_cons] at hc
          refine hdistinct before ?_ hc.2
          rw [← List.append_assoc, distinctPairs_concat]
          refine ⟨hb, ?_⟩
          rw [containsPair, List.any_append, Bool.or_eq_false_iff]
          exact ⟨hc.1, Bool.not_eq_true _ ▸ hqueued⟩

/-- Queueing fails only on more distinct pairs than the queue has slots. -/
theorem exists_enqueueChildren {children pending before : List BlockPair} {tail : ℕ}
    (htail : tail = before.length + pending.length) (hdistinct : DistinctPairs (before ++ pending))
    (hnew : ∀ c ∈ children, containsPair before c = false)
    (hbound : ∀ more, more ⊆ children → DistinctPairs (before ++ (pending ++ more)) →
      (before ++ (pending ++ more)).length ≤ maxQueuedPairs) :
    ∃ r, enqueueChildren children pending tail = .ok r := by
  induction children generalizing pending tail with
  | nil => exact ⟨_, rfl⟩
  | cons c rest ih =>
      rw [List.forall_mem_cons] at hnew
      rw [enqueueChildren]
      split_ifs with hqueued hfull
      · exact ih htail hdistinct hnew.2 fun more hmore =>
          hbound more (List.subset_cons_of_subset _ hmore)
      · have hgrown : DistinctPairs (before ++ (pending ++ [c])) := by
          rw [← List.append_assoc, distinctPairs_concat, containsPair, List.any_append,
            Bool.or_eq_false_iff]
          exact ⟨hdistinct, hnew.1, Bool.not_eq_true _ ▸ hqueued⟩
        have hlen := hbound [c] (by simp) hgrown
        simp only [List.length_append, List.length_cons, List.length_nil] at hlen
        omega
      · have hgrown : DistinctPairs (before ++ (pending ++ [c])) := by
          rw [← List.append_assoc, distinctPairs_concat, containsPair, List.any_append,
            Bool.or_eq_false_iff]
          exact ⟨hdistinct, hnew.1, Bool.not_eq_true _ ▸ hqueued⟩
        refine ih ?_ hgrown hnew.2 fun more hmore => ?_
        · simp [htail, Nat.add_assoc]
        · have hcons := hbound (c :: more) (List.cons_subset_cons c hmore)
          simpa using hcons

/-! ## Visits -/

/-- A visit marks what its pair owns and collects the pairs it refers to that are not
covered; of these it collects none twice. -/
structure Visits (visit : BlockPair → Bitmap → Except Error (Bitmap × List BlockPair))
    (succ : BlockPair → BlockPair → Prop) (own : BlockPair → ℕ → Prop) : Prop where
  halves : ∀ p x, p.Holds x → own p x
  marks : ∀ p used used' children, visit p used = .ok (used', children) →
    ∀ b, b ∈ used'.marked ↔ b ∈ used.marked ∨ own p b
  sound : ∀ p used used' children, visit p used = .ok (used', children) → ∀ c ∈ children, succ p c
  complete : ∀ p used used' children, visit p used = .ok (used', children) →
    ∀ c, succ p c → used'.Covers c ∨ containsPair children c = true
  fresh : ∀ p used used' children, visit p used = .ok (used', children) →
    ∀ c ∈ children, ∃ x, c.Holds x ∧ x ∉ used.marked ∧ ¬ p.Holds x

section Search

variable {visit : BlockPair → Bitmap → Except Error (Bitmap × List BlockPair)}
  {succ : BlockPair → BlockPair → Prop} {own : BlockPair → ℕ → Prop} {root : BlockPair}
  {done pending : List BlockPair} {tail : ℕ} {used : Bitmap}

/-- The states of the loop that starts at `root`, with the pairs visited so far. -/
inductive Searching (visit : BlockPair → Bitmap → Except Error (Bitmap × List BlockPair))
    (root : BlockPair) : List BlockPair → List BlockPair → ℕ → Bitmap → Prop
  | start : Searching visit root [] [root] 1 .empty
  | visit {done pending pending' children : List BlockPair} {pair : BlockPair} {tail tail' : ℕ}
      {used used' : Bitmap} (h : Searching visit root done (pair :: pending) tail used)
      (hvisit : visit pair used = .ok (used', children))
      (hqueue : enqueueChildren children pending tail = .ok (pending', tail')) :
      Searching visit root (done ++ [pair]) pending' tail' used'

/-- A scan that succeeds ends with an empty queue. -/
theorem scanLoop_searching {fuel : ℕ} {used' : Bitmap}
    (h : Searching visit root done pending tail used)
    (hscan : scanLoop visit fuel pending tail used = .ok used') :
    ∃ done' tail', Searching visit root done' [] tail' used' := by
  induction fuel generalizing done pending tail used with
  | zero =>
      cases pending with
      | nil =>
          cases hscan
          exact ⟨done, tail, h⟩
      | cons p ps => cases hscan
  | succ fuel ih =>
      cases pending with
      | nil =>
          cases hscan
          exact ⟨done, tail, h⟩
      | cons p ps =>
          rw [scanLoop, bind_eq_ok] at hscan
          obtain ⟨⟨used₁, children⟩, hvisit, hscan⟩ := hscan
          obtain ⟨⟨pending₁, tail₁⟩, hqueue, hscan⟩ := bind_eq_ok.1 hscan
          exact ih (h.visit hvisit hqueue) hscan

namespace Searching

theorem tail_eq (h : Searching visit root done pending tail used) :
    tail = done.length + pending.length ∧ tail ≤ maxQueuedPairs := by
  induction h with
  | start => exact ⟨rfl, by decide⟩
  | visit h hvisit hqueue ih =>
      obtain ⟨new, rfl, rfl, -, -, hcap, -⟩ := enqueueChildren_eq_ok hqueue
      refine ⟨?_, hcap ih.2⟩
      rw [ih.1]
      simp only [List.length_append, List.length_cons, List.length_nil]
      omega

theorem root_mem (h : Searching visit root done pending tail used) : root ∈ done ++ pending := by
  induction h with
  | start => simp
  | visit h hvisit hqueue ih =>
      obtain ⟨new, rfl, -, -, -, -, -⟩ := enqueueChildren_eq_ok hqueue
      simp only [List.mem_append, List.mem_cons] at ih ⊢
      tauto

/-- A visited pair was visited with success. -/
theorem visited (h : Searching visit root done pending tail used) :
    ∀ p ∈ done, ∃ used₀ r, visit p used₀ = .ok r := by
  induction h with
  | start => simp
  | visit h hvisit hqueue ih =>
      rw [List.forall_mem_append, List.forall_mem_singleton]
      exact ⟨ih, _, _, hvisit⟩

theorem reaches (hv : Visits visit succ own) (h : Searching visit root done pending tail used) :
    ∀ p ∈ done ++ pending, Relation.ReflTransGen succ root p := by
  induction h with
  | start => simpa using Relation.ReflTransGen.refl
  | visit h hvisit hqueue ih =>
      obtain ⟨new, rfl, -, hnew, -, -, -⟩ := enqueueChildren_eq_ok hqueue
      rw [List.forall_mem_append, List.forall_mem_cons] at ih
      obtain ⟨hdone, hpair, hpending⟩ := ih
      rw [List.forall_mem_append, List.forall_mem_append, List.forall_mem_append,
        List.forall_mem_singleton]
      exact ⟨⟨hdone, hpair⟩, hpending,
        fun c hc => hpair.tail (hv.sound _ _ _ _ hvisit c (hnew hc))⟩

/-- The marks are what the visited pairs own. -/
theorem marked (hv : Visits visit succ own) (h : Searching visit root done pending tail used)
    (b : ℕ) : b ∈ used.marked ↔ ∃ p ∈ done, own p b := by
  induction h with
  | start => simp
  | visit h hvisit hqueue ih =>
      rw [hv.marks _ _ _ _ hvisit, ih]
      simp only [List.mem_append, List.mem_singleton, or_and_right, exists_or, exists_eq_left]

theorem le_visit (hv : Visits visit succ own) {p : BlockPair} {used' : Bitmap}
    {children : List BlockPair} (hvisit : visit p used = .ok (used', children)) :
      used.Le used' := by
  intro b hb
  rw [Bitmap.isSet_iff] at hb ⊢
  exact hb.imp_right fun h => (hv.marks _ _ _ _ hvisit b).2 (.inl h)

/-- What a visited pair refers to is visited, queued or covered. -/
theorem closed (hv : Visits visit succ own) (h : Searching visit root done pending tail used) :
    ∀ p ∈ done, ∀ c, succ p c → used.Covers c ∨ containsPair (done ++ pending) c = true := by
  induction h with
  | start => simp
  | @visit done pending pending' children pair tail tail' used used' h hvisit hqueue ih =>
      obtain ⟨new, rfl, -, -, hall, -, -⟩ := enqueueChildren_eq_ok hqueue
      have hsub : done ++ pair :: pending ⊆ done ++ [pair] ++ (pending ++ new) := by
        intro x hx
        simp only [List.mem_append, List.mem_cons] at hx ⊢
        tauto
      rw [List.forall_mem_append, List.forall_mem_singleton]
      constructor
      · intro p hp c hc
        exact (ih p hp c hc).imp (fun h => h.mono (le_visit hv hvisit)) (containsPair_mono hsub)
      · intro c hc
        refine (hv.complete _ _ _ _ hvisit c hc).imp_right fun hmem => ?_
        obtain ⟨q, hq, hsame⟩ := containsPair_iff.1 hmem
        obtain ⟨q', hq', hsame'⟩ := containsPair_iff.1 (hall q hq)
        refine containsPair_iff.2 ⟨q', List.mem_append_right _ hq', ?_⟩
        rw [BlockPair.isSamePair, beq_iff_eq] at hsame hsame' ⊢
        rw [hsame', hsame]

/-- A collected pair has a block that no visited pair has. -/
theorem unvisited (hv : Visits visit succ own) {pair : BlockPair} {used' : Bitmap}
    {children : List BlockPair} (h : Searching visit root done (pair :: pending) tail used)
    (hvisit : visit pair used = .ok (used', children)) :
    ∀ c ∈ children, containsPair (done ++ [pair]) c = false := by
  intro c hc
  obtain ⟨x, hx, hmark, hpair⟩ := hv.fresh _ _ _ _ hvisit c hc
  by_contra hcon
  rw [Bool.not_eq_false, containsPair_iff] at hcon
  obtain ⟨q, hq, hsame⟩ := hcon
  have hqx := (BlockPair.holds_congr hsame x).2 hx
  rcases List.mem_append.1 hq with hq | hq
  · exact hmark ((marked hv h x).2 ⟨q, hq, hv.halves q x hqx⟩)
  · rw [List.mem_singleton.1 hq] at hqx
    exact hpair hqx

/-- The visited and queued pairs are distinct, so the search visits no pair twice. -/
theorem distinct (hv : Visits visit succ own) (h : Searching visit root done pending tail used) :
    DistinctPairs (done ++ pending) := by
  induction h with
  | start => simp [DistinctPairs]
  | @visit done pending pending' children pair tail tail' used used' h hvisit hqueue ih =>
      obtain ⟨new, rfl, -, -, -, -, hdistinct⟩ := enqueueChildren_eq_ok hqueue
      exact hdistinct (done ++ [pair]) (by simpa using ih) (unvisited hv h hvisit)

end Searching

/-! ## What a scan marks -/

/-- No reachable pair is hidden: each has a tracked block that only it owns, up to the order
of its blocks. -/
def Unhidden (succ : BlockPair → BlockPair → Prop) (own : BlockPair → ℕ → Prop)
    (root : BlockPair) : Prop :=
  ∀ p, Relation.ReflTransGen succ root p → ∃ x, p.Holds x ∧ x < maxTrackedBlocks ∧
    ∀ q, Relation.ReflTransGen succ root q → own q x → q.isSamePair p = true

/-- The order in which a reachable pair is named does not matter to what it refers to and
owns. -/
def Unordered (succ : BlockPair → BlockPair → Prop) (own : BlockPair → ℕ → Prop)
    (root : BlockPair) : Prop :=
  ∀ p q, Relation.ReflTransGen succ root p → Relation.ReflTransGen succ root q →
    q.isSamePair p = true → (∀ c, succ p c → succ q c) ∧ ∀ b, own p b → own q b

/-- A root that refers to nothing is all there is. -/
theorem reaches_leaf (hleaf : ∀ c, ¬ succ root c) {p : BlockPair}
    (h : Relation.ReflTransGen succ root p) : p = root := by
  induction h with
  | refl => rfl
  | tail _ hc ih => exact absurd (ih ▸ hc) (hleaf _)

theorem Unhidden.leaf (hleaf : ∀ c, ¬ succ root c) (hcap : root.a < maxTrackedBlocks) :
    Unhidden succ own root := by
  intro p hp
  rw [reaches_leaf hleaf hp]
  refine ⟨root.a, .inl rfl, hcap, fun q hq _ => ?_⟩
  rw [reaches_leaf hleaf hq]
  exact BlockPair.isSamePair_self root

theorem Unordered.leaf (hleaf : ∀ c, ¬ succ root c) : Unordered succ own root := by
  intro p q hp hq _
  rw [reaches_leaf hleaf hp, reaches_leaf hleaf hq]
  exact ⟨fun _ => id, fun _ => id⟩

/-- At the end of a search every reachable pair that is not hidden has been visited. -/
theorem Searching.visits_all (hv : Visits visit succ own) (hun : Unhidden succ own root)
    (hord : Unordered succ own root)
    (h : Searching visit root done [] tail used) {p : BlockPair}
    (hp : Relation.ReflTransGen succ root p) : containsPair done p = true := by
  have hreaches := h.reaches hv
  rw [List.append_nil] at hreaches
  induction hp with
  | refl =>
      have hroot := h.root_mem
      rw [List.append_nil] at hroot
      exact containsPair_of_mem hroot
  | @tail p c hp hc ih =>
      obtain ⟨q, hq, hsame⟩ := containsPair_iff.1 ih
      have hqc := (hord p q hp (hreaches q hq) hsame).1 c hc
      rcases h.closed hv q hq c hqc with hcovers | hmem
      · obtain ⟨x, hx, hcap, howned⟩ := hun c (hp.tail hc)
        have hset : used.isSet x = true := by
          rcases hx with rfl | rfl
          · exact hcovers.1
          · exact hcovers.2
        obtain ⟨q', hq', hown⟩ := (h.marked hv x).1 ((Bitmap.isSet_tracked hcap).1 hset)
        exact containsPair_iff.2 ⟨q', hq', howned q' (hreaches q' hq') hown⟩
      · rwa [List.append_nil] at hmem

/-- A scan that succeeds marks what the reachable pairs own, when none of them is hidden. -/
theorem scanLoop_marks (hv : Visits visit succ own) (hun : Unhidden succ own root)
    (hord : Unordered succ own root)
    (h : scanLoop visit maxQueuedPairs [root] 1 .empty = .ok used) (b : ℕ) :
    b ∈ used.marked ↔ ∃ p, Relation.ReflTransGen succ root p ∧ own p b := by
  obtain ⟨done, tail, hend⟩ := scanLoop_searching .start h
  have hreaches := hend.reaches hv
  rw [List.append_nil] at hreaches
  rw [hend.marked hv]
  constructor
  · rintro ⟨p, hp, hown⟩
    exact ⟨p, hreaches p hp, hown⟩
  · rintro ⟨p, hp, hown⟩
    obtain ⟨q, hq, hsame⟩ := containsPair_iff.1 (hend.visits_all hv hun hord hp)
    exact ⟨q, hq, (hord p q hp (hreaches q hq) hsame).2 b hown⟩

end Search

/-! ## The order of a search -/

/-- A pair joins a queue, unless it is there already. -/
def offer (queue : List BlockPair) (c : BlockPair) : List BlockPair :=
  if containsPair queue c then queue else queue ++ [c]

instance (used : Bitmap) (p : BlockPair) : Decidable (used.Covers p) :=
  inferInstanceAs (Decidable (_ ∧ _))

/-- The pairs of a list that are not covered once the blocks `seen` are marked. -/
def uncovered (seen : List ℕ) (pairs : List BlockPair) : List BlockPair :=
  pairs.filter fun c => ¬ (⟨seen⟩ : Bitmap).Covers c

/-- What a search comes to, with the pairs visited so far and those that wait.  `names p` are
the pairs that `p` names and `marks p` the blocks that a visit of it marks.  A named pair waits
unless both its blocks are marked by the visited pairs or are the halves of the one at hand. -/
inductive ComesTo (names : BlockPair → List BlockPair) (marks : BlockPair → List ℕ)
    (root : BlockPair) : List BlockPair → List BlockPair → Prop
  | start : ComesTo names marks root [] [root]
  | visit {done waiting : List BlockPair} {pair : BlockPair}
      (h : ComesTo names marks root done (pair :: waiting)) :
      ComesTo names marks root (done ++ [pair])
        ((uncovered (done.flatMap marks ++ [pair.a, pair.b]) (names pair)).foldl offer waiting)

section Offer

variable {queue waiting children pairs : List BlockPair} {c x : BlockPair}

theorem containsPair_concat :
    containsPair (queue ++ [c]) x = true ↔ containsPair queue x = true ∨ c.isSamePair x = true := by
  simp [containsPair]

theorem containsPair_offer :
    containsPair (offer queue c) x = true ↔
      containsPair queue x = true ∨ c.isSamePair x = true := by
  unfold offer
  split_ifs with hmem
  · refine ⟨.inl, fun h => h.elim id fun hsame => ?_⟩
    obtain ⟨q, hq, hsame'⟩ := containsPair_iff.1 hmem
    refine containsPair_iff.2 ⟨q, hq, ?_⟩
    rw [BlockPair.isSamePair, beq_iff_eq] at hsame hsame' ⊢
    rw [hsame', hsame]
  · exact containsPair_concat

theorem containsPair_foldl_offer :
    containsPair (pairs.foldl offer queue) x = true ↔
      containsPair queue x = true ∨ containsPair pairs x = true := by
  induction pairs generalizing queue with
  | nil => simp [containsPair]
  | cons c rest ih =>
      rw [List.foldl_cons, ih, containsPair_offer, or_assoc]
      simp [containsPair]

theorem length_le_offer : queue.length ≤ (offer queue c).length := by
  unfold offer
  split_ifs
  · exact Nat.le_refl _
  · simp

theorem length_le_foldl_offer : queue.length ≤ (pairs.foldl offer queue).length := by
  induction pairs generalizing queue with
  | nil => exact Nat.le_refl _
  | cons c rest ih => exact length_le_offer.trans ih

theorem DistinctPairs.foldl_offer (h : DistinctPairs queue) :
    DistinctPairs (pairs.foldl offer queue) := by
  induction pairs generalizing queue with
  | nil => exact h
  | cons c rest ih =>
      refine ih ?_
      unfold offer
      split_ifs with hmem
      · exact h
      · exact distinctPairs_concat.2 ⟨h, Bool.not_eq_true _ ▸ hmem⟩

/-- What pairs take up by themselves they take up in a queue. -/
theorem length_foldl_offer_nil :
    (pairs.foldl offer []).length ≤ (pairs.foldl offer queue).length := by
  have hempty : DistinctPairs [] := List.nodup_nil
  refine (DistinctPairs.foldl_offer hempty).length_le fun x hx => ?_
  have hmem := containsPair_of_mem hx
  rw [containsPair_foldl_offer] at hmem ⊢
  exact .inr (hmem.resolve_left (by simp [containsPair]))

/-- Pairs that are sorted out among themselves first join a queue as they do one by one. -/
theorem foldl_offer_foldl :
    (pairs.foldl offer children).foldl offer waiting =
      pairs.foldl offer (children.foldl offer waiting) := by
  induction pairs generalizing children with
  | nil => rfl
  | cons c rest ih =>
      rw [List.foldl_cons, List.foldl_cons, ih]
      congr 1
      by_cases hmem : containsPair children c = true
      · rw [offer, if_pos hmem, offer, if_pos (containsPair_foldl_offer.2 (.inr hmem))]
      · rw [offer, if_neg hmem, List.foldl_append]
        rfl

theorem enqueueChildren_offers {pending pending' : List BlockPair} {tail tail' : ℕ}
    (h : enqueueChildren children pending tail = .ok (pending', tail')) :
    pending' = children.foldl offer pending := by
  induction children generalizing pending tail with
  | nil =>
      cases h
      rfl
  | cons c rest ih =>
      rw [enqueueChildren] at h
      rw [List.foldl_cons, offer]
      split_ifs at h ⊢
      · exact ih h
      · exact ih h

/-- The order of the marks does not matter, nor how often a block is marked. -/
theorem uncovered_congr {seen seen' : List ℕ} (h : ∀ b, b ∈ seen ↔ b ∈ seen') :
    uncovered seen pairs = uncovered seen' pairs := by
  refine List.filter_congr fun c _ => decide_eq_decide.2 ?_
  have hset : ∀ b, (⟨seen⟩ : Bitmap).isSet b = (⟨seen'⟩ : Bitmap).isSet b := fun b =>
    Bool.eq_iff_iff.2 (by rw [Bitmap.isSet_iff, Bitmap.isSet_iff, h])
  simp only [Bitmap.Covers, hset]

end Offer

/-! ## When a scan succeeds -/

/-- A visit collects the pairs that its pair names, in their order, as far as they are not
covered. -/
def Collects (visit : BlockPair → Bitmap → Except Error (Bitmap × List BlockPair))
    (names : BlockPair → List BlockPair) : Prop :=
  ∀ p used used' children, visit p used = .ok (used', children) →
    children = (uncovered (used.marked ++ [p.a, p.b]) (names p)).foldl offer []

section Succeeds

variable {visit : BlockPair → Bitmap → Except Error (Bitmap × List BlockPair)}
  {succ : BlockPair → BlockPair → Prop} {own : BlockPair → ℕ → Prop}
  {names : BlockPair → List BlockPair} {marks : BlockPair → List ℕ} {root : BlockPair}
  {done pending : List BlockPair} {tail : ℕ} {used : Bitmap}

/-- The marks of a search are those of the pairs it has come to. -/
theorem Searching.seen (hv : Visits visit succ own) (hmarks : ∀ p b, b ∈ marks p ↔ own p b)
    (h : Searching visit root done pending tail used) (b : ℕ) :
    b ∈ used.marked ↔ b ∈ done.flatMap marks := by
  rw [h.marked hv, List.mem_flatMap]
  simp only [hmarks]

/-- What a visit and the queueing behind it leave waiting. -/
theorem Searching.joins (hv : Visits visit succ own) (hmarks : ∀ p b, b ∈ marks p ↔ own p b)
    (hcollects : Collects visit names) {pair : BlockPair} {pending' children : List BlockPair}
    {tail' : ℕ} {used' : Bitmap} (h : Searching visit root done (pair :: pending) tail used)
    (hvisit : visit pair used = .ok (used', children))
    (hqueue : enqueueChildren children pending tail = .ok (pending', tail')) :
    pending' = (uncovered (done.flatMap marks ++ [pair.a, pair.b]) (names pair)).foldl offer
      pending := by
  have hseen : ∀ b, b ∈ used.marked ++ [pair.a, pair.b] ↔
      b ∈ done.flatMap marks ++ [pair.a, pair.b] := fun b => by
    rw [List.mem_append, List.mem_append, h.seen hv hmarks]
  rw [enqueueChildren_offers hqueue, hcollects _ _ _ _ hvisit, foldl_offer_foldl,
    uncovered_congr hseen]
  rfl

/-- A scan that succeeds goes through all that the search comes to. -/
theorem ComesTo.searching (hv : Visits visit succ own) (hmarks : ∀ p b, b ∈ marks p ↔ own p b)
    (hcollects : Collects visit names) (h : ComesTo names marks root done pending)
    (hscan : scanLoop visit maxQueuedPairs [root] 1 .empty = .ok used) :
    ∃ tail used₀ fuel, Searching visit root done pending tail used₀ ∧
      scanLoop visit fuel pending tail used₀ = .ok used := by
  induction h with
  | start => exact ⟨1, .empty, maxQueuedPairs, .start, hscan⟩
  | @visit done waiting pair _ ih =>
      obtain ⟨tail, used₀, fuel, hsearch, hrest⟩ := ih
      cases fuel with
      | zero => cases hrest
      | succ fuel =>
          rw [scanLoop, bind_eq_ok] at hrest
          obtain ⟨⟨used₁, children⟩, hvisit, hrest⟩ := hrest
          obtain ⟨⟨pending₁, tail₁⟩, hqueue, hrest⟩ := bind_eq_ok.1 hrest
          rw [← hsearch.joins hv hmarks hcollects hvisit hqueue]
          exact ⟨tail₁, used₁, fuel, hsearch.visit hvisit hqueue, hrest⟩

/-- The loop goes on while the pairs it comes to can be visited and the queue has a slot for
each. -/
theorem ComesTo.goes_on (hv : Visits visit succ own) (hmarks : ∀ p b, b ∈ marks p ↔ own p b)
    (hcollects : Collects visit names)
    (hvisits : ∀ done p waiting, ComesTo names marks root done (p :: waiting) → ∀ used,
      ((uncovered (used.marked ++ [p.a, p.b]) (names p)).foldl offer []).length ≤ maxQueuedPairs →
        ∃ r, visit p used = .ok r)
    (hroom : ∀ done waiting, ComesTo names marks root done waiting →
      (done ++ waiting).length ≤ maxQueuedPairs)
    {fuel : ℕ} (hcomes : ComesTo names marks root done pending)
    (h : Searching visit root done pending tail used)
    (hfuel : maxQueuedPairs ≤ done.length + fuel) :
    ∃ used', scanLoop visit fuel pending tail used = .ok used' := by
  induction fuel generalizing done pending tail used with
  | zero =>
      have htail := h.tail_eq
      cases pending with
      | nil => exact ⟨used, rfl⟩
      | cons p ps =>
          rw [List.length_cons] at htail
          omega
  | succ fuel ih =>
      cases pending with
      | nil => exact ⟨used, rfl⟩
      | cons p ps =>
          have hnext := hcomes.visit
          have hlen := hroom _ _ hnext
          set next := (uncovered (done.flatMap marks ++ [p.a, p.b]) (names p)).foldl offer ps

          have hseen : ∀ b, b ∈ used.marked ++ [p.a, p.b] ↔
              b ∈ done.flatMap marks ++ [p.a, p.b] := fun b => by
            rw [List.mem_append, List.mem_append, h.seen hv hmarks]
          have hcollected : ((uncovered (used.marked ++ [p.a, p.b]) (names p)).foldl offer
              []).length ≤ maxQueuedPairs := by
            rw [uncovered_congr hseen]
            refine length_foldl_offer_nil.trans (?_ : next.length ≤ maxQueuedPairs)
            rw [List.length_append] at hlen
            omega
          obtain ⟨⟨used₁, children⟩, hvisit⟩ := hvisits done p ps hcomes used hcollected
          have hdistinct := h.distinct hv
          have htail := h.tail_eq.1
          have hjoined : children.foldl offer ps = next := by
            rw [hcollects _ _ _ _ hvisit, foldl_offer_foldl, uncovered_congr hseen]
            rfl
          obtain ⟨⟨pending₁, tail₁⟩, hqueue⟩ : ∃ r, enqueueChildren children ps tail = .ok r := by
            refine exists_enqueueChildren ?_ (by simpa using hdistinct) (h.unvisited hv hvisit)
              fun more hmore hmoreDistinct => (hmoreDistinct.length_le fun q hq => ?_).trans hlen
            · rw [htail]
              simp only [List.length_append, List.length_cons, List.length_nil]
              omega
            · rw [← hjoined]
              rcases List.mem_append.1 hq with hq | hq
              · exact containsPair_of_mem (List.mem_append_left _ hq)
              · refine containsPair_mono (List.subset_append_right ..)
                  (containsPair_foldl_offer.2 ?_)
                exact (List.mem_append.1 hq).imp containsPair_of_mem
                  fun hq => containsPair_of_mem (hmore hq)
          have hpending := h.joins hv hmarks hcollects hvisit hqueue
          obtain ⟨used', hrest⟩ := ih (hpending ▸ hnext) (h.visit hvisit hqueue) (by simp; omega)
          refine ⟨used', ?_⟩
          rw [scanLoop, hvisit]
          simp only [bind, Except.bind, hqueue]
          exact hrest

/-- A scan succeeds exactly when every pair that the search comes to can be visited, with room
for what it names, and the queue has a slot for each. -/
theorem scanLoop_ok_iff (hv : Visits visit succ own) (hmarks : ∀ p b, b ∈ marks p ↔ own p b)
    (hcollects : Collects visit names) {Sound : BlockPair → Prop}
    (hsound : ∀ p used r, visit p used = .ok r → Sound p)
    (hvisits : ∀ p used, Sound p →
      ((uncovered (used.marked ++ [p.a, p.b]) (names p)).foldl offer []).length ≤ maxQueuedPairs →
        ∃ r, visit p used = .ok r) :
    (∃ used, scanLoop visit maxQueuedPairs [root] 1 .empty = .ok used) ↔
      (∀ done p waiting, ComesTo names marks root done (p :: waiting) → Sound p) ∧
        ∀ done waiting, ComesTo names marks root done waiting →
          (done ++ waiting).length ≤ maxQueuedPairs := by
  constructor
  · rintro ⟨used, hscan⟩
    refine ⟨fun done p waiting h => ?_, fun done waiting h => ?_⟩
    · obtain ⟨tail, used₀, fuel, -, hrest⟩ := h.searching hv hmarks hcollects hscan
      cases fuel with
      | zero => cases hrest
      | succ fuel =>
          rw [scanLoop, bind_eq_ok] at hrest
          obtain ⟨r, hvisit, -⟩ := hrest
          exact hsound p used₀ r hvisit
    · obtain ⟨tail, used₀, fuel, hsearch, -⟩ := h.searching hv hmarks hcollects hscan
      rw [List.length_append, ← hsearch.tail_eq.1]
      exact hsearch.tail_eq.2
  · rintro ⟨hall, hroom⟩
    exact ComesTo.start.goes_on hv hmarks hcollects
      (fun done p waiting h used => hvisits p used (hall done p waiting h)) hroom .start
      (Nat.le_add_left ..)

end Succeeds

end Alloc
end LittlefsPure
