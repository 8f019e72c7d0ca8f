import Mathlib.Tactic.Common

/-!
# Programs with state, errors and events

A `Program` changes a state, may fail, and records events.  A failing program keeps
the state it reached.  Events are recorded as they happen and nothing reads them
back, so the events of a sequence are the events of its parts, in order.

`Triple` is the program logic.  It speaks about the runs whose events all meet a
condition `K`: a proof about `m >>= f` may assume `K` of what `m` recorded, because
a run that records an event outside `K` is not spoken about.  What it says of such a
run is that every event meets an obligation `O`, and that the state meets one of two
postconditions, for returning and for failing.

`Keeps` is the form most proofs use: an invariant that holds before holds after,
however the program ends, and a returned value has a property of its own.

Nothing here names a particular program; states, errors, events and values are
arbitrary types.
-/

namespace Logic

variable {σ ε ω α β : Type}

/-- What a run ends with: its result, the state it reached, the events it recorded,
oldest first. -/
structure Run (σ ε ω α : Type) where
  result : Except ε α
  state : σ
  events : List ω

/-- A program. -/
def Program (σ ε ω α : Type) : Type := σ → Run σ ε ω α

namespace Program

/-- Run a program from a state. -/
def run (m : Program σ ε ω α) (s : σ) : Run σ ε ω α := m s

instance : Monad (Program σ ε ω) where
  pure a := fun s => ⟨.ok a, s, []⟩
  bind m f := fun s =>
    match m s with
    | ⟨.ok a, s, ev⟩ =>
        match f a s with
        | ⟨r, s, ev'⟩ => ⟨r, s, ev ++ ev'⟩
    | ⟨.error e, s, ev⟩ => ⟨.error e, s, ev⟩

instance : MonadStateOf σ (Program σ ε ω) where
  get := fun s => ⟨.ok s, s, []⟩
  set s := fun _ => ⟨.ok (), s, []⟩
  modifyGet f := fun s => ⟨.ok (f s).1, (f s).2, []⟩

/-- Fail. -/
def fail (e : ε) : Program σ ε ω α := fun s => ⟨.error e, s, []⟩

instance : MonadExceptOf ε (Program σ ε ω) where
  throw e := fail e
  tryCatch m h := fun s =>
    match m s with
    | ⟨.ok a, s, ev⟩ => ⟨.ok a, s, ev⟩
    | ⟨.error e, s, ev⟩ =>
        match h e s with
        | ⟨r, s, ev'⟩ => ⟨r, s, ev ++ ev'⟩

/-- Record an event. -/
def note (e : ω) : Program σ ε ω Unit := fun s => ⟨.ok (), s, [e]⟩

/-- Compute from the state, without changing it. -/
def query (f : σ → Except ε α) : Program σ ε ω α := fun s => ⟨f s, s, []⟩

/-- A computation that needs no state. -/
def lift (r : Except ε α) : Program σ ε ω α := fun s => ⟨r, s, []⟩

/-- Run a program and hand its result over as a value. -/
def attempt (m : Program σ ε ω α) : Program σ ε ω (Except ε α) := fun s =>
  match m s with
  | ⟨r, s, ev⟩ => ⟨.ok r, s, ev⟩

/-! ### Single runs -/

section Runs

variable {m : Program σ ε ω α} {f : α → Program σ ε ω β} {s : σ}

/-- A sequence whose first part returns. -/
theorem bind_of_ok {a : α} (h : (m s).result = .ok a) :
    (m >>= f) s = ⟨(f a (m s).state).result, (f a (m s).state).state,
      (m s).events ++ (f a (m s).state).events⟩ := by
  cases hm : m s with
  | mk r s₁ ev =>
      rw [hm] at h
      cases h
      show (match m s with
        | ⟨.ok a, s, ev⟩ => (⟨(f a s).result, (f a s).state, ev ++ (f a s).events⟩ : Run σ ε ω β)
        | ⟨.error e, s, ev⟩ => ⟨.error e, s, ev⟩) = _
      rw [hm]

/-- A sequence whose first part fails. -/
theorem bind_of_error {e : ε} (h : (m s).result = .error e) :
    (m >>= f) s = ⟨.error e, (m s).state, (m s).events⟩ := by
  cases hm : m s with
  | mk r s₁ ev =>
      rw [hm] at h
      cases h
      show (match m s with
        | ⟨.ok a, s, ev⟩ => (⟨(f a s).result, (f a s).state, ev ++ (f a s).events⟩ : Run σ ε ω β)
        | ⟨.error e, s, ev⟩ => ⟨.error e, s, ev⟩) = _
      rw [hm]

/-- A run of a sequence whose first part is known to return. -/
theorem bind_run {s' : σ} {a : α} {ev : List ω} (h : m s = ⟨.ok a, s', ev⟩) :
    (m >>= f) s = ⟨(f a s').result, (f a s').state, ev ++ (f a s').events⟩ := by
  rw [bind_of_ok (by rw [h]), h]

/-- A sequence whose first part only reads. -/
theorem bind_silent {a : α} (h : m s = ⟨.ok a, s, []⟩) : (m >>= f) s = f a s := bind_run h

theorem attempt_run (m : Program σ ε ω α) (s : σ) :
    attempt m s = ⟨.ok (m s).result, (m s).state, (m s).events⟩ := rfl

theorem get_bind_run (f : σ → Program σ ε ω β) (s : σ) :
    ((MonadStateOf.get : Program σ ε ω σ) >>= f) s = f s s := by
  rw [bind_of_ok (a := s) rfl]
  rfl

end Runs

end Program

/-! ## Triples -/

/-- Every event of a run meets the condition. -/
def AllEvents (K : ω → Prop) (events : List ω) : Prop := ∀ e ∈ events, K e

instance {K : ω → Prop} [DecidablePred K] (events : List ω) : Decidable (AllEvents K events) :=
  inferInstanceAs (Decidable (∀ e ∈ events, K e))

theorem allEvents_append {K : ω → Prop} {xs ys : List ω} :
    AllEvents K (xs ++ ys) ↔ AllEvents K xs ∧ AllEvents K ys := by
  simp only [AllEvents, List.mem_append]
  constructor
  · exact fun h => ⟨fun e he => h e (.inl he), fun e he => h e (.inr he)⟩
  · rintro ⟨h₁, h₂⟩ e (he | he)
    · exact h₁ e he
    · exact h₂ e he

@[simp] theorem allEvents_nil {K : ω → Prop} : AllEvents K [] := fun _ h => absurd h (by simp)

@[simp] theorem allEvents_singleton {K : ω → Prop} {e : ω} : AllEvents K [e] ↔ K e := by
  simp [AllEvents]

/-- The postcondition of a run: one for a value, one for an error. -/
def Run.Post (r : Run σ ε ω α) (Q : α → σ → Prop) (E : ε → σ → Prop) : Prop :=
  match r.result with
  | .ok a => Q a r.state
  | .error e => E e r.state

/-- The triple. -/
structure Triple (K O : ω → Prop) (P : σ → Prop) (m : Program σ ε ω α) (Q : α → σ → Prop)
    (E : ε → σ → Prop) : Prop where
  post : ∀ s, P s → AllEvents K (m s).events → AllEvents O (m s).events ∧ (m s).Post Q E

namespace Triple

variable {K O : ω → Prop} {P P' : σ → Prop} {Q Q' R : α → σ → Prop} {S : β → σ → Prop}
  {E E' : ε → σ → Prop} {m : Program σ ε ω α}

theorem conseq (h : Triple K O P m Q E) (hP : ∀ s, P' s → P s) (hQ : ∀ a s, Q a s → Q' a s)
    (hE : ∀ e s, E e s → E' e s) : Triple K O P' m Q' E' := by
  refine ⟨fun s hs hev => ?_⟩
  obtain ⟨hobl, hpost⟩ := h.post s (hP s hs) hev
  refine ⟨hobl, ?_⟩
  unfold Run.Post at hpost ⊢
  split
  · next a ha => rw [ha] at hpost; exact hQ _ _ hpost
  · next e he => rw [he] at hpost; exact hE _ _ hpost

theorem strengthen (h : Triple K O P m Q E) (hP : ∀ s, P' s → P s) : Triple K O P' m Q E :=
  h.conseq hP (fun _ _ => id) (fun _ _ => id)

theorem weaken (h : Triple K O P m Q E) (hQ : ∀ a s, Q a s → Q' a s) : Triple K O P m Q' E :=
  h.conseq (fun _ => id) hQ (fun _ _ => id)

/-- A triple under a weaker obligation. -/
theorem oblige {O' : ω → Prop} (h : Triple K O P m Q E) (hO : ∀ e, O e → O' e) :
    Triple K O' P m Q E := by
  refine ⟨fun s hs hev => ?_⟩
  obtain ⟨hobl, hpost⟩ := h.post s hs hev
  exact ⟨fun e he => hO e (hobl e he), hpost⟩

/-- A triple from runs that are known to return. -/
theorem of_run (h : ∀ s, P s → ∃ a s' ev, m s = ⟨.ok a, s', ev⟩ ∧ AllEvents O ev ∧ Q a s') :
    Triple K O P m Q E := by
  refine ⟨fun s hs _ => ?_⟩
  obtain ⟨a, s', ev, hrun, hev, hQ⟩ := h s hs
  rw [hrun]
  exact ⟨hev, hQ⟩

theorem pure {a : α} (h : ∀ s, P s → Q a s) :
    Triple K O P (Pure.pure a : Program σ ε ω α) Q E :=
  ⟨fun s hs _ => ⟨allEvents_nil, h s hs⟩⟩

theorem fail {e : ε} (h : ∀ s, P s → E e s) :
    Triple K O P (throw e : Program σ ε ω α) Q E :=
  ⟨fun s hs _ => ⟨allEvents_nil, h s hs⟩⟩

theorem bind {f : α → Program σ ε ω β} (hm : Triple K O P m R E)
    (hf : ∀ a, Triple K O (R a) (f a) S E) : Triple K O P (m >>= f) S E := by
  refine ⟨fun s hs hev => ?_⟩
  have hm' := hm.post s hs
  change AllEvents K (match m s with
    | ⟨.ok a, s, ev⟩ => (⟨(f a s).result, (f a s).state, ev ++ (f a s).events⟩ : Run σ ε ω β)
    | ⟨.error e, s, ev⟩ => ⟨.error e, s, ev⟩).events at hev
  change AllEvents O (match m s with
    | ⟨.ok a, s, ev⟩ => (⟨(f a s).result, (f a s).state, ev ++ (f a s).events⟩ : Run σ ε ω β)
    | ⟨.error e, s, ev⟩ => ⟨.error e, s, ev⟩).events ∧ (match m s with
    | ⟨.ok a, s, ev⟩ => (⟨(f a s).result, (f a s).state, ev ++ (f a s).events⟩ : Run σ ε ω β)
    | ⟨.error e, s, ev⟩ => ⟨.error e, s, ev⟩).Post S E
  match hr : m s with
  | ⟨.ok a, s₁, ev⟩ =>
      rw [hr] at hm' hev
      obtain ⟨hev₁, hev₂⟩ := allEvents_append.1 hev
      obtain ⟨hobl₁, hpost₁⟩ := hm' hev₁
      obtain ⟨hobl₂, hpost₂⟩ := (hf a).post s₁ hpost₁ hev₂
      exact ⟨allEvents_append.2 ⟨hobl₁, hobl₂⟩, hpost₂⟩
  | ⟨.error e, s₁, ev⟩ =>
      rw [hr] at hm' hev
      exact hm' hev

/-- A sequence whose first part hands nothing over. -/
theorem seq {m' : Program σ ε ω β} {R : σ → Prop} (hm : Triple K O P m (fun _ => R) E)
    (hm' : Triple K O R m' S E) : Triple K O P (m >>= fun _ => m') S E :=
  bind hm fun _ => hm'

theorem get {Q : σ → σ → Prop} (h : ∀ s, P s → Q s s) :
    Triple K O P (MonadStateOf.get : Program σ ε ω σ) Q E :=
  ⟨fun s hs _ => ⟨allEvents_nil, h s hs⟩⟩

/-- Read the state and go on from it. -/
theorem get_bind {f : σ → Program σ ε ω β}
    (h : ∀ s, P s → Triple K O (fun s' => s' = s) (f s) S E) :
    Triple K O P (MonadStateOf.get >>= f) S E := by
  refine bind (R := fun a s => s = a ∧ P a) (get fun s hs => ⟨rfl, hs⟩) fun a => ?_
  refine ⟨fun s hs hev => ?_⟩
  obtain ⟨rfl, hP⟩ := hs
  exact (h s hP).post s rfl hev

theorem modify {f : σ → σ} {Q : Unit → σ → Prop} (h : ∀ s, P s → Q () (f s)) :
    Triple K O P (modify f : Program σ ε ω Unit) Q E :=
  ⟨fun s hs _ => ⟨allEvents_nil, h s hs⟩⟩

theorem set {s' : σ} {Q : Unit → σ → Prop} (h : ∀ s, P s → Q () s') :
    Triple K O P (set s' : Program σ ε ω Unit) Q E :=
  ⟨fun s hs _ => ⟨allEvents_nil, h s hs⟩⟩

theorem note {e : ω} {Q : Unit → σ → Prop} (h : ∀ s, P s → K e → O e ∧ Q () s) :
    Triple K O P (Program.note e : Program σ ε ω Unit) Q E := by
  refine ⟨fun s hs hev => ?_⟩
  obtain ⟨hobl, hpost⟩ := h s hs (allEvents_singleton.1 hev)
  exact ⟨allEvents_singleton.2 hobl, hpost⟩

theorem query {f : σ → Except ε α} (hok : ∀ s a, P s → f s = .ok a → Q a s)
    (herr : ∀ s e, P s → f s = .error e → E e s) :
    Triple K O P (Program.query f : Program σ ε ω α) Q E := by
  refine ⟨fun s hs _ => ⟨allEvents_nil, ?_⟩⟩
  change (⟨f s, s, []⟩ : Run σ ε ω α).Post Q E
  unfold Run.Post
  cases hf : f s with
  | ok a => exact hok s a hs hf
  | error e => exact herr s e hs hf

theorem lift {r : Except ε α} (hok : ∀ s a, P s → r = .ok a → Q a s)
    (herr : ∀ s e, P s → r = .error e → E e s) :
    Triple K O P (Program.lift r : Program σ ε ω α) Q E :=
  query (f := fun _ => r) hok herr

theorem attempt {R : Except ε α → σ → Prop}
    (h : Triple K O P m (fun a => R (.ok a)) (fun e => R (.error e))) :
    Triple K O P (Program.attempt m) R E := by
  refine ⟨fun s hs hev => ?_⟩
  obtain ⟨hobl, hpost⟩ := h.post s hs hev
  refine ⟨hobl, ?_⟩
  change R (m s).result (m s).state
  unfold Run.Post at hpost
  cases hr : (m s).result with
  | ok a => rw [hr] at hpost; exact hpost
  | error e => rw [hr] at hpost; exact hpost

theorem ite {c : Prop} [Decidable c] {m₁ m₂ : Program σ ε ω α}
    (h₁ : c → Triple K O P m₁ Q E) (h₂ : ¬ c → Triple K O P m₂ Q E) :
    Triple K O P (if c then m₁ else m₂) Q E := by
  split
  · next h => exact h₁ h
  · next h => exact h₂ h

/-- A triple for each initial state. -/
theorem each (h : ∀ s, P s → Triple K O (fun s' => s' = s) m Q E) : Triple K O P m Q E :=
  ⟨fun s hs hev => (h s hs).post s rfl hev⟩

/-- From one initial state, the postconditions speak about its run. -/
theorem self {s : σ} (h : Triple K O (fun s' => s' = s) m Q E) :
    Triple K O (fun s' => s' = s) m (fun a s' => Q a s' ∧ (m s).result = .ok a ∧ (m s).state = s')
      fun e s' => E e s' ∧ (m s).result = .error e ∧ (m s).state = s' := by
  refine ⟨fun s' hs hev => ?_⟩
  subst hs
  obtain ⟨hobl, hpost⟩ := h.post s' rfl hev
  refine ⟨hobl, ?_⟩
  unfold Run.Post at hpost ⊢
  cases hresult : (m s').result with
  | ok a => rw [hresult] at hpost; exact ⟨hpost, rfl, rfl⟩
  | error e => rw [hresult] at hpost; exact ⟨hpost, rfl, rfl⟩

/-- A triple under a hypothesis on the initial state that does not depend on it. -/
theorem pre {p : Prop} (h : p → Triple K O P m Q E) : Triple K O (fun s => P s ∧ p) m Q E :=
  ⟨fun s hs hev => (h hs.2).post s hs.1 hev⟩

/-- A triple for each value of a variable that the initial state determines. -/
theorem exists_pre {ι : Type} {P : ι → σ → Prop} (h : ∀ i, Triple K O (P i) m Q E) :
    Triple K O (fun s => ∃ i, P i s) m Q E :=
  ⟨fun s ⟨i, hs⟩ hev => (h i).post s hs hev⟩

/-- A triple from either of two preconditions. -/
theorem or_pre {P' : σ → Prop} (h : Triple K O P m Q E) (h' : Triple K O P' m Q E) :
    Triple K O (fun s => P s ∨ P' s) m Q E :=
  ⟨fun s hs hev => hs.elim (fun hs => h.post s hs hev) fun hs => h'.post s hs hev⟩

/-- What a returning run ends with. -/
theorem returns (h : Triple K O P m Q E) {s : σ} (hs : P s) (hev : AllEvents K (m s).events) {a : α}
    (ha : (m s).result = .ok a) : Q a (m s).state := by
  have hpost := (h.post s hs hev).2
  unfold Run.Post at hpost
  rw [ha] at hpost
  exact hpost

/-- A property of every value the program can return. -/
theorem result {p : α → Prop} (h : Triple K O P m Q E)
    (hp : ∀ s a, (m s).result = .ok a → p a) :
    Triple K O P m (fun a s => Q a s ∧ p a) E := by
  refine ⟨fun s hs hev => ?_⟩
  obtain ⟨hobl, hpost⟩ := h.post s hs hev
  refine ⟨hobl, ?_⟩
  unfold Run.Post at hpost ⊢
  split
  · next a ha => rw [ha] at hpost; exact ⟨hpost, hp s a ha⟩
  · next e he => rw [he] at hpost; exact hpost

/-- What a run ends with however it ends. -/
theorem ends {R : σ → Prop} (h : Triple K O P m Q E) (hQ : ∀ a s, Q a s → R s)
    (hE : ∀ e s, E e s → R s) {s : σ} (hs : P s) (hev : AllEvents K (m s).events) :
    R (m s).state := by
  have hpost := (h.post s hs hev).2
  unfold Run.Post at hpost
  split at hpost
  · exact hQ _ _ hpost
  · exact hE _ _ hpost

end Triple

/-! ## Invariants -/

/-- The program keeps an invariant, and what it returns has a property. -/
def Keeps (K : ω → Prop) (I : σ → Prop) (m : Program σ ε ω α) (Q : α → Prop) : Prop :=
  Triple K (fun _ => True) I m (fun a s => I s ∧ Q a) (fun _ s => I s)

namespace Keeps

variable {K : ω → Prop} {I : σ → Prop} {Q Q' R : α → Prop} {S : β → Prop}
  {m : Program σ ε ω α}

theorem weaken (h : Keeps K I m Q) (hQ : ∀ a, Q a → Q' a) : Keeps K I m Q' :=
  Triple.weaken h fun a _ ha => ⟨ha.1, hQ a ha.2⟩

theorem trivial (h : Keeps K I m Q) : Keeps K I m (fun _ => True) :=
  h.weaken fun _ _ => True.intro

theorem pure {a : α} (h : Q a) : Keeps K I (Pure.pure a : Program σ ε ω α) Q :=
  Triple.pure fun _ hs => ⟨hs, h⟩

theorem fail {e : ε} : Keeps K I (throw e : Program σ ε ω α) Q :=
  Triple.fail fun _ hs => hs

theorem bind {f : α → Program σ ε ω β} (hm : Keeps K I m R) (hf : ∀ a, R a → Keeps K I (f a) S) :
    Keeps K I (m >>= f) S :=
  Triple.bind hm fun a => Triple.pre (hf a)

theorem get : Keeps K I (MonadStateOf.get : Program σ ε ω σ) I :=
  Triple.get fun _ hs => ⟨hs, hs⟩

theorem modify {f : σ → σ} (h : ∀ s, I s → I (f s)) :
    Keeps K I (modify f : Program σ ε ω Unit) (fun _ => True) :=
  Triple.modify fun s hs => ⟨h s hs, True.intro⟩

theorem set {s' : σ} (h : I s') :
    Keeps K I (set s' : Program σ ε ω Unit) (fun _ => True) :=
  Triple.set fun _ _ => ⟨h, True.intro⟩

theorem note {e : ω} : Keeps K I (Program.note e : Program σ ε ω Unit) (fun _ => K e) :=
  Triple.note fun _ hs he => ⟨True.intro, hs, he⟩

theorem query {f : σ → Except ε α} (h : ∀ s a, I s → f s = .ok a → Q a) :
    Keeps K I (Program.query f : Program σ ε ω α) Q :=
  Triple.query (fun s a hs ha => ⟨hs, h s a hs ha⟩) (fun _ _ hs _ => hs)

theorem lift {r : Except ε α} (h : ∀ a, r = .ok a → Q a) :
    Keeps K I (Program.lift r : Program σ ε ω α) Q :=
  Triple.lift (fun _ a hs ha => ⟨hs, h a ha⟩) (fun _ _ hs _ => hs)

theorem attempt (h : Keeps K I m Q) :
    Keeps K I (Program.attempt m) (fun r => ∀ a, r = .ok a → Q a) := by
  refine Triple.attempt (Triple.conseq h (fun _ => id) ?_ ?_)
  · rintro a s ⟨hs, ha⟩
    exact ⟨hs, fun b hb => by cases hb; exact ha⟩
  · exact fun e s hs => ⟨hs, fun b hb => by cases hb⟩

/-- A sequence whose first part hands nothing over. -/
theorem seq {m' : Program σ ε ω β} (hm : Keeps K I m R) (hm' : Keeps K I m' S) :
    Keeps K I (m >>= fun _ => m') S :=
  bind hm fun _ _ => hm'

theorem ite {c : Prop} [Decidable c] {m₁ m₂ : Program σ ε ω α} (h₁ : c → Keeps K I m₁ Q)
    (h₂ : ¬ c → Keeps K I m₂ Q) : Keeps K I (if c then m₁ else m₂) Q := by
  split
  · next h => exact h₁ h
  · next h => exact h₂ h

/-- The run lemma: the invariant holds after a run whose events meet the condition. -/
theorem state (h : Keeps K I m Q) {s : σ} (hs : I s) (hev : AllEvents K (m s).events) :
    I (m s).state :=
  Triple.ends h (fun _ _ hs => hs.1) (fun _ _ hs => hs) hs hev

end Keeps

end Logic
