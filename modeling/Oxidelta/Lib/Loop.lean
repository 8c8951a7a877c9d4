import Mathlib.Logic.Relation

/-!
# Bounded loops

An imperative `loop`/`while` is modelled by a body that, from the current
state, either stops with a result or yields the state of the next iteration.
`run body fuel s` iterates at most `fuel` times; `none` records that the bound
was reached before the loop stopped, so a model built on `run` can tell a loop
that returns from one that is still going.

The rules the models use:

* `run_of_done`, `run_of_next` — one unfolding of the loop;
* `run_add`, `run_mono` — more fuel never changes a result (fuel independence);
* `run_isSome_of_measure` — a measure that every iteration decreases bounds the
  number of iterations, so the loop stops within `measure + 1` of them;
* `run_invariant` — an invariant kept by every iteration holds of the state in
  which the loop stops, and so gives its postcondition;
* `Reaches`, `Reaches.invariant` — the states the loop passes through, and
  invariants over all of them (not only the last one);
* `run_eq_none_of_forever` — a body that always goes round again never stops;
* `run_map` — a loop whose every iteration maps onto an iteration of another
  loop runs onto that loop: a loop with ghost state projects to the loop
  without it; `Reaches.map` and `Reaches.lift` relate the states the two pass
  through;
* `run_congr` — two bodies that agree on every state of an invariant the
  first keeps give the same loop.
-/

namespace Loop

universe u v

/-- The outcome of one iteration: stop with a result, or go round again. -/
inductive Step (σ : Type u) (β : Type v) where
  | done (b : β)
  | next (s : σ)

variable {σ : Type u} {β : Type v}

/-- Iterate `body` from `s` for at most `fuel` iterations. -/
def run (body : σ → Step σ β) : Nat → σ → Option β
  | 0, _ => none
  | fuel + 1, s =>
    match body s with
    | .done b => some b
    | .next s' => run body fuel s'

variable {body : σ → Step σ β}

@[simp] theorem run_zero (s : σ) : run body 0 s = none := rfl

theorem run_of_done {s : σ} {b : β} (n : Nat) (h : body s = .done b) :
    run body (n + 1) s = some b := by
  simp [run, h]

theorem run_of_next {s s' : σ} (n : Nat) (h : body s = .next s') :
    run body (n + 1) s = run body n s' := by
  simp [run, h]

/-- Two states on which the body does the same thing start the same loop. -/
theorem run_of_body_eq {s s' : σ} (h : body s = body s') (n : Nat) :
    run body (n + 1) s = run body (n + 1) s' := by
  rw [run, run, h]

/-- **Fuel independence.**  A loop that stopped within `n` iterations stops
with the same result under any larger bound. -/
theorem run_add {s : σ} {b : β} :
    ∀ n k, run body n s = some b → run body (n + k) s = some b := by
  intro n
  induction n generalizing s with
  | zero => intro k h; simp at h
  | succ n ih =>
    intro k h
    rw [show n + 1 + k = (n + k) + 1 by omega]
    cases hb : body s with
    | done b' => rw [run_of_done _ hb] at h ⊢; exact h
    | next s' => rw [run_of_next _ hb] at h ⊢; exact ih k h

theorem run_mono {s : σ} {b : β} {n m : Nat} (h : run body n s = some b)
    (hnm : n ≤ m) : run body m s = some b := by
  obtain ⟨k, rfl⟩ : ∃ k, m = n + k := ⟨m - n, by omega⟩
  exact run_add n k h

/-- **Termination by a measure.**  If every iteration from an invariant state
leads to an invariant state of smaller measure, the loop stops within
`μ s + 1` iterations. -/
theorem run_isSome_of_measure (Inv : σ → Prop) (μ : σ → Nat)
    (hstep : ∀ s s', Inv s → body s = .next s' → Inv s' ∧ μ s' < μ s) :
    ∀ s, Inv s → ∀ n, μ s < n → (run body n s).isSome := by
  intro s hs n hn
  induction n generalizing s with
  | zero => omega
  | succ n ih =>
    cases hb : body s with
    | done b => simp [run_of_done _ hb]
    | next s' =>
      obtain ⟨hs', hlt⟩ := hstep s s' hs hb
      rw [run_of_next _ hb]
      exact ih s' hs' (by omega)

/-- **Loop invariant rule.**  An invariant kept by every iteration, and
turned into the postcondition by the iteration that stops, gives the
postcondition of every result of the loop. -/
theorem run_invariant (Inv : σ → Prop) (Post : β → Prop)
    (hnext : ∀ s s', Inv s → body s = .next s' → Inv s')
    (hdone : ∀ s b, Inv s → body s = .done b → Post b) :
    ∀ n s b, Inv s → run body n s = some b → Post b := by
  intro n
  induction n with
  | zero => intro s b _ h; simp at h
  | succ n ih =>
    intro s b hs h
    cases hb : body s with
    | done b' =>
      rw [run_of_done _ hb] at h
      cases h
      exact hdone s _ hs hb
    | next s' =>
      rw [run_of_next _ hb] at h
      exact ih s' b (hnext s s' hs hb) h

/-- **Divergence.**  A body that goes round again from every invariant state,
into an invariant state, never stops, whatever the bound. -/
theorem run_eq_none_of_forever (Inv : σ → Prop)
    (hforever : ∀ s, Inv s → ∃ s', body s = .next s' ∧ Inv s') :
    ∀ n s, Inv s → run body n s = none := by
  intro n
  induction n with
  | zero => intro s _; rfl
  | succ n ih =>
    intro s hs
    obtain ⟨s', hb, hs'⟩ := hforever s hs
    rw [run_of_next _ hb]
    exact ih s' hs'

/-- The states a loop passes through from `s`: `s` itself and every state an
iteration continues into. -/
def Reaches (body : σ → Step σ β) (s : σ) : σ → Prop :=
  Relation.ReflTransGen (fun t t' => body t = .next t') s

/-- An invariant kept by every iteration holds at every state the loop passes
through, not only at the one where it stops. -/
theorem Reaches.invariant (Inv : σ → Prop)
    (hnext : ∀ t t', Inv t → body t = .next t' → Inv t')
    {s t : σ} (hs : Inv s) (hr : Reaches body s t) : Inv t := by
  induction hr with
  | refl => exact hs
  | tail _ hstep ih => exact hnext _ _ ih hstep

/-! ## Projection -/

/-- An iteration's outcome, its state and result mapped. -/
def Step.map {σ' : Type u} {β' : Type v} (f : σ → σ') (g : β → β') : Step σ β → Step σ' β'
  | .done b => .done (g b)
  | .next s => .next (f s)

/-- **Projection.**  When every iteration of `body`, mapped by `f` and `g`, is
the iteration of `body'` from the mapped state, the whole loop of `body`,
under any bound, maps to the loop of `body'`. -/
theorem run_map {σ' : Type u} {β' : Type v} {body' : σ' → Step σ' β'} (f : σ → σ') (g : β → β')
    (h : ∀ s, (body s).map f g = body' (f s)) :
    ∀ n s, (run body n s).map g = run body' n (f s) := by
  intro n
  induction n with
  | zero => intro s; rfl
  | succ n ih =>
    intro s
    rw [run, run, ← h s]
    cases body s with
    | done b => rfl
    | next s' => exact ih s'

/-- Under the same projection, a state the lifted loop passes through maps to a
state the loop without ghost state passes through. -/
theorem Reaches.map {σ' : Type u} {β' : Type v} {body' : σ' → Step σ' β'} (f : σ → σ') (g : β → β')
    (h : ∀ s, (body s).map f g = body' (f s)) {s t : σ} (hr : Reaches body s t) :
    Reaches body' (f s) (f t) := by
  induction hr with
  | refl => exact Relation.ReflTransGen.refl
  | tail _ hstep ih =>
    refine Relation.ReflTransGen.tail ih ?_
    rw [← h, hstep]
    rfl

/-- And every state the loop without ghost state passes through is the image
of one the lifted loop passes through. -/
theorem Reaches.lift {σ' : Type u} {β' : Type v} {body' : σ' → Step σ' β'} (f : σ → σ') (g : β → β')
    (h : ∀ s, (body s).map f g = body' (f s)) {s : σ} {t' : σ'} (hr : Reaches body' (f s) t') :
    ∃ t, f t = t' ∧ Reaches body s t := by
  induction hr with
  | refl => exact ⟨s, rfl, Relation.ReflTransGen.refl⟩
  | tail _ hstep ih =>
    obtain ⟨u, rfl, hu⟩ := ih
    rw [← h] at hstep
    -- the lifted iteration goes on exactly when the projected one does
    cases hb : body u with
    | done b =>
      rw [hb] at hstep
      cases hstep
    | next v =>
      rw [hb] at hstep
      cases hstep
      exact ⟨v, rfl, Relation.ReflTransGen.tail hu hb⟩

/-- **Congruence.**  Bodies that agree on the states of an invariant kept by
the first one run alike from every invariant state. -/
theorem run_congr {body' : σ → Step σ β} (Inv : σ → Prop)
    (hnext : ∀ s s', Inv s → body s = .next s' → Inv s')
    (heq : ∀ s, Inv s → body s = body' s) :
    ∀ n s, Inv s → run body n s = run body' n s := by
  intro n
  induction n with
  | zero => intro s _; rfl
  | succ n ih =>
    intro s hs
    rw [run, run, ← heq s hs]
    cases hb : body s with
    | done b => rfl
    | next s' => exact ih s' (hnext s s' hs hb)

end Loop
