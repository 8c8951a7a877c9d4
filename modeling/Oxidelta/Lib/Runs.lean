import Mathlib.Order.Bounds.Defs
import Mathlib.Data.List.Induction
import Mathlib.Data.Set.Operations

/-!
# The run at the end of a list

A run-length detector scans a list counting how often its current element
has repeated: `runStep` is one element of that scan.  After a whole list the
scan holds the list's last element and the length of the longest run of it
that ends the list (`foldl_runStep`), as `IsGreatest` of `RunsAtEnd`.

Nothing here names the program being modelled.
-/

namespace Runs

variable {α : Type*}

/-- The lengths of the runs of `c` that end `xs`. -/
def RunsAtEnd (xs : List α) (c : α) : Set Nat :=
  {k | k ≤ xs.length ∧ ∀ i < k, xs[xs.length - 1 - i]? = some c}

theorem zero_mem_runsAtEnd (xs : List α) (c : α) : 0 ∈ RunsAtEnd xs c :=
  ⟨Nat.zero_le _, fun _ h => absurd h (Nat.not_lt_zero _)⟩

/-- A run that ends `ys ++ [a]` is `a` followed back by a run that ends
`ys`. -/
theorem succ_mem_runsAtEnd_append {ys : List α} {a c : α} {k : Nat} :
    k + 1 ∈ RunsAtEnd (ys ++ [a]) c ↔ a = c ∧ k ∈ RunsAtEnd ys c := by
  simp only [RunsAtEnd, Set.mem_ofPred_eq, List.length_append, List.length_singleton]
  constructor
  · rintro ⟨hk, hrun⟩
    have hlast := hrun 0 (Nat.succ_pos k)
    rw [show ys.length + 1 - 1 - 0 = ys.length by omega, List.getElem?_append_right (Nat.le_refl _),
      Nat.sub_self, List.getElem?_singleton] at hlast
    refine ⟨by simpa using hlast, by omega, fun i hi => ?_⟩
    have := hrun (i + 1) (by omega)
    rwa [show ys.length + 1 - 1 - (i + 1) = ys.length - 1 - i by omega,
      List.getElem?_append_left (by omega)] at this
  · rintro ⟨rfl, hk, hrun⟩
    refine ⟨by omega, fun i hi => ?_⟩
    cases i with
    | zero => simp
    | succ i =>
      rw [show ys.length + 1 - 1 - (i + 1) = ys.length - 1 - i by omega,
        List.getElem?_append_left (by omega)]
      exact hrun i (by omega)

/-- Appending an element to a list extends the longest run of it by one. -/
theorem isGreatest_runsAtEnd_append {ys : List α} {a : α} {k : Nat}
    (h : IsGreatest (RunsAtEnd ys a) k) : IsGreatest (RunsAtEnd (ys ++ [a]) a) (k + 1) := by
  refine ⟨succ_mem_runsAtEnd_append.mpr ⟨rfl, h.1⟩, fun j hj => ?_⟩
  cases j with
  | zero => exact Nat.zero_le _
  | succ j => exact Nat.succ_le_succ (h.2 (succ_mem_runsAtEnd_append.mp hj).2)

/-- No run of `a` ends a list whose last element is not `a`. -/
theorem isGreatest_runsAtEnd_zero {ys : List α} {a : α} (h : ys.getLast? ≠ some a) :
    IsGreatest (RunsAtEnd ys a) 0 := by
  refine ⟨zero_mem_runsAtEnd ys a, fun j hj => ?_⟩
  obtain ⟨hle, hrun⟩ := hj
  by_contra hpos
  have hlast := hrun 0 (by omega)
  rw [Nat.sub_zero, ← List.getLast?_eq_getElem?] at hlast
  exact h hlast

variable [DecidableEq α]

/-- One element of the scan: the run goes on, or a new one starts. -/
def runStep (s : Nat × α) (a : α) : Nat × α :=
  if a = s.2 then (s.1 + 1, s.2) else (1, a)

/-- **The scan finds the run at the end.**  Over a non-empty list, from any
initial element, the scan ends at the last element and the length of the
longest run of it that ends the list. -/
theorem foldl_runStep (c₀ : α) : ∀ xs : List α, xs ≠ [] →
    xs.getLast? = some (xs.foldl runStep (0, c₀)).2 ∧
      IsGreatest (RunsAtEnd xs (xs.foldl runStep (0, c₀)).2) (xs.foldl runStep (0, c₀)).1 := by
  intro xs
  induction xs using List.reverseRecOn with
  | nil => exact fun h => absurd rfl h
  | append_singleton ys a ih =>
    intro _
    rw [List.foldl_append, List.foldl_cons, List.foldl_nil, List.getLast?_concat]
    by_cases hys : ys = []
    · -- the first element starts the first run
      subst hys
      have hstep : runStep (0, c₀) a = (1, a) := by
        unfold runStep
        split <;> simp_all
      rw [List.foldl_nil, hstep]
      exact ⟨rfl, isGreatest_runsAtEnd_append (isGreatest_runsAtEnd_zero (by simp))⟩
    · obtain ⟨hlast, hgreat⟩ := ih hys
      unfold runStep
      split
      · next heq =>
        rw [heq]
        exact ⟨rfl, isGreatest_runsAtEnd_append hgreat⟩
      · next hne =>
        refine ⟨rfl, isGreatest_runsAtEnd_append (isGreatest_runsAtEnd_zero ?_)⟩
        rw [hlast]
        exact fun h => hne (Option.some.inj h).symm

end Runs
