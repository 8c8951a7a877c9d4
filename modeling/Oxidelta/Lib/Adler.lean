import Mathlib.Data.List.Basic
import Mathlib.Tactic.Ring

/-!
# Adler-style sums

An Adler-style checksum of a list keeps two sums: `low`, the sum of the
weights of the elements, and `high`, the sum of the running values of `low`,
so that the first element counts once in `low` and `length` times in
`high`.  A rolling checksum moves its window one element forward from the
two sums alone: the element that leaves is taken out of `low`, and `length`
times out of `high`, to which the new `low` is added.

* `sums` — the two sums, as the fold computes them;
* `sums_cons`, `sums_append_singleton` — the sums of a list one longer at
  either end;
* `sums_roll` — moving the window: the sums of `mid ++ [y]` from those of
  `x :: mid`.

Nothing here names the program being modelled.
-/

namespace Adler

universe u

variable {α : Type u} (weight : α → Nat)

/-- The fold of the two sums, from the values `(low, high)`. -/
def sumsFrom (s : Nat × Nat) (xs : List α) : Nat × Nat :=
  xs.foldl (fun s x => (s.1 + weight x, s.2 + (s.1 + weight x))) s

/-- The two sums of a list: the sum of the weights, and the sum of the
running sums. -/
def sums (xs : List α) : Nat × Nat :=
  sumsFrom weight (0, 0) xs

/-- Folding from any values adds them to the list's own sums, the low value
once for every element. -/
theorem sumsFrom_eq (xs : List α) : ∀ l h : Nat,
    sumsFrom weight (l, h) xs = (l + (sums weight xs).1, h + xs.length * l + (sums weight xs).2) := by
  induction xs with
  | nil => intro l h; simp [sums, sumsFrom]
  | cons x xs ih =>
    intro l h
    have hl := ih (l + weight x) (h + (l + weight x))
    have h0 := ih (0 + weight x) (0 + (0 + weight x))
    simp only [sums, sumsFrom, List.foldl_cons] at hl h0 ⊢
    rw [hl, h0, List.length_cons]
    ext <;> simp only <;> ring

theorem sums_cons (x : α) (xs : List α) :
    sums weight (x :: xs) =
      (weight x + (sums weight xs).1, (xs.length + 1) * weight x + (sums weight xs).2) := by
  have := sumsFrom_eq weight xs (0 + weight x) (0 + (0 + weight x))
  simp only [sums, sumsFrom, List.foldl_cons] at this ⊢
  rw [this]
  ext <;> simp only <;> ring

theorem sums_append_singleton (xs : List α) (y : α) :
    sums weight (xs ++ [y]) =
      ((sums weight xs).1 + weight y, (sums weight xs).2 + ((sums weight xs).1 + weight y)) := by
  simp [sums, sumsFrom, List.foldl_append]

/-- **Rolling the window.**  The window `x :: mid` moves on to `mid ++ [y]`:
`low` loses `x` and gains `y`, and `high` loses `x` once for each element of
the window and gains the new `low`. -/
theorem sums_roll (x y : α) (mid : List α) :
    (sums weight (mid ++ [y])).1 + weight x = (sums weight (x :: mid)).1 + weight y ∧
    (sums weight (mid ++ [y])).2 + (mid.length + 1) * weight x =
      (sums weight (x :: mid)).2 + (sums weight (mid ++ [y])).1 := by
  rw [sums_append_singleton, sums_cons]
  constructor <;> simp only <;> ring

end Adler
