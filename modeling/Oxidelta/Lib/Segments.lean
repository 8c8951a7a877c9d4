import Mathlib.Data.List.Basic
import Mathlib.Algebra.GroupWithZero.Nat

/-!
# Segments that tile a range

A list of pieces, each with a length, laid end to end from a position `p`,
tiles the range `[p, q)` when the lengths are positive, each piece satisfies
a condition at the position where it starts, and the last ends at `q`.  An
encoder's instruction list is such a tiling of its target; a pass that
merges or splits instructions must give another.

* `Tiles`, `Tiles.append`, `Tiles.sum_eq` — the tiling, joining two tilings,
  and the lengths summing to the range;
* `Seams` — a condition on every pair of neighbours, at the position where
  they meet;
* `Tiles.merge` — replacing the first two pieces by one keeps the tiling and
  the seams, given what the merge keeps of the pair;
* `forall_lt_add` — a fact about every position of a merged piece, from the
  fact about each half;
* `windows`, `windowRest` — a list cut into slices of one length and what is
  left, and `windows_append`, `windowRest_append`: cutting a concatenation is
  cutting its first part, then what is left of it followed by the second.

Nothing here names the program being modelled.
-/

namespace Segments

universe u

variable {β : Type u} (len : β → Nat)

section Tiles

variable (P : Nat → β → Prop)

/-- `Tiles len P p q xs`: the pieces `xs`, laid end to end from `p`, are
non-empty, each satisfies `P` at the position where it starts, and together
they end at `q`. -/
def Tiles : Nat → Nat → List β → Prop
  | p, q, [] => p = q
  | p, q, x :: xs => 0 < len x ∧ P p x ∧ Tiles (p + len x) q xs

instance decTiles [∀ p x, Decidable (P p x)] : (p q : Nat) → (xs : List β) →
    Decidable (Tiles len P p q xs)
  | p, q, [] => inferInstanceAs (Decidable (p = q))
  | p, q, x :: xs =>
    have := decTiles (p + len x) q xs
    inferInstanceAs (Decidable (0 < len x ∧ P p x ∧ Tiles len P (p + len x) q xs))

variable {len P}

@[simp] theorem tiles_nil {p q : Nat} : Tiles len P p q [] ↔ p = q := Iff.rfl

@[simp] theorem tiles_cons {p q : Nat} {x : β} {xs : List β} :
    Tiles len P p q (x :: xs) ↔ 0 < len x ∧ P p x ∧ Tiles len P (p + len x) q xs := Iff.rfl

/-- One piece tiles the range it covers. -/
theorem tiles_singleton {p : Nat} {x : β} (hpos : 0 < len x) (hP : P p x) :
    Tiles len P p (p + len x) [x] :=
  ⟨hpos, hP, rfl⟩

/-- Tilings of `[p, q)` and `[q, r)` join into one of `[p, r)`. -/
theorem Tiles.append {q r : Nat} {ys : List β} :
    ∀ {p : Nat} {xs : List β}, Tiles len P p q xs → Tiles len P q r ys →
      Tiles len P p r (xs ++ ys)
  | _, [], h, hys => by cases h; exact hys
  | _, _ :: _, ⟨hpos, hP, hxs⟩, hys => ⟨hpos, hP, hxs.append hys⟩

/-- A tiling of `[p, q)` followed by one piece from `q` to `r`. -/
theorem Tiles.snoc {p q r : Nat} {xs : List β} {x : β} (h : Tiles len P p q xs)
    (hpos : 0 < len x) (hP : P q x) (hr : q + len x = r) : Tiles len P p r (xs ++ [x]) :=
  h.append (hr ▸ tiles_singleton hpos hP)

/-- A tiling under a condition is one under any weaker condition. -/
theorem Tiles.imp {Q : Nat → β → Prop} (hPQ : ∀ p x, P p x → Q p x) :
    ∀ {p q : Nat} {xs : List β}, Tiles len P p q xs → Tiles len Q p q xs
  | _, _, [], h => h
  | p, _, x :: _, ⟨hpos, hP, hxs⟩ => ⟨hpos, hPQ p x hP, hxs.imp hPQ⟩

/-- The lengths of a tiling of `[p, q)` add up to `q - p`. -/
theorem Tiles.sum_eq : ∀ {p q : Nat} {xs : List β}, Tiles len P p q xs →
    p + (xs.map len).sum = q
  | _, _, [], h => by simpa using h
  | p, _, x :: _, ⟨_, _, hxs⟩ => by
    have := hxs.sum_eq
    simp only [List.map_cons, List.sum_cons]
    omega

/-- A tiling ends no earlier than it starts. -/
theorem Tiles.le {p q : Nat} {xs : List β} (h : Tiles len P p q xs) : p ≤ q := by
  have := h.sum_eq
  omega

end Tiles

section Seams

variable (R : Nat → β → β → Prop)

/-- `Seams len R p xs`: every two neighbours of `xs`, laid end to end from
`p`, satisfy `R` at the position where the second starts. -/
def Seams : Nat → List β → Prop
  | p, a :: b :: rest => R (p + len a) a b ∧ Seams (p + len a) (b :: rest)
  | _, _ => True

instance decSeams [∀ p a b, Decidable (R p a b)] : (p : Nat) → (xs : List β) →
    Decidable (Seams len R p xs)
  | p, a :: b :: rest =>
    have := decSeams (p + len a) (b :: rest)
    inferInstanceAs (Decidable (R (p + len a) a b ∧ Seams len R (p + len a) (b :: rest)))
  | _, [] => inferInstanceAs (Decidable True)
  | _, [_] => inferInstanceAs (Decidable True)

variable {len R}

/-- Dropping the first piece keeps the seams of the rest. -/
theorem Seams.tail {p : Nat} {a : β} : ∀ {rest : List β}, Seams len R p (a :: rest) →
    Seams len R (p + len a) rest
  | [], _ => trivial
  | _ :: _, ⟨_, h⟩ => h

/-- **Merging two neighbours.**  Replacing the first two pieces of a tiling
by one piece `m` as long as both, which satisfies `P` wherever the pair does
and meets any right neighbour the way the second piece did, keeps the tiling
and the seams. -/
theorem Tiles.merge {P : Nat → β → Prop} {p q : Nat} {a b m : β} {rest : List β}
    (hlen : len m = len a + len b)
    (hP : P p a → P (p + len a) b → R (p + len a) a b → P p m)
    (hR : ∀ s c, R s b c → R s m c)
    (ht : Tiles len P p q (a :: b :: rest)) (hs : Seams len R p (a :: b :: rest)) :
    Tiles len P p q (m :: rest) ∧ Seams len R p (m :: rest) := by
  obtain ⟨hposa, hPa, hposb, hPb, hrest⟩ := ht
  obtain ⟨hab, hsb⟩ := hs
  have hend : p + len m = p + len a + len b := by omega
  refine ⟨⟨by omega, hP hPa hPb hab, hend ▸ hrest⟩, ?_⟩
  -- the seam after `m` is the seam that followed `b`
  cases rest with
  | nil => trivial
  | cons c rest =>
    obtain ⟨hbc, hsc⟩ := hsb
    exact ⟨hend ▸ hR _ c hbc, hend ▸ hsc⟩

end Seams

section Windows

variable {α : Type u} {w : Nat}

/-- `windows w xs`: the consecutive slices of `xs` of exactly `w` elements,
from its start, as many as fit. -/
def windows (w : Nat) (xs : List α) : List (List α) :=
  (List.range (xs.length / w)).map fun i => (xs.drop (i * w)).take w

/-- What is left of `xs` after its windows of `w`. -/
def windowRest (w : Nat) (xs : List α) : List α :=
  xs.drop (xs.length / w * w)

theorem windows_of_lt {xs : List α} (h : xs.length < w) : windows w xs = [] := by
  simp [windows, Nat.div_eq_of_lt h]

theorem windowRest_of_lt {xs : List α} (h : xs.length < w) : windowRest w xs = xs := by
  simp [windowRest, Nat.div_eq_of_lt h]

/-- The number of windows of a list that holds one more than its tail. -/
theorem length_div_of_le {xs : List α} (hw : 0 < w) (h : w ≤ xs.length) :
    xs.length / w = (xs.drop w).length / w + 1 := by
  have := Nat.sub_mul_div xs.length w 1
  rw [Nat.mul_one] at this
  have hpos : 1 ≤ xs.length / w := (Nat.one_le_div_iff hw).mpr h
  rw [List.length_drop, this]
  omega

/-- A list of at least `w` elements starts with a window. -/
theorem windows_of_le {xs : List α} (hw : 0 < w) (h : w ≤ xs.length) :
    windows w xs = xs.take w :: windows w (xs.drop w) := by
  rw [windows, length_div_of_le hw h, List.range_succ_eq_map]
  simp only [List.map_cons, Nat.zero_mul, List.drop_zero, List.map_map, windows]
  congr 1
  refine List.map_congr_left fun i _ => ?_
  simp [List.drop_drop, Nat.succ_mul, Nat.add_comm]

theorem windowRest_of_le {xs : List α} (hw : 0 < w) (h : w ≤ xs.length) :
    windowRest w xs = windowRest w (xs.drop w) := by
  rw [windowRest, windowRest, length_div_of_le hw h, List.drop_drop]
  congr 1
  rw [Nat.succ_mul, Nat.add_comm]

/-- The windows of a list and what is left after them make up the list. -/
theorem windows_flatten (hw : 0 < w) (xs : List α) :
    (windows w xs).flatten ++ windowRest w xs = xs := by
  by_cases h : w ≤ xs.length
  · rw [windows_of_le hw h, windowRest_of_le hw h, List.flatten_cons, List.append_assoc,
      windows_flatten hw (xs.drop w), List.take_append_drop]
  · rw [windows_of_lt (by omega), windowRest_of_lt (by omega)]
    rfl
termination_by xs.length
decreasing_by simp; omega

/-- Every window has `w` elements. -/
theorem length_of_mem_windows {xs v : List α} (h : v ∈ windows w xs) : v.length = w := by
  obtain ⟨i, hi, rfl⟩ := List.mem_map.mp h
  have hi : i < xs.length / w := List.mem_range.mp hi
  have : (i + 1) * w ≤ xs.length / w * w := Nat.mul_le_mul_right w hi
  have := Nat.div_mul_le_self xs.length w
  simp only [List.length_take, List.length_drop]
  rw [Nat.succ_mul] at *
  omega

/-- Fewer than `w` elements are left after the windows. -/
theorem length_windowRest_lt (hw : 0 < w) (xs : List α) : (windowRest w xs).length < w := by
  have := Nat.div_add_mod xs.length w
  have := Nat.mod_lt xs.length hw
  simp only [windowRest, List.length_drop]
  rw [Nat.mul_comm]
  omega

/-- **Windows of a concatenation.**  Cutting `xs ++ ys` into windows cuts `xs`,
then what is left of `xs` followed by `ys`. -/
theorem windows_append (hw : 0 < w) (xs ys : List α) :
    windows w (xs ++ ys) = windows w xs ++ windows w (windowRest w xs ++ ys) := by
  by_cases h : w ≤ xs.length
  · have hle : w ≤ (xs ++ ys).length := by simp; omega
    rw [windows_of_le hw hle, windows_of_le hw h, windowRest_of_le hw h,
      List.take_append_of_le_length h, List.drop_append_of_le_length h,
      windows_append hw (xs.drop w) ys, List.cons_append]
  · have hlt : xs.length < w := by omega
    rw [@windows_of_lt α w xs hlt, @windowRest_of_lt α w xs hlt, List.nil_append]
termination_by xs.length
decreasing_by simp; omega

theorem windowRest_append (hw : 0 < w) (xs ys : List α) :
    windowRest w (xs ++ ys) = windowRest w (windowRest w xs ++ ys) := by
  by_cases h : w ≤ xs.length
  · have hle : w ≤ (xs ++ ys).length := by simp; omega
    rw [windowRest_of_le hw hle, windowRest_of_le hw h, List.drop_append_of_le_length h,
      windowRest_append hw (xs.drop w) ys]
  · rw [@windowRest_of_lt α w xs (by omega)]
termination_by xs.length
decreasing_by simp; omega

/-- `chunks w xs`: the windows of `w`, then the rest when it is not empty, as
a slice's `chunks(w)` cuts it. -/
def chunks (w : Nat) (xs : List α) : List (List α) :=
  windows w xs ++ if windowRest w xs = [] then [] else [windowRest w xs]

theorem chunks_flatten (hw : 0 < w) (xs : List α) : (chunks w xs).flatten = xs := by
  unfold chunks
  split
  · next hrest => simpa [hrest] using windows_flatten hw xs
  · simpa using windows_flatten hw xs

/-- Every chunk holds from one to `w` elements. -/
theorem length_of_mem_chunks (hw : 0 < w) {xs v : List α} (h : v ∈ chunks w xs) :
    0 < v.length ∧ v.length ≤ w := by
  unfold chunks at h
  rcases List.mem_append.1 h with h | h
  · rw [length_of_mem_windows h]
    exact ⟨hw, Nat.le_refl w⟩
  · split at h
    · cases h
    · next hrest =>
      rw [List.mem_singleton.1 h]
      exact ⟨List.length_pos_iff.2 hrest, Nat.le_of_lt (length_windowRest_lt hw xs)⟩

end Windows

/-- A property of every position of two neighbouring segments, from the
property of every position of each. -/
theorem forall_lt_add {Q : Nat → Prop} {m n : Nat} (h₁ : ∀ i < m, Q i)
    (h₂ : ∀ j < n, Q (m + j)) : ∀ i < m + n, Q i := by
  intro i hi
  by_cases him : i < m
  · exact h₁ i him
  · have := h₂ (i - m) (by omega)
    rwa [Nat.add_sub_cancel' (by omega)] at this

end Segments
