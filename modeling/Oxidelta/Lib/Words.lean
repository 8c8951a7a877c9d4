import Mathlib.Data.Nat.Size
import Mathlib.Data.Nat.Bitwise
import Mathlib.Data.List.Induction
import Mathlib.Tactic.Ring

/-!
# Bytes read as machine words

Word-at-a-time code loads a few bytes as one little-endian integer
(`from_le_bytes`, an unaligned `read`), combines two such words, and finds
the first or the last byte where they differ from `trailing_zeros` or
`leading_zeros` divided by eight.  This file gives the meaning of those
steps over the bytes:

* `leWord` — the little-endian value of a list of bytes;
* `leWord_xor_eq_zero` — two words of the same length are equal exactly when
  their exclusive or is zero;
* `trailingZeros_xor` — the trailing zeros of the exclusive or of two
  different words, divided by eight, are the index of the first byte where
  they differ;
* `leadingZeros_xor` — the leading zeros, divided by eight, count the bytes
  after the last one where they differ.

Nothing here names the program being modelled.
-/

namespace Words

/-- The little-endian value of a list of bytes. -/
def leWord : List UInt8 → Nat
  | [] => 0
  | b :: bs => b.toNat + 256 * leWord bs

/-- `trailing_zeros` of a `w`-bit word: the zero bits below its lowest set
bit, or `w` for zero. -/
def trailingZeros : Nat → Nat → Nat
  | 0, _ => 0
  | w + 1, x => if x % 2 = 1 then 0 else trailingZeros w (x / 2) + 1

/-- `leading_zeros` of a `w`-bit word: the zero bits above its highest set
bit. -/
def leadingZeros (w x : Nat) : Nat :=
  w - x.size

@[simp] theorem leWord_nil : leWord [] = 0 := rfl

@[simp] theorem leWord_cons (b : UInt8) (bs : List UInt8) :
    leWord (b :: bs) = b.toNat + 256 * leWord bs := rfl

theorem leWord_append (xs ys : List UInt8) :
    leWord (xs ++ ys) = leWord xs + 256 ^ xs.length * leWord ys := by
  induction xs with
  | nil => simp
  | cons x xs ih =>
    rw [List.cons_append, leWord_cons, leWord_cons, ih, List.length_cons, Nat.pow_succ]
    ring

theorem leWord_lt (bs : List UInt8) : leWord bs < 256 ^ bs.length := by
  induction bs with
  | nil => simp
  | cons b bs ih =>
    have := b.toNat_lt
    rw [leWord_cons, List.length_cons, Nat.pow_succ]
    omega

/-- The exclusive or of two numbers split at the same bit. -/
theorem add_two_pow_mul_xor {k a b : Nat} (ha : a < 2 ^ k) (hb : b < 2 ^ k) (A B : Nat) :
    (a + 2 ^ k * A) ^^^ (b + 2 ^ k * B) = (a ^^^ b) + 2 ^ k * (A ^^^ B) := by
  have hab : a ^^^ b < 2 ^ k := Nat.xor_lt_two_pow ha hb
  apply Nat.eq_of_testBit_eq
  intro i
  rw [Nat.testBit_xor, Nat.add_comm a, Nat.add_comm b, Nat.add_comm (a ^^^ b),
    Nat.testBit_two_pow_mul_add _ ha, Nat.testBit_two_pow_mul_add _ hb,
    Nat.testBit_two_pow_mul_add _ hab]
  split <;> simp [Nat.testBit_xor]

/-- The exclusive or of two numbers split at the same byte. -/
theorem byte_add_xor {a b : Nat} (ha : a < 256) (hb : b < 256) (A B : Nat) :
    (a + 256 * A) ^^^ (b + 256 * B) = (a ^^^ b) + 256 * (A ^^^ B) :=
  add_two_pow_mul_xor (k := 8) ha hb A B

theorem trailingZeros_two_mul (w y : Nat) : trailingZeros (w + 1) (2 * y) = trailingZeros w y + 1 := by
  simp [trailingZeros]

theorem trailingZeros_256_mul (w y : Nat) :
    trailingZeros (w + 8) (256 * y) = trailingZeros w y + 8 := by
  rw [show (256 : Nat) * y = 2 * (2 * (2 * (2 * (2 * (2 * (2 * (2 * y))))))) by ring]
  simp only [trailingZeros_two_mul]

/-- A number with a set bit below `k` has fewer than `k` trailing zeros. -/
theorem trailingZeros_lt {k : Nat} : ∀ {w x : Nat}, k ≤ w → x % 2 ^ k ≠ 0 → trailingZeros w x < k := by
  induction k with
  | zero => intro w x _ hx; exact absurd (Nat.mod_one x) hx
  | succ k ih =>
    intro w x hw hx
    obtain ⟨w, rfl⟩ : ∃ v, w = v + 1 := ⟨w - 1, by omega⟩
    unfold trailingZeros
    split
    · omega
    · have hx2 : x = 2 * (x / 2) := by omega
      have hhalf : x / 2 % 2 ^ k ≠ 0 := by
        rw [Nat.pow_succ, Nat.mul_comm, hx2, Nat.mul_mod_mul_left] at hx
        omega
      have := ih (w := w) (by omega) hhalf
      omega

/-- Two words are equal exactly when their exclusive or is zero. -/
theorem leWord_xor_eq_zero : ∀ (xs ys : List UInt8), xs.length = ys.length →
    (leWord xs ^^^ leWord ys = 0 ↔ xs = ys)
  | [], [], _ => by simp
  | x :: xs, y :: ys, h => by
    have hrest := leWord_xor_eq_zero xs ys (by simpa using h)
    rw [leWord_cons, leWord_cons, byte_add_xor x.toNat_lt y.toNat_lt, Nat.add_eq_zero_iff,
      Nat.xor_eq_zero_iff, Nat.mul_eq_zero, List.cons.injEq, ← hrest, ← UInt8.toNat_inj]
    simp

/-- **The first differing byte.**  Of two different words of the same
length, the trailing zeros of their exclusive or, divided by eight, are the
index of the first byte where they differ. -/
theorem trailingZeros_xor : ∀ (xs ys : List UInt8) (w : Nat), xs.length = ys.length →
    8 * xs.length ≤ w → leWord xs ^^^ leWord ys ≠ 0 →
    trailingZeros w (leWord xs ^^^ leWord ys) / 8 < xs.length ∧
      (∀ j < trailingZeros w (leWord xs ^^^ leWord ys) / 8, xs[j]? = ys[j]?) ∧
      xs[trailingZeros w (leWord xs ^^^ leWord ys) / 8]? ≠
        ys[trailingZeros w (leWord xs ^^^ leWord ys) / 8]?
  | [], [], _, _, _, hne => by simp at hne
  | x :: xs, y :: ys, w, hlen, hw, hne => by
    simp only [leWord_cons, List.length_cons] at hne hw hlen ⊢
    rw [byte_add_xor x.toNat_lt y.toNat_lt] at hne ⊢
    by_cases hxy : x = y
    · -- the first bytes agree: the difference is further on
      subst hxy
      simp only [Nat.xor_self, Nat.zero_add] at hne ⊢
      obtain ⟨w, rfl⟩ : ∃ v, w = v + 8 := ⟨w - 8, by omega⟩
      rw [trailingZeros_256_mul]
      have hne' : leWord xs ^^^ leWord ys ≠ 0 := by omega
      obtain ⟨hlt, heq, hdiff⟩ := trailingZeros_xor xs ys w (by omega) (by omega) hne'
      rw [show (trailingZeros w (leWord xs ^^^ leWord ys) + 8) / 8 =
        trailingZeros w (leWord xs ^^^ leWord ys) / 8 + 1 by omega]
      refine ⟨by omega, fun j hj => ?_, by simpa using hdiff⟩
      cases j with
      | zero => rfl
      | succ j => simpa using heq j (by omega)
    · -- the first bytes differ: fewer than eight trailing zeros
      have hxy' : x.toNat ^^^ y.toNat ≠ 0 := by
        rw [Ne, Nat.xor_eq_zero_iff, UInt8.toNat_inj]
        exact hxy
      have hbyte : x.toNat ^^^ y.toNat < 2 ^ 8 := Nat.xor_lt_two_pow x.toNat_lt y.toNat_lt
      have hlt : trailingZeros w ((x.toNat ^^^ y.toNat) + 256 * (leWord xs ^^^ leWord ys)) < 8 :=
        trailingZeros_lt (k := 8) (by omega) (by
          rw [show (256 : Nat) = 2 ^ 8 from rfl, Nat.add_mul_mod_self_left]; omega)
      rw [show trailingZeros w ((x.toNat ^^^ y.toNat) + 256 * (leWord xs ^^^ leWord ys)) / 8 = 0 by
        omega]
      exact ⟨by omega, fun j hj => absurd hj (Nat.not_lt_zero j), by simpa using hxy⟩

/-- **The last differing byte.**  Of two different words of the same
length, the leading zeros of their exclusive or, divided by eight, count
the bytes after the last one where they differ. -/
theorem leadingZeros_xor (xs : List UInt8) : ∀ (ys : List UInt8), xs.length = ys.length →
    leWord xs ^^^ leWord ys ≠ 0 →
    leadingZeros (8 * xs.length) (leWord xs ^^^ leWord ys) / 8 < xs.length ∧
      (∀ j < leadingZeros (8 * xs.length) (leWord xs ^^^ leWord ys) / 8,
        xs[xs.length - 1 - j]? = ys[xs.length - 1 - j]?) ∧
      xs[xs.length - 1 - leadingZeros (8 * xs.length) (leWord xs ^^^ leWord ys) / 8]? ≠
        ys[xs.length - 1 - leadingZeros (8 * xs.length) (leWord xs ^^^ leWord ys) / 8]? := by
  induction xs using List.reverseRecOn with
  | nil =>
    intro ys hlen hne
    cases ys with
    | nil => simp at hne
    | cons => simp at hlen
  | append_singleton xs x ih =>
    intro ys hlen hne
    obtain ⟨ys, y, rfl⟩ : ∃ ys' y, ys = ys' ++ [y] := by
      rcases List.eq_nil_or_concat ys with h | ⟨ys', y, h⟩
      · simp [h] at hlen
      · exact ⟨ys', y, by rw [h, List.concat_eq_append]⟩
    have hlen' : xs.length = ys.length := by simpa using hlen
    have hlo : leWord xs < 2 ^ (8 * xs.length) := by rw [Nat.pow_mul]; exact leWord_lt xs
    have hlo' : leWord ys < 2 ^ (8 * xs.length) := by rw [Nat.pow_mul, hlen']; exact leWord_lt ys
    have hv : leWord xs ^^^ leWord ys < 2 ^ (8 * xs.length) := Nat.xor_lt_two_pow hlo hlo'
    have hsplit := add_two_pow_mul_xor hlo hlo' x.toNat y.toNat
    have hpow : (256 : Nat) ^ xs.length = 2 ^ (8 * xs.length) := by rw [Nat.pow_mul]
    simp only [leWord_append, leWord_cons, leWord_nil, Nat.mul_zero, Nat.add_zero,
      List.length_append, List.length_singleton, hpow, ← hlen'] at hne ⊢
    rw [hsplit] at hne ⊢
    have hsize : ∀ v : Nat, v < 2 ^ (8 * xs.length) → v.size ≤ 8 * xs.length :=
      fun v hv => Nat.size_le.mpr hv
    by_cases hxy : x = y
    · -- the last bytes agree: the difference is further back
      subst hxy
      simp only [Nat.xor_self, Nat.mul_zero, Nat.add_zero] at hne ⊢
      obtain ⟨hlt, heq, hdiff⟩ := ih ys hlen' hne
      have := hsize _ hv
      have hd : leadingZeros (8 * (xs.length + 1)) (leWord xs ^^^ leWord ys) / 8 =
          leadingZeros (8 * xs.length) (leWord xs ^^^ leWord ys) / 8 + 1 := by
        simp only [leadingZeros]
        omega
      rw [hd]
      refine ⟨by omega, fun j hj => ?_, ?_⟩
      · cases j with
        | zero => simp [hlen']
        | succ j =>
          have := heq j (by omega)
          rw [List.getElem?_append_left (by omega), List.getElem?_append_left (by omega)]
          rw [show xs.length + 1 - 1 - (j + 1) = xs.length - 1 - j by omega]
          exact this
      · rw [List.getElem?_append_left (by omega), List.getElem?_append_left (by omega)]
        rw [show xs.length + 1 - 1 - (leadingZeros (8 * xs.length) (leWord xs ^^^ leWord ys) / 8 + 1) =
          xs.length - 1 - leadingZeros (8 * xs.length) (leWord xs ^^^ leWord ys) / 8 by omega]
        exact hdiff
    · -- the last bytes differ: fewer than eight leading zeros
      have hxy' : 0 < x.toNat ^^^ y.toNat := by
        rw [Nat.pos_iff_ne_zero, Ne, Nat.xor_eq_zero_iff, UInt8.toNat_inj]
        exact hxy
      have hbyte : x.toNat ^^^ y.toNat < 2 ^ 8 := Nat.xor_lt_two_pow x.toNat_lt y.toNat_lt
      have hge : 8 * xs.length < ((leWord xs ^^^ leWord ys) +
          2 ^ (8 * xs.length) * (x.toNat ^^^ y.toNat)).size := by
        rw [Nat.lt_size]
        have := Nat.le_mul_of_pos_right (2 ^ (8 * xs.length)) hxy'
        omega
      have hle : ((leWord xs ^^^ leWord ys) +
          2 ^ (8 * xs.length) * (x.toNat ^^^ y.toNat)).size ≤ 8 * (xs.length + 1) := by
        rw [Nat.size_le, Nat.mul_succ, Nat.pow_add]
        have : 2 ^ (8 * xs.length) * (x.toNat ^^^ y.toNat) ≤ 2 ^ (8 * xs.length) * (2 ^ 8 - 1) :=
          Nat.mul_le_mul_left _ (by omega)
        rw [Nat.mul_sub, Nat.mul_one] at this
        have := Nat.two_pow_pos (8 * xs.length)
        omega
      have hd : leadingZeros (8 * (xs.length + 1)) ((leWord xs ^^^ leWord ys) +
          2 ^ (8 * xs.length) * (x.toNat ^^^ y.toNat)) / 8 = 0 := by
        simp only [leadingZeros]
        omega
      rw [hd]
      refine ⟨by omega, fun j hj => absurd hj (Nat.not_lt_zero j), ?_⟩
      simp [hlen', hxy]

end Words
