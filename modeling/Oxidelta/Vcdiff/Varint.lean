import Mathlib.Data.Nat.Size
import Mathlib.Data.List.ModifyLast
import Mathlib.Data.List.Induction
import Mathlib.Tactic.Ring
import Oxidelta.Lib.Rust

/-!
# Variable-length integers (`vcdiff/varint.rs`)

RFC 3284 integers are written base 128, most significant group first, with
the top bit set on every byte except the last.  `encode_u64` fills a
ten-byte scratch buffer from its end, setting the top bit everywhere, and then
clears it on the last byte; the readers accumulate seven bits per byte and test
an overflow mask before each shift; `sizeof_u64` computes the length from the
bit length of the value.

The model keeps the three formulations apart, as the source does, and proves
what makes them agree:

* `encodeU64_eq` — the encoder writes the base-128 digits of the value;
* `varintLoop_encodeU64` — the readers decode the encoder's bytes followed by
  any suffix, for every value of the reader's width, consuming exactly them
  (`readU64_encodeU64`, `readU32_encodeU64`, `streamReadU64_encodeU64`);
* `encodeU64_length` — `sizeof_u64` is the number of bytes the encoder writes.

Values are natural numbers; a `u64` is a value below `2 ^ 64`.
-/

namespace Oxidelta.Vcdiff

open Rust

/-- `MAX_VARINT_LEN`: the length of the encoder's scratch buffer. -/
def maxVarintLen : Nat := 10

/-- `U32_OVERFLOW_MASK`: bits that must be clear before a 32-bit `<< 7`. -/
def u32OverflowMask : Nat := 0xFE000000

/-- `U64_OVERFLOW_MASK`: bits that must be clear before a 64-bit `<< 7`. -/
def u64OverflowMask : Nat := 0xFE00000000000000

/-- `VarIntError`. -/
inductive VarIntError where
  | overflow
  | underflow
  deriving Repr, DecidableEq

/-! ## Encoding -/

/-- The loop of `encode_u64`: `i` is the index below the bytes written so far
(`buf[i..]`, which is `buf`), and each turn writes the low seven bits of `num`
with the top bit set, then shifts. -/
def encodeU64Fill : Nat → Nat → List UInt8 → List UInt8
  | 0, _, buf => buf
  | i + 1, num, buf =>
    let buf := (UInt8.ofNat num &&& 0x7F ||| 0x80) :: buf
    if num >>> 7 = 0 then buf else encodeU64Fill i (num >>> 7) buf

/-- `encode_u64`: the bytes `buf[MAX_VARINT_LEN - len..]` whose length it
returns, after `buf[MAX_VARINT_LEN - 1] &= 0x7F`.  `write_u64`, `write_u32`
and `write_usize` write exactly these bytes. -/
def encodeU64 (num : Nat) : List UInt8 :=
  (encodeU64Fill maxVarintLen num []).modifyLast (· &&& 0x7F)

/-- `encode_u32`: `encode_u64` of the value widened to `u64`. -/
def encodeU32 (num : Nat) : List UInt8 :=
  encodeU64 num

/-! ## Decoding -/

/-- The loop shared by `read_u64`, `read_u32` and their streaming versions,
which differ in their mask and in the errors they return at the end of the
input (`eof`) and on overflow (`ovf`): `val` is the accumulator, `i` the index
of the byte at hand.  The result is the value, the number of bytes consumed
and the unread rest.  The shift needs no truncation: the mask check leaves
`val` seven bits short of the width. -/
def varintLoop {ε : Type} (eof ovf : ε) (mask : Nat) :
    List UInt8 → Nat → Nat → Except ε (Nat × Nat × List UInt8)
  | [], _, _ => .error eof
  | byte :: rest, val, i =>
    if val &&& mask ≠ 0 then .error ovf
    else
      let val := val <<< 7 ||| (byte &&& 0x7F).toNat
      if byte &&& 0x80 = 0 then .ok (val, i + 1, rest) else varintLoop eof ovf mask rest val (i + 1)

/-- `read_u64`: the value and the number of bytes consumed. -/
def readU64 (data : List UInt8) : Except VarIntError (Nat × Nat) :=
  (varintLoop .underflow .overflow u64OverflowMask data 0 0).map fun r => (r.1, r.2.1)

/-- `read_u32`. -/
def readU32 (data : List UInt8) : Except VarIntError (Nat × Nat) :=
  (varintLoop .underflow .overflow u32OverflowMask data 0 0).map fun r => (r.1, r.2.1)

/-- `stream_read_u64` on an in-memory reader: each turn reads one byte with
`read_exact` (an `UnexpectedEof` error at the end), then tests the mask.
`stream_read_usize` is the same on a 64-bit target, where the conversion to
`usize` cannot fail. -/
def streamReadU64 : ReadM IoError Nat := fun r =>
  (varintLoop (.err IoError.eof) (.err (IoError.new .invalidData "varint overflow"))
    u64OverflowMask r 0 0).map fun r => (r.1, r.2.2)

/-! ## Sizes -/

/-- `leading_zeros` of a `width`-bit value. -/
def leadingZeros (width num : Nat) : Nat := width - num.size

/-- The shared body of `sizeof_u64` and `sizeof_u32`:
`((width - leading_zeros).max(1).div_ceil(7)).min(maxLen)`. -/
def sizeofWidth (width maxLen num : Nat) : Nat :=
  let bits := width - leadingZeros width num
  min ((max bits 1 + 6) / 7) maxLen

/-- `sizeof_u64` (and `sizeof_usize`). -/
def sizeofU64 (num : Nat) : Nat := sizeofWidth 64 10 num

/-- `sizeof_u32`. -/
def sizeofU32 (num : Nat) : Nat := sizeofWidth 32 5 num

/-! ## Byte arithmetic -/

theorem low7_toNat (b : UInt8) : (b &&& 0x7F).toNat = b.toNat % 128 := by
  rw [UInt8.toNat_and]
  exact Nat.and_two_pow_sub_one_eq_mod b.toNat 7

theorem and_0x80_eq_zero (b : UInt8) : b &&& 0x80 = 0 ↔ b.toNat < 128 := by
  have h : ∀ x < 256, (x &&& 128 = 0 ↔ x < 128) := by decide +kernel
  rw [← UInt8.toNat_inj, UInt8.toNat_and]
  exact h b.toNat b.toNat_lt

/-- The byte of a continuation group. -/
theorem contByte_toNat (n : Nat) : (UInt8.ofNat n &&& 0x7F ||| 0x80).toNat = n % 128 + 128 := by
  rw [UInt8.toNat_or, low7_toNat, UInt8.toNat_ofNat']
  have h : (0x80 : UInt8).toNat = 2 ^ 7 := rfl
  rw [h, Nat.mod_mod_of_dvd _ (by decide : 128 ∣ 2 ^ 8),
    Nat.or_two_pow_eq_add_of_lt (by omega)]

theorem shiftLeft_or_low7 (val : Nat) (b : UInt8) :
    val <<< 7 ||| (b &&& 0x7F).toNat = val * 128 + b.toNat % 128 := by
  rw [low7_toNat, Nat.shiftLeft_eq, Nat.mul_comm,
    ← Nat.two_pow_add_eq_or_of_lt (by omega : b.toNat % 128 < 2 ^ 7)]

/-- The overflow mask of a `width`-bit reader is its top seven bits. -/
theorem and_topMask_eq_zero (width val : Nat) (hw : 7 ≤ width) (hval : val < 2 ^ width) :
    val &&& 127 * 2 ^ (width - 7) = 0 ↔ val < 2 ^ (width - 7) := by
  constructor
  · intro h
    apply Nat.lt_pow_two_of_testBit
    intro i hi
    by_cases hiw : i < width
    · have hbit := congrArg (fun x => Nat.testBit x i) h
      simp only [Nat.testBit_and, Nat.testBit_mul_two_pow, Nat.zero_testBit] at hbit
      have h127 : (127 : Nat).testBit (i - (width - 7)) = true := by
        have hlt : i - (width - 7) < 7 := by omega
        have : ∀ j : Fin 7, (127 : Nat).testBit j.val = true := by decide
        exact this ⟨_, hlt⟩
      simp [hi, h127] at hbit
      exact hbit
    · exact Nat.testBit_lt_two_pow (Nat.lt_of_lt_of_le hval (Nat.pow_le_pow_right (by omega) (by omega)))
  · intro h
    apply Nat.eq_of_testBit_eq
    intro i
    simp only [Nat.testBit_and, Nat.testBit_mul_two_pow, Nat.zero_testBit]
    by_cases hi : width - 7 ≤ i
    · rw [Nat.testBit_lt_two_pow (Nat.lt_of_lt_of_le h (Nat.pow_le_pow_right (by omega) hi))]
      simp
    · simp [hi]

theorem u64OverflowMask_eq : u64OverflowMask = 127 * 2 ^ (64 - 7) := by
  simp [u64OverflowMask]

theorem u32OverflowMask_eq : u32OverflowMask = 127 * 2 ^ (32 - 7) := by
  simp [u32OverflowMask]


/-- Clearing the top bit of a continuation byte gives its low seven bits. -/
theorem contByte_and_0x7F (b : UInt8) : (b &&& 0x7F ||| 0x80) &&& 0x7F = b &&& 0x7F := by
  have h : ∀ x < 256, ((x &&& 127) ||| 128) &&& 127 = x &&& 127 := by decide +kernel
  rw [← UInt8.toNat_inj, UInt8.toNat_and, UInt8.toNat_or, UInt8.toNat_and]
  exact h b.toNat b.toNat_lt

/-! ## The digits the encoder writes -/

/-- The base-128 digits of `n`, most significant first, each with the top bit
set: what `encode_u64`'s loop leaves in the buffer. -/
def contBytes (n : Nat) : List UInt8 :=
  if n < 128 then [UInt8.ofNat n &&& 0x7F ||| 0x80]
  else contBytes (n / 128) ++ [UInt8.ofNat n &&& 0x7F ||| 0x80]
termination_by n
decreasing_by omega

theorem contBytes_of_lt {n : Nat} (h : n < 128) : contBytes n = [UInt8.ofNat n &&& 0x7F ||| 0x80] := by
  rw [contBytes, if_pos h]

theorem contBytes_of_ge {n : Nat} (h : ¬ n < 128) :
    contBytes n = contBytes (n / 128) ++ [UInt8.ofNat n &&& 0x7F ||| 0x80] := by
  rw [contBytes, if_neg h]

/-- The encoder's loop writes the digits in front of what it has written,
provided the ten-byte buffer is long enough for them. -/
theorem encodeU64Fill_eq (i : Nat) :
    ∀ n buf, n < 128 ^ (i + 1) → encodeU64Fill (i + 1) n buf = contBytes n ++ buf := by
  induction i with
  | zero =>
    intro n buf hn
    have h : n >>> 7 = 0 := by rw [Nat.shiftRight_eq_div_pow]; omega
    simp [encodeU64Fill, h, contBytes_of_lt (show n < 128 by omega)]
  | succ i ih =>
    intro n buf hn
    by_cases hsmall : n < 128
    · have h : n >>> 7 = 0 := by rw [Nat.shiftRight_eq_div_pow]; omega
      simp [encodeU64Fill, h, contBytes_of_lt hsmall]
    · have hshift : n >>> 7 = n / 128 := by rw [Nat.shiftRight_eq_div_pow]
      have hne : n >>> 7 ≠ 0 := by rw [hshift]; omega
      have hlt : n / 128 < 128 ^ (i + 1) := by
        rw [Nat.div_lt_iff_lt_mul (by omega), ← Nat.pow_succ]; exact hn
      rw [encodeU64Fill, if_neg hne, hshift, ih (n / 128) _ hlt, contBytes_of_ge hsmall, List.append_assoc, List.singleton_append]

/-- **The encoder writes the base-128 digits of the value**: the leading
digits with the continuation bit, the last one without. -/
theorem encodeU64_eq {n : Nat} (hn : n < 2 ^ 70) :
    encodeU64 n = (if n < 128 then [] else contBytes (n / 128)) ++ [UInt8.ofNat n &&& 0x7F] := by
  have hfill := encodeU64Fill_eq 9 n [] (by rw [show (128 : Nat) ^ (9 + 1) = 2 ^ 70 by norm_num]; exact hn)
  unfold encodeU64
  rw [show maxVarintLen = 9 + 1 from rfl, hfill, List.append_nil]
  by_cases hsmall : n < 128
  · rw [contBytes_of_lt hsmall, if_pos hsmall]
    simp [List.modifyLast, List.modifyLast.go, contByte_and_0x7F]
  · rw [contBytes_of_ge hsmall, if_neg hsmall, List.modifyLast_concat, contByte_and_0x7F]

theorem contBytes_length (n : Nat) :
    (contBytes n).length = if n < 128 then 1 else (contBytes (n / 128)).length + 1 := by
  by_cases h : n < 128
  · simp [contBytes_of_lt h, h]
  · simp [contBytes_of_ge h, h]

/-! ## Reading the digits back -/

section Reading

variable {ε : Type} (eof ovf : ε) (width : Nat)

/-- Reading continuation digits shifts them into the accumulator, as long as
the accumulated value stays within the width. -/
theorem varintLoop_contBytes (hw : 7 ≤ width) :
    ∀ m acc i rest, acc * 128 ^ (contBytes m).length + m < 2 ^ width →
      varintLoop eof ovf (127 * 2 ^ (width - 7)) (contBytes m ++ rest) acc i =
        varintLoop eof ovf (127 * 2 ^ (width - 7)) rest
          (acc * 128 ^ (contBytes m).length + m) (i + (contBytes m).length) := by
  intro m
  induction m using Nat.strong_induction_on with
  | _ m ih =>
    intro acc i rest hfit
    have hpow : 2 ^ width = 2 ^ (width - 7) * 128 := by
      rw [show (128 : Nat) = 2 ^ 7 by norm_num, ← Nat.pow_add]; congr 1; omega
    -- the byte of digit `m % 128`, read on top of an accumulator `v`
    have hbyte : ∀ v j, v * 128 + m % 128 < 2 ^ width →
        varintLoop eof ovf (127 * 2 ^ (width - 7)) ((UInt8.ofNat m &&& 0x7F ||| 0x80) :: rest) v j =
          varintLoop eof ovf (127 * 2 ^ (width - 7)) rest (v * 128 + m % 128) (j + 1) := by
      intro v j hv
      have hclear : v &&& 127 * 2 ^ (width - 7) = 0 :=
        (and_topMask_eq_zero width v hw (by omega)).mpr (by omega)
      have hcont : ¬ ((UInt8.ofNat m &&& 0x7F ||| 0x80) &&& 0x80 = 0) := by
        rw [and_0x80_eq_zero, contByte_toNat]; omega
      have hlow : (UInt8.ofNat m &&& 0x7F ||| 0x80).toNat % 128 = m % 128 := by
        rw [contByte_toNat]; omega
      simp only [varintLoop, hclear, ne_eq, not_true_eq_false, if_false, hcont,
        shiftLeft_or_low7, hlow]
    by_cases hsmall : m < 128
    · rw [contBytes_of_lt hsmall] at hfit ⊢
      simp only [List.length_singleton, pow_one] at hfit ⊢
      rw [List.singleton_append, hbyte acc i (by rwa [Nat.mod_eq_of_lt hsmall])]
      rw [Nat.mod_eq_of_lt hsmall]
    · have hlen := contBytes_length m
      rw [if_neg hsmall] at hlen
      rw [hlen] at hfit ⊢
      -- the leading digits are read first, onto `acc`, then the last one
      have hdiv : (acc * 128 ^ (contBytes (m / 128)).length + m / 128) * 128 + m % 128 =
          acc * 128 ^ ((contBytes (m / 128)).length + 1) + m := by
        rw [pow_succ, Nat.add_mul, Nat.add_assoc, Nat.mul_assoc, Nat.mul_comm (m / 128) 128,
          Nat.div_add_mod]
      have hfit' : acc * 128 ^ (contBytes (m / 128)).length + m / 128 < 2 ^ width := by omega
      rw [contBytes_of_ge hsmall, List.append_assoc, ih (m / 128) (by omega) acc i _ hfit',
        List.singleton_append, hbyte _ _ (by rw [hdiv]; exact hfit), hdiv, Nat.add_assoc]

/-- **Round trip.**  Every value of the reader's width is decoded from the
encoder's bytes followed by any suffix, consuming exactly those bytes. -/
theorem varintLoop_encodeU64 (hw : 7 ≤ width) (hw70 : width ≤ 70) {n : Nat} (hn : n < 2 ^ width)
    (i : Nat) (rest : List UInt8) :
    varintLoop eof ovf (127 * 2 ^ (width - 7)) (encodeU64 n ++ rest) 0 i =
      .ok (n, i + (encodeU64 n).length, rest) := by
  have hn70 : n < 2 ^ 70 := Nat.lt_of_lt_of_le hn (Nat.pow_le_pow_right (by omega) hw70)
  have hpow : 2 ^ width = 2 ^ (width - 7) * 128 := by
    rw [show (128 : Nat) = 2 ^ 7 by norm_num, ← Nat.pow_add]; congr 1; omega
  have hlast : ∀ v j, v * 128 + n % 128 < 2 ^ width →
      varintLoop eof ovf (127 * 2 ^ (width - 7)) ((UInt8.ofNat n &&& 0x7F) :: rest) v j =
        .ok (v * 128 + n % 128, j + 1, rest) := by
    intro v j hv
    have hclear : v &&& 127 * 2 ^ (width - 7) = 0 :=
      (and_topMask_eq_zero width v hw (by omega)).mpr (by omega)
    have hlow : (UInt8.ofNat n &&& 0x7F).toNat = n % 128 := by
      rw [low7_toNat, UInt8.toNat_ofNat']; omega
    have hend : (UInt8.ofNat n &&& 0x7F) &&& 0x80 = 0 := by
      rw [and_0x80_eq_zero, hlow]; omega
    simp only [varintLoop, hclear, ne_eq, not_true_eq_false, if_false, hend, if_true,
      shiftLeft_or_low7]
    congr 2
    omega
  rw [encodeU64_eq hn70]
  by_cases hsmall : n < 128
  · rw [if_pos hsmall, List.nil_append, List.singleton_append, hlast 0 i (by omega)]
    simp [Nat.mod_eq_of_lt hsmall]
  · rw [if_neg hsmall, List.append_assoc,
      varintLoop_contBytes eof ovf width hw (n / 128) 0 i _ (by simp; omega),
      List.singleton_append, hlast _ _ (by simp; omega)]
    simp only [Nat.zero_mul, Nat.zero_add, List.length_append, List.length_singleton]
    congr 2
    omega

end Reading

theorem readU64_encodeU64 {n : Nat} (hn : n < 2 ^ 64) (rest : List UInt8) :
    readU64 (encodeU64 n ++ rest) = .ok (n, (encodeU64 n).length) := by
  rw [readU64, u64OverflowMask_eq, varintLoop_encodeU64 _ _ 64 (by omega) (by omega) hn 0 rest]
  simp [Except.map]

theorem readU32_encodeU64 {n : Nat} (hn : n < 2 ^ 32) (rest : List UInt8) :
    readU32 (encodeU64 n ++ rest) = .ok (n, (encodeU64 n).length) := by
  rw [readU32, u32OverflowMask_eq, varintLoop_encodeU64 _ _ 32 (by omega) (by omega) hn 0 rest]
  simp [Except.map]

theorem streamReadU64_encodeU64 {n : Nat} (hn : n < 2 ^ 64) (rest : List UInt8) :
    streamReadU64 (encodeU64 n ++ rest) = .ok (n, rest) := by
  rw [streamReadU64, u64OverflowMask_eq, varintLoop_encodeU64 _ _ 64 (by omega) (by omega) hn 0 rest]
  simp [Except.map]


/-! ## Lengths -/

/-- The number of digits is the least `L ≥ 1` with `n < 128 ^ L`. -/
theorem contBytes_length_le_iff (n L : Nat) : (contBytes n).length ≤ L + 1 ↔ n < 128 ^ (L + 1) := by
  induction n using Nat.strong_induction_on generalizing L with
  | _ n ih =>
    by_cases hsmall : n < 128
    · have hpow : 128 ≤ 128 ^ (L + 1) := Nat.le_self_pow (by omega) _
      simp [contBytes_of_lt hsmall]
      omega
    · rw [contBytes_length, if_neg hsmall]
      cases L with
      | zero =>
        have hpos : 1 ≤ (contBytes (n / 128)).length := by
          rw [contBytes_length]; split <;> omega
        simp only [Nat.zero_add, pow_one]
        omega
      | succ L =>
        rw [Nat.add_le_add_iff_right, ih (n / 128) (by omega) L,
          Nat.div_lt_iff_lt_mul (by omega), ← Nat.pow_succ]

theorem encodeU64_length_eq_contBytes {n : Nat} (hn : n < 2 ^ 70) :
    (encodeU64 n).length = (contBytes n).length := by
  rw [encodeU64_eq hn, contBytes_length]
  split <;> simp

/-- Below the cap, the size formula is `⌈max(bit length, 1) / 7⌉`. -/
theorem sizeofWidth_eq {width maxLen n : Nat} (hw : 0 < width) (hn : n < 2 ^ width)
    (hcap : (width + 6) / 7 ≤ maxLen) :
    sizeofWidth width maxLen n = (max n.size 1 + 6) / 7 := by
  have hsize : n.size ≤ width := Nat.size_le.mpr hn
  have hbits : width - leadingZeros width n = n.size := by
    unfold leadingZeros; omega
  have hlen : (max n.size 1 + 6) / 7 ≤ maxLen := by omega
  rw [sizeofWidth, hbits, Nat.min_eq_left hlen]

/-- The size formula is the least `L ≥ 1` with `n < 128 ^ L`. -/
theorem sizeofWidth_le_iff {width maxLen n : Nat} (hw : 0 < width) (hn : n < 2 ^ width)
    (hcap : (width + 6) / 7 ≤ maxLen) (L : Nat) :
    sizeofWidth width maxLen n ≤ L + 1 ↔ n < 128 ^ (L + 1) := by
  have h128 : (128 : Nat) ^ (L + 1) = 2 ^ (7 * (L + 1)) := by
    rw [Nat.pow_mul]
  rw [sizeofWidth_eq hw hn hcap, h128, ← Nat.size_le]
  omega

/-- **`sizeof` agrees with the encoder.**  For every value of the width,
`sizeof_u64` (`sizeof_u32`) is the number of bytes `encode_u64` writes. -/
theorem encodeU64_length_eq_sizeofWidth {width maxLen n : Nat} (hw0 : 0 < width) (hw : width ≤ 70)
    (hn : n < 2 ^ width) (hcap : (width + 6) / 7 ≤ maxLen) :
    (encodeU64 n).length = sizeofWidth width maxLen n := by
  have hn70 : n < 2 ^ 70 := Nat.lt_of_lt_of_le hn (Nat.pow_le_pow_right (by omega) hw)
  rw [encodeU64_length_eq_contBytes hn70]
  -- both are at least one, and bounded by the same numbers
  have hle : ∀ a b : Nat, 1 ≤ a → 1 ≤ b → (∀ L, a ≤ L + 1 ↔ b ≤ L + 1) → a = b := by
    intro a b ha hb h
    have h1 := (h (b - 1)).mpr (by omega)
    have h2 := (h (a - 1)).mp (by omega)
    omega
  apply hle
  · rw [contBytes_length]; split <;> omega
  · rw [sizeofWidth_eq hw0 hn hcap]; omega
  · intro L
    rw [contBytes_length_le_iff, sizeofWidth_le_iff hw0 hn hcap]

theorem sizeofU64_le (n : Nat) : sizeofU64 n ≤ 10 := Nat.min_le_right _ _

theorem sizeofU32_le (n : Nat) : sizeofU32 n ≤ 5 := Nat.min_le_right _ _

theorem encodeU64_length {n : Nat} (hn : n < 2 ^ 64) : (encodeU64 n).length = sizeofU64 n :=
  encodeU64_length_eq_sizeofWidth (by omega) (by omega) hn (by omega)

theorem encodeU64_length_u32 {n : Nat} (hn : n < 2 ^ 32) : (encodeU64 n).length = sizeofU32 n :=
  encodeU64_length_eq_sizeofWidth (by omega) (by omega) hn (by omega)

/-! ## Reading any input -/

/-- The value of the base-128 digits `bs`, most significant first, read onto
the accumulator `acc`: what the readers compute, without their width. -/
def digitsValue (acc : Nat) (bs : List UInt8) : Nat :=
  bs.foldl (fun acc b => acc * 128 + b.toNat % 128) acc

@[simp] theorem digitsValue_nil (acc : Nat) : digitsValue acc [] = acc := rfl

@[simp] theorem digitsValue_cons (acc : Nat) (b : UInt8) (bs : List UInt8) :
    digitsValue acc (b :: bs) = digitsValue (acc * 128 + b.toNat % 128) bs := rfl

theorem digitsValue_append_singleton (acc : Nat) (bs : List UInt8) (b : UInt8) :
    digitsValue acc (bs ++ [b]) = digitsValue acc bs * 128 + b.toNat % 128 := by
  simp [digitsValue, List.foldl_append]

theorem le_digitsValue : ∀ (acc : Nat) (bs : List UInt8), acc ≤ digitsValue acc bs
  | _, [] => Nat.le_refl _
  | acc, b :: bs => by
    have := le_digitsValue (acc * 128 + b.toNat % 128) bs
    rw [digitsValue_cons]
    omega

/-- The byte the encoder writes for the last digit of a value, when the byte
of that digit has its top bit clear. -/
theorem lastByte_eq {m : Nat} {b : UInt8} (hb : b.toNat < 128) (hm : m % 128 = b.toNat) :
    UInt8.ofNat m &&& 0x7F = b := by
  rw [← UInt8.toNat_inj, low7_toNat, UInt8.toNat_ofNat']
  omega

/-- The byte the encoder writes for a leading digit of a value, when the byte
of that digit has its top bit set. -/
theorem contByte_eq {m : Nat} {b : UInt8} (hb : 128 ≤ b.toNat) (hm : m % 128 = b.toNat % 128) :
    UInt8.ofNat m &&& 0x7F ||| 0x80 = b := by
  have := b.toNat_lt
  rw [← UInt8.toNat_inj, contByte_toNat]
  omega

theorem contBytes_ne_nil (m : Nat) : contBytes m ≠ [] := by
  rw [contBytes]; split <;> simp

/-- The encoder's leading digit is never empty: its byte is not `0x80`. -/
theorem contBytes_head {m : Nat} (hm : 0 < m) : (contBytes m).head? ≠ some 0x80 := by
  induction m using Nat.strong_induction_on with
  | _ m ih =>
    by_cases hsmall : m < 128
    · rw [contBytes_of_lt hsmall]
      intro h
      have := congrArg UInt8.toNat (Option.some.inj h)
      rw [contByte_toNat] at this
      simp at this
      omega
    · rw [contBytes_of_ge hsmall, List.head?_append_of_ne_nil _ (contBytes_ne_nil _)]
      exact ih (m / 128) (by omega) (by omega)

/-- Digits led by one that is not empty have a positive value. -/
theorem digitsValue_pos {y : UInt8} (hy : 128 ≤ y.toNat) (hy0 : y ≠ 0x80) (c : List UInt8) :
    0 < digitsValue 0 (y :: c) := by
  have hylt := y.toNat_lt
  have hpos : 0 < y.toNat % 128 := by
    by_contra hz
    exact hy0 (UInt8.toNat_inj.mp (by simp; omega))
  have := le_digitsValue (0 * 128 + y.toNat % 128) c
  rw [digitsValue_cons]
  omega

/-- **Canonical digits are the encoder's.**  Bytes with the top bit set, the
first of which is not the empty digit `0x80`, are the continuation bytes the
encoder writes for their value. -/
theorem contBytes_digitsValue (c : List UInt8) (hne : c ≠ []) (hc : ∀ x ∈ c, 128 ≤ x.toNat)
    (hhead : c.head? ≠ some 0x80) : contBytes (digitsValue 0 c) = c := by
  induction c using List.reverseRecOn with
  | nil => exact absurd rfl hne
  | append_singleton c x ih =>
    have hx : 128 ≤ x.toNat := hc x (by simp)
    rw [digitsValue_append_singleton]
    cases c with
    | nil =>
      -- one digit, not empty
      have hpos := digitsValue_pos hx (fun h => hhead (by simp [h])) []
      have hxlt := x.toNat_lt
      rw [digitsValue_cons, digitsValue_nil] at hpos
      rw [digitsValue_nil, Nat.zero_mul, Nat.zero_add,
        contBytes_of_lt (Nat.mod_lt _ (by omega)), contByte_eq hx (Nat.mod_mod _ _)]
      rfl
    | cons y c =>
      -- the leading digits first, then this one
      have hy : y ≠ 0x80 := fun h => hhead (by simp [h])
      have hyc : 128 ≤ y.toNat := hc y (by simp)
      have hrest := ih (by simp) (fun z hz => hc z (List.mem_append_left _ hz)) (by simpa using hy)
      have hval := digitsValue_pos hyc hy c
      have hlt : ¬ digitsValue 0 (y :: c) * 128 + x.toNat % 128 < 128 := by omega
      rw [contBytes_of_ge hlt, contByte_eq hx (by omega),
        show (digitsValue 0 (y :: c) * 128 + x.toNat % 128) / 128 = digitsValue 0 (y :: c) by omega,
        hrest]

/-- The encoding of the value of digits with the top bit set followed by one
with it clear is those digits exactly when the first is not the empty digit
`0x80`. -/
theorem encodeU64_digitsValue {c : List UInt8} {last : UInt8} (hc : ∀ x ∈ c, 128 ≤ x.toNat)
    (hlast : last.toNat < 128) (hV : digitsValue 0 (c ++ [last]) < 2 ^ 70) :
    encodeU64 (digitsValue 0 (c ++ [last])) = c ++ [last] ↔ c.head? ≠ some 0x80 := by
  rw [encodeU64_eq hV, digitsValue_append_singleton]
  have hdiv : (digitsValue 0 c * 128 + last.toNat % 128) / 128 = digitsValue 0 c := by omega
  rw [lastByte_eq hlast (by omega)]
  cases c with
  | nil => simp [Nat.mod_eq_of_lt hlast, hlast]
  | cons y c =>
    have hyc : 128 ≤ y.toNat := hc y (by simp)
    by_cases hy : y = 0x80
    · -- the empty leading digit: the encoder never writes it
      subst hy
      simp only [List.head?_cons, ne_eq, not_true_eq_false, iff_false]
      intro henc
      split at henc
      · have := congrArg List.length henc
        simp at this
      · next hge =>
        rw [hdiv] at henc
        have hval : 0 < digitsValue 0 (0x80 :: c) := by omega
        have := congrArg List.head? henc
        rw [List.head?_append_of_ne_nil _ (contBytes_ne_nil _)] at this
        exact contBytes_head hval (by simpa using this)
    · -- a canonical leading digit: the digits are the encoder's
      have hval := digitsValue_pos hyc hy c
      simp only [List.head?_cons, ne_eq, Option.some.injEq, hy, not_false_eq_true, iff_true]
      rw [if_neg (by omega), hdiv, contBytes_digitsValue (y :: c) (by simp) hc (by simpa using hy)]

section AnyInput

variable {ε : Type} (eof ovf : ε) (width : Nat)

/-- **Reading any input.**  On digits with the top bit set followed by one
with it clear, a reader returns their value and the bytes after them when the
value fits its width, and reports an overflow otherwise: the mask check
before each shift fails exactly when the value will not fit. -/
theorem varintLoop_digits (hw : 7 ≤ width) :
    ∀ (c : List UInt8) (last : UInt8) (rest : List UInt8) (val i : Nat),
      (∀ x ∈ c, 128 ≤ x.toNat) → last.toNat < 128 → val < 2 ^ width →
      varintLoop eof ovf (127 * 2 ^ (width - 7)) (c ++ last :: rest) val i =
        if digitsValue val (c ++ [last]) < 2 ^ width then
          .ok (digitsValue val (c ++ [last]), i + c.length + 1, rest)
        else .error ovf := by
  have hpow : 2 ^ width = 2 ^ (width - 7) * 128 := by
    rw [show (128 : Nat) = 2 ^ 7 by norm_num, ← Nat.pow_add]; congr 1; omega
  intro c
  induction c with
  | nil =>
    intro last rest val i _ hlast hval
    have hend : last &&& 0x80 = 0 := (and_0x80_eq_zero last).mpr hlast
    by_cases hfit : val < 2 ^ (width - 7)
    · -- the last digit fits
      have hclear : val &&& 127 * 2 ^ (width - 7) = 0 :=
        (and_topMask_eq_zero width val hw hval).mpr hfit
      have hV : val * 128 + last.toNat % 128 < 2 ^ width := by omega
      simp only [List.nil_append, varintLoop, hclear, ne_eq, not_true_eq_false, if_false, hend,
        if_true, shiftLeft_or_low7, digitsValue_cons, digitsValue_nil, hV, List.length_nil]
    · -- the mask check fails, and the value is too large
      have hset : ¬ val &&& 127 * 2 ^ (width - 7) = 0 :=
        fun h => hfit ((and_topMask_eq_zero width val hw hval).mp h)
      have hV : ¬ val * 128 + last.toNat % 128 < 2 ^ width := by omega
      simp [varintLoop, hset, hV]
  | cons x c ih =>
    intro last rest val i hc hlast hval
    have hx : ¬ x &&& 0x80 = 0 := by
      rw [and_0x80_eq_zero]; have := hc x (by simp); omega
    by_cases hfit : val < 2 ^ (width - 7)
    · -- one more leading digit
      have hclear : val &&& 127 * 2 ^ (width - 7) = 0 :=
        (and_topMask_eq_zero width val hw hval).mpr hfit
      have hval' : val * 128 + x.toNat % 128 < 2 ^ width := by omega
      have hrec := ih last rest (val * 128 + x.toNat % 128) (i + 1)
        (fun y hy => hc y (by simp [hy])) hlast hval'
      simp only [List.cons_append, varintLoop, hclear, ne_eq, not_true_eq_false, if_false, hx,
        shiftLeft_or_low7]
      rw [hrec, digitsValue_cons, List.length_cons, Nat.add_assoc i 1, Nat.add_comm 1 c.length]
    · have hset : ¬ val &&& 127 * 2 ^ (width - 7) = 0 :=
        fun h => hfit ((and_topMask_eq_zero width val hw hval).mp h)
      have hV : ¬ digitsValue val (x :: (c ++ [last])) < 2 ^ width := by
        have := le_digitsValue (val * 128 + x.toNat % 128) (c ++ [last])
        rw [digitsValue_cons]
        omega
      simp only [List.cons_append, varintLoop, hset, ne_eq, not_false_eq_true, if_true]
      rw [if_neg hV]

/-- A reader succeeds only on digits with the top bit set followed by one
with it clear, and consumes exactly them. -/
theorem varintLoop_eq_ok {mask : Nat} :
    ∀ (data : List UInt8) (val i v k : Nat) (rest : List UInt8),
      varintLoop eof ovf mask data val i = .ok (v, k, rest) →
      ∃ c last, data = c ++ last :: rest ∧ (∀ x ∈ c, 128 ≤ x.toNat) ∧ last.toNat < 128 ∧
        k = i + c.length + 1
  | [], _, _, _, _, _, h => by simp [varintLoop] at h
  | x :: data, val, i, v, k, rest, h => by
    unfold varintLoop at h
    split at h
    · cases h
    · dsimp only at h
      split at h
      · -- the byte at hand ends the integer
        next hend =>
        cases h
        exact ⟨[], x, rfl, by simp, (and_0x80_eq_zero x).mp hend, rfl⟩
      · next hcont =>
        obtain ⟨c, last, rfl, hc, hlast, hk⟩ := varintLoop_eq_ok data _ _ v k rest h
        refine ⟨x :: c, last, rfl, fun y hy => ?_, hlast, by simp; omega⟩
        rcases List.mem_cons.mp hy with rfl | hy
        · rw [and_0x80_eq_zero] at hcont; omega
        · exact hc y hy

/-- **Canonical form.**  Whatever a reader of width `width` accepts,
re-encoding the value gives back the bytes it consumed exactly when the first
of them is not the empty digit `0x80`. -/
theorem encodeU64_eq_take_iff (hw : 7 ≤ width) (hw70 : width ≤ 70) {b rest : List UInt8}
    {v k : Nat} (h : varintLoop eof ovf (127 * 2 ^ (width - 7)) b 0 0 = .ok (v, k, rest)) :
    encodeU64 v = b.take k ↔ b[0]? ≠ some 0x80 := by
  obtain ⟨c, last, rfl, hc, hlast, -⟩ := varintLoop_eq_ok eof ovf _ 0 0 v k rest h
  rw [varintLoop_digits eof ovf width hw c last rest 0 0 hc hlast (Nat.two_pow_pos width)] at h
  split at h
  · next hfit =>
    cases h
    have htake : (c ++ last :: rest).take (0 + c.length + 1) = c ++ [last] := by
      simp [List.take_append, List.take_of_length_le]
    -- the first byte read is the first digit
    have hfirst : (c ++ last :: rest)[0]? ≠ some 0x80 ↔ c.head? ≠ some 0x80 := by
      cases c with
      | nil =>
        have hl : last ≠ 0x80 := fun h' => by rw [h'] at hlast; simp at hlast
        simp [hl]
      | cons y c => simp
    rw [htake, hfirst]
    exact encodeU64_digitsValue hc hlast
      (Nat.lt_of_lt_of_le hfit (Nat.pow_le_pow_right (by omega) hw70))
  · cases h

/-- **Overflow.**  On bytes whose first with the top bit clear is the `k`-th,
a reader reports an overflow exactly when their value does not fit its
width. -/
theorem varintLoop_overflow_iff (hw : 7 ≤ width) {c : List UInt8}
    {last : UInt8} {rest : List UInt8} (hc : ∀ x ∈ c, 128 ≤ x.toNat) (hlast : last.toNat < 128) :
    varintLoop eof ovf (127 * 2 ^ (width - 7)) (c ++ last :: rest) 0 0 = .error ovf ↔
      2 ^ width ≤ digitsValue 0 (c ++ [last]) := by
  rw [varintLoop_digits eof ovf width hw c last rest 0 0 hc hlast (Nat.two_pow_pos width)]
  split
  · next hfit => simp only [reduceCtorEq, false_iff]; omega
  · next hfit => simp only [true_iff]; omega

end AnyInput

/-- What the stream reader returns is a `u64`. -/
theorem streamReadU64_lt {r rest : List UInt8} {n : Nat} (h : streamReadU64 r = .ok (n, rest)) :
    n < 2 ^ 64 := by
  unfold streamReadU64 at h
  cases hl : varintLoop (Fault.err IoError.eof) (Fault.err (IoError.new .invalidData "varint overflow"))
      u64OverflowMask r 0 0 with
  | error e => simp [hl, Except.map] at h
  | ok v =>
    obtain ⟨v, k, rest'⟩ := v
    obtain ⟨c, last, rfl, hc, hlast, -⟩ := varintLoop_eq_ok _ _ _ 0 0 v k rest' hl
    rw [hl] at h
    cases h
    -- the value the loop returns passed its overflow test
    rw [u64OverflowMask_eq, varintLoop_digits _ _ 64 (by omega) c last rest' 0 0 hc hlast (by omega)] at hl
    split at hl
    · cases hl; assumption
    · cases hl

/-- A reader's result does not depend on the errors it would report. -/
theorem varintLoop_ok_errors {ε ε' : Type} (eof ovf : ε) (eof' ovf' : ε') (mask : Nat) :
    ∀ (data : List UInt8) (val i : Nat) (r : Nat × Nat × List UInt8),
      varintLoop eof ovf mask data val i = .ok r → varintLoop eof' ovf' mask data val i = .ok r
  | [], _, _, _, h => by simp [varintLoop] at h
  | x :: data, val, i, r, h => by
    unfold varintLoop at h ⊢
    split at h
    · cases h
    · next hmask =>
      rw [if_neg hmask]
      dsimp only at h ⊢
      split at h
      · next hend => rw [if_pos hend]; cases h; rfl
      · next hend => rw [if_neg hend]; exact varintLoop_ok_errors eof ovf eof' ovf' mask data _ _ r h

/-! ## The codec -/

/-- What a slice reader returns, from what its loop returns. -/
theorem readWith_eq_ok {mask : Nat} {b : List UInt8} {v k : Nat}
    (h : (varintLoop VarIntError.underflow .overflow mask b 0 0).map (fun r => (r.1, r.2.1)) =
      .ok (v, k)) :
    ∃ rest, varintLoop VarIntError.underflow .overflow mask b 0 0 = .ok (v, k, rest) := by
  cases hl : varintLoop VarIntError.underflow .overflow mask b 0 0 with
  | error e => simp [hl, Except.map] at h
  | ok r =>
    obtain ⟨v', k', rest⟩ := r
    simp only [hl, Except.map, Except.ok.injEq, Prod.mk.injEq] at h
    obtain ⟨rfl, rfl⟩ := h
    exact ⟨rest, rfl⟩

theorem readWith_eq_error {mask : Nat} {b : List UInt8} {e : VarIntError} :
    (varintLoop VarIntError.underflow .overflow mask b 0 0).map (fun r => (r.1, r.2.1)) =
      .error e ↔ varintLoop VarIntError.underflow .overflow mask b 0 0 = .error e := by
  cases varintLoop VarIntError.underflow .overflow mask b 0 0 <;> simp [Except.map]

theorem encodeU64_length_pos (n : Nat) (hn : n < 2 ^ 70) : 0 < (encodeU64 n).length := by
  rw [encodeU64_eq hn]
  simp

/-- **The varint codec.**  For every `u64` (`u32`), the encoder writes
`sizeof` bytes, between one and ten (five), and the reader decodes them,
followed by anything, to the value and their count.  Whatever a reader
accepts is re-encoded to the bytes it consumed exactly when the first is not
the empty digit `0x80`.  On digits with the top bit set followed by one with
it clear, both readers report an overflow exactly when the value of those
digits exceeds their type's maximum.  The streaming reader agrees with
`read_u64` wherever that succeeds. -/
theorem varint_codec_agrees :
    (∀ n < 2 ^ 64, ∀ rest, (encodeU64 n).length = sizeofU64 n ∧ 1 ≤ sizeofU64 n ∧
      sizeofU64 n ≤ 10 ∧ readU64 (encodeU64 n ++ rest) = .ok (n, sizeofU64 n)) ∧
    (∀ b v k, readU64 b = .ok (v, k) → (encodeU64 v = b.take k ↔ b[0]? ≠ some 0x80)) ∧
    (∀ n < 2 ^ 32, ∀ rest, (encodeU32 n).length = sizeofU32 n ∧ 1 ≤ sizeofU32 n ∧
      sizeofU32 n ≤ 5 ∧ readU32 (encodeU32 n ++ rest) = .ok (n, sizeofU32 n)) ∧
    (∀ b v k, readU32 b = .ok (v, k) → (encodeU32 v = b.take k ↔ b[0]? ≠ some 0x80)) ∧
    (∀ (c : List UInt8) (last : UInt8) (rest : List UInt8),
      (∀ x ∈ c, 128 ≤ x.toNat) → last.toNat < 128 →
      (readU32 (c ++ last :: rest) = .error .overflow ↔ 2 ^ 32 - 1 < digitsValue 0 (c ++ [last])) ∧
      (readU64 (c ++ last :: rest) = .error .overflow ↔
        2 ^ 64 - 1 < digitsValue 0 (c ++ [last]))) ∧
    (∀ b v k, readU64 b = .ok (v, k) → streamReadU64 b = .ok (v, b.drop k)) := by
  refine ⟨fun n hn rest => ?_, fun b v k h => ?_, fun n hn rest => ?_, fun b v k h => ?_,
    fun c last rest hc hlast => ⟨?_, ?_⟩, fun b v k h => ?_⟩
  · -- u64: sizes and round trip
    have hpos := encodeU64_length_pos n (by omega)
    rw [← encodeU64_length hn]
    exact ⟨rfl, hpos, encodeU64_length hn ▸ sizeofU64_le n, readU64_encodeU64 hn rest⟩
  · obtain ⟨rest, hl⟩ := readWith_eq_ok h
    rw [u64OverflowMask_eq] at hl
    exact encodeU64_eq_take_iff _ _ 64 (by omega) (by omega) hl
  · -- u32: sizes and round trip
    have hpos := encodeU64_length_pos n (by omega)
    rw [encodeU32, ← encodeU64_length_u32 hn]
    exact ⟨rfl, hpos, encodeU64_length_u32 hn ▸ sizeofU32_le n, readU32_encodeU64 hn rest⟩
  · obtain ⟨rest, hl⟩ := readWith_eq_ok h
    rw [u32OverflowMask_eq] at hl
    exact encodeU64_eq_take_iff _ _ 32 (by omega) (by omega) hl
  · rw [readU32, readWith_eq_error, u32OverflowMask_eq,
      varintLoop_overflow_iff _ _ 32 (by omega) hc hlast]
    omega
  · rw [readU64, readWith_eq_error, u64OverflowMask_eq,
      varintLoop_overflow_iff _ _ 64 (by omega) hc hlast]
    omega
  · -- the streaming reader runs the same loop
    obtain ⟨rest, hl⟩ := readWith_eq_ok h
    have hs := varintLoop_ok_errors _ _ (Fault.err IoError.eof)
      (Fault.err (IoError.new .invalidData "varint overflow")) _ _ _ _ _ hl
    obtain ⟨c, last, rfl, -, -, hk⟩ := varintLoop_eq_ok _ _ _ _ _ _ _ _ hl
    have hdrop : (c ++ last :: rest).drop k = rest := by
      rw [hk]
      simp [List.drop_append]
    rw [streamReadU64, hs, hdrop]
    rfl

end Oxidelta.Vcdiff
