import Mathlib.Order.Bounds.Defs
import Oxidelta.Lib.Rust
import Oxidelta.Lib.Words
import Oxidelta.Lib.Adler
import Oxidelta.Lib.Segments
import Oxidelta.Hash.Config

/-!
# Rolling hashes and scanners (`hash/rolling.rs`)

The match engine hashes the target at every position with two checksums: a
small one over the four bytes there, multiplied by a constant, and a large
one over `large_look` bytes, the Adler-style pair of sums over a permuted
alphabet, which moves one byte forward from its previous value alone.  It
locates the buckets of both in tables sized by `HashCfg`, and measures
matches and runs with word-at-a-time scanners.

The model is of a little-endian target: a native-endian load of four or
eight bytes is their little-endian value (`Words.leWord`).  The SIMD
variants the engine dispatches to count the same bytes as the scalar loops,
which the model takes.

Main results:

* `largeHash_update_checksum` — the rolling law: updating the checksum of a
  window gives the checksum of the window one byte on (`Adler.sums_roll`),
  and `update_at` at a pointer computes what `update` does on the bytes
  there;
* `HashCfg.bucket_lt` — every bucket is inside the table;
* `forwardMatchScalar_isGreatest`, `backwardMatchScalar_isGreatest` — the
  word-at-a-time scanners return the longest common prefix and suffix.
-/

namespace Oxidelta.Hash

open Rust Words Segments

/-- `HASH_MULT_32`. -/
def hashMult32 : Nat := 1597334677

/-- `HASH_CKOFFSET`: stored positions are offset so that `0` is empty. -/
def hashCkoffset : Nat := 1

/-! ## Runs -/

/-- `RunLengthFn`: `run_length(data, byte, n)`. -/
abbrev RunLengthFn := List UInt8 → UInt8 → Nat → Nat

/-- `find_run_length_scalar`: `while i < n && data[i] == byte { i += 1 }`.
Its callers pass `n ≤ data.len()`, so the index is always in bounds. -/
def findRunLengthScalar : RunLengthFn
  | b :: data, byte, n + 1 => if b = byte then findRunLengthScalar data byte n + 1 else 0
  | _, _, _ => 0

/-- `run_length_fn`: the SIMD variants it may dispatch to count the same
bytes as the scalar loop, which the model takes. -/
def runLengthFn : RunLengthFn := findRunLengthScalar

theorem findRunLengthScalar_le : ∀ data byte n, findRunLengthScalar data byte n ≤ n
  | [], _, _ => Nat.zero_le _
  | _ :: _, _, 0 => Nat.le_refl _
  | b :: data, byte, n + 1 => by
    have := findRunLengthScalar_le data byte n
    unfold findRunLengthScalar
    split <;> omega

theorem findRunLengthScalar_eq : ∀ data byte n, ∀ j < findRunLengthScalar data byte n,
    data[j]? = some byte
  | [], _, _, _, h => by simp [findRunLengthScalar] at h
  | _ :: _, _, 0, _, h => by simp [findRunLengthScalar] at h
  | b :: data, byte, n + 1, j, h => by
    unfold findRunLengthScalar at h
    split at h
    · next hb =>
      -- the first byte matched; the rest of the count is the tail's
      cases j with
      | zero => simp [hb]
      | succ j => simpa using findRunLengthScalar_eq data byte n j (by omega)
    · simp at h

theorem findRunLengthScalar_pos {data : List UInt8} {byte : UInt8} {n : Nat} (hn : 0 < n)
    (h : data[0]? = some byte) : 0 < findRunLengthScalar data byte n := by
  obtain ⟨b, data, rfl⟩ : ∃ b rest, data = b :: rest := by
    cases data with
    | nil => simp at h
    | cons b rest => exact ⟨b, rest, rfl⟩
  obtain ⟨n, rfl⟩ : ∃ m, n = m + 1 := ⟨n - 1, by omega⟩
  have hb : b = byte := by simpa using h
  simp [findRunLengthScalar, hb]

/-- `comprun`: the run of equal bytes at the end of `seg[..look]`, and its
byte.  The `debug_assert!` on the length is checked as in a debug build. -/
def comprun {ε : Type} (seg : List UInt8) (look : Nat) : Result ε (Nat × UInt8) :=
  if look ≤ seg.length then
    pure ((seg.take look).foldl
      (fun (s : Nat × UInt8) byte => if byte = s.2 then (s.1 + 1, s.2) else (1, byte)) (0, 0))
  else Rust.panic "assertion failed: seg.len() >= look"

/-! ## The small checksum -/

/-- `read_u32_ne` on a little-endian target: the first four bytes. -/
def readU32Ne (data : List UInt8) : Nat :=
  leWord (data.take 4)

/-- `small_cksum`: the four bytes at `base`, times `HASH_MULT_32`, wrapping.
The `debug_assert!` on the length is checked as in a debug build. -/
def smallCksum {ε : Type} (base : List UInt8) : Result ε Nat :=
  if 4 ≤ base.length then pure (readU32Ne base * hashMult32 % 2 ^ 32)
  else Rust.panic "assertion failed: base.len() >= 4"

/-- `small_cksum_at`: the same on the four bytes at `ptr` of `mem`, which its
callers keep inside `mem`. -/
def smallCksumAt (mem : List UInt8) (ptr : Nat) : Nat :=
  leWord ((mem.drop ptr).take 4) * hashMult32 % 2 ^ 32

/-! ## The large checksum -/

set_option maxRecDepth 2000 in
/-- `SINGLE_HASH`: the permutation of the byte values the large checksum
sums. -/
def singleHash : Vector UInt16 256 := #v[
  0xbcd1, 0xbb65, 0x42c2, 0xdffe, 0x9666, 0x431b, 0x8504, 0xeb46, 0x6379, 0xd460, 0xcf14, 0x53cf,
  0xdb51, 0xdb08, 0x12c8, 0xf602, 0xe766, 0x2394, 0x250d, 0xdcbb, 0xa678, 0x02af, 0xa5c6, 0x7ea6,
  0xb645, 0xcb4d, 0xc44b, 0xe5dc, 0x9fe6, 0x5b5c, 0x35f5, 0x701a, 0x220f, 0x6c38, 0x1a56, 0x4ca3,
  0xffc6, 0xb152, 0x8d61, 0x7a58, 0x9025, 0x8b3d, 0xbf0f, 0x95a3, 0xe5f4, 0xc127, 0x3bed, 0x320b,
  0xb7f3, 0x6054, 0x333c, 0xd383, 0x8154, 0x5242, 0x4e0d, 0x0a94, 0x7028, 0x8689, 0x3a22, 0x0980,
  0x1847, 0xb0f1, 0x9b5c, 0x4176, 0xb858, 0xd542, 0x1f6c, 0x2497, 0x6a5a, 0x9fa9, 0x8c5a, 0x7743,
  0xa8a9, 0x9a02, 0x4918, 0x438c, 0xc388, 0x9e2b, 0x4cad, 0x01b6, 0xab19, 0xf777, 0x365f, 0x1eb2,
  0x091e, 0x7bf8, 0x7a8e, 0x5227, 0xeab1, 0x2074, 0x4523, 0xe781, 0x01a3, 0x163d, 0x3b2e, 0x287d,
  0x5e7f, 0xa063, 0xb134, 0x8fae, 0x5e8e, 0xb7b7, 0x4548, 0x1f5a, 0xfa56, 0x7a24, 0x900f, 0x42dc,
  0xcc69, 0x02a0, 0x0b22, 0xdb31, 0x71fe, 0x0c7d, 0x1732, 0x1159, 0xcb09, 0xe1d2, 0x1351, 0x52e9,
  0xf536, 0x5a4f, 0xc316, 0x6bf9, 0x8994, 0xb774, 0x5f3e, 0xf6d6, 0x3a61, 0xf82c, 0xcc22, 0x9d06,
  0x299c, 0x09e5, 0x1eec, 0x514f, 0x8d53, 0xa650, 0x5c6e, 0xc577, 0x7958, 0x71ac, 0x8916, 0x9b4f,
  0x2c09, 0x5211, 0xf6d8, 0xcaaa, 0xf7ef, 0x287f, 0x7a94, 0xab49, 0xfa2c, 0x7222, 0xe457, 0xd71a,
  0x00c3, 0x1a76, 0xe98c, 0xc037, 0x8208, 0x5c2d, 0xdfda, 0xe5f5, 0x0b45, 0x15ce, 0x8a7e, 0xfcad,
  0xaa2d, 0x4b5c, 0xd42e, 0xb251, 0x907e, 0x9a47, 0xc9a6, 0xd93f, 0x085e, 0x35ce, 0xa153, 0x7e7b,
  0x9f0b, 0x25aa, 0x5d9f, 0xc04d, 0x8a0e, 0x2875, 0x4a1c, 0x295f, 0x1393, 0xf760, 0x9178, 0x0f5b,
  0xfa7d, 0x83b4, 0x2082, 0x721d, 0x6462, 0x0368, 0x67e2, 0x8624, 0x194d, 0x22f6, 0x78fb, 0x6791,
  0xb238, 0xb332, 0x7276, 0xf272, 0x47ec, 0x4504, 0xa961, 0x9fc8, 0x3fdc, 0xb413, 0x007a, 0x0806,
  0x7458, 0x95c6, 0xccaa, 0x18d6, 0xe2ae, 0x1b06, 0xf3f6, 0x5050, 0xc8e8, 0xf4ac, 0xc04c, 0xf41c,
  0x992f, 0xae44, 0x5f1b, 0x1113, 0x1738, 0xd9a8, 0x19ea, 0x2d33, 0x9698, 0x2fe9, 0x323f, 0xcde2,
  0x6d71, 0xe37d, 0xb697, 0x2c4f, 0x4373, 0x9102, 0x075d, 0x8e25, 0x1672, 0xec28, 0x6acb, 0x86cc,
  0x186e, 0x9414, 0xd674, 0xd1a5
]

/-- `SINGLE_HASH[b as usize]`. -/
def singleHashOf (b : UInt8) : UInt16 :=
  have : b.toNat < 256 := b.toNat_lt
  singleHash[b.toNat]

/-- The weight of a byte in the large checksum's sums. -/
def weight (b : UInt8) : Nat :=
  (singleHashOf b).toNat

/-- `LargeHash`: the width of the window; `look_u32` is `look as u32`. -/
structure LargeHash where
  look : Nat
  deriving DecidableEq, Repr

/-- `LargeHash::new`. -/
def LargeHash.new (look : Nat) : LargeHash := ⟨look⟩

/-- `look_u32`. -/
def LargeHash.lookU32 (h : LargeHash) : UInt32 :=
  h.look.toUInt32

/-- One byte of the loop of `LargeHash::checksum`: `low` and `high` as
wrapping `u32` sums. -/
def LargeHash.checksumStep (s : UInt32 × UInt32) (b : UInt8) : UInt32 × UInt32 :=
  let low := s.1 + (singleHashOf b).toUInt32
  (low, s.2 + low)

/-- `LargeHash::checksum`: the two sums over `base[..look]`, sixteen bits of
each.  The `debug_assert!` on the length is checked as in a debug build. -/
def LargeHash.checksum {ε : Type} (h : LargeHash) (base : List UInt8) : Result ε Nat :=
  if h.look ≤ base.length then
    let s := (base.take h.look).foldl LargeHash.checksumStep (0, 0)
    pure (((s.2 &&& 0xFFFF) <<< 16) ||| (s.1 &&& 0xFFFF)).toNat
  else Rust.panic "assertion failed: base.len() >= self.look"

/-- The arithmetic shared by `update` and `update_at`: from the old checksum,
the weight `oldC` of the byte that leaves and `newC` of the byte that
enters. -/
def LargeHash.roll (h : LargeHash) (old : Nat) (oldC newC : UInt32) : Nat :=
  let cksum := old.toUInt32
  let low := (cksum - oldC + newC) &&& 0xFFFF
  let high := ((cksum >>> 16) - oldC * h.lookU32 + low) &&& 0xFFFF
  ((high <<< 16) ||| low).toNat

/-- `LargeHash::update`: remove `base[0]`, add `base[look]`.  The
`debug_assert!` is checked as in a debug build, and the indexing is
checked. -/
def LargeHash.update {ε : Type} (h : LargeHash) (old : Nat) (base : List UInt8) :
    Result ε Nat :=
  if h.look < base.length then do
    let first ← index base 0
    let last ← index base h.look
    pure (h.roll old (singleHashOf first).toUInt32 (singleHashOf last).toUInt32)
  else Rust.panic "assertion failed: base.len() > self.look"

/-- `LargeHash::update_at`: the same with the bytes read at `ptr` and
`ptr + look` of `mem`, which its callers keep inside `mem`. -/
def LargeHash.updateAt (h : LargeHash) (old : Nat) (mem : List UInt8) (ptr : Nat) : Nat :=
  h.roll old (singleHashOf (mem.getD ptr 0)).toUInt32 (singleHashOf (mem.getD (ptr + h.look) 0)).toUInt32

/-- The wrapping `u32` sums of `checksum`'s loop are the two Adler sums of
the bytes, modulo `2 ^ 32`. -/
theorem checksumStep_foldl (bs : List UInt8) :
    (bs.foldl LargeHash.checksumStep (0, 0)).1.toNat = (Adler.sums weight bs).1 % 2 ^ 32 ∧
    (bs.foldl LargeHash.checksumStep (0, 0)).2.toNat = (Adler.sums weight bs).2 % 2 ^ 32 := by
  induction bs using List.reverseRecOn with
  | nil => exact ⟨rfl, rfl⟩
  | append_singleton bs y ih =>
    obtain ⟨hl, hh⟩ := ih
    rw [List.foldl_append, Adler.sums_append_singleton]
    simp only [List.foldl_cons, List.foldl_nil, LargeHash.checksumStep, UInt32.toNat_add,
      UInt16.toNat_toUInt32, hl, hh, weight]
    constructor <;> omega

/-- Sixteen bits of each of two `u32`s, packed into one. -/
theorem pack_toNat {high low : UInt32} (hh : high.toNat < 2 ^ 16) (hl : low.toNat < 2 ^ 16) :
    ((high <<< 16) ||| low).toNat = high.toNat * 2 ^ 16 + low.toNat := by
  have h16 : (16 : UInt32).toNat % 32 = 16 := rfl
  have hfit : high.toNat * 2 ^ 16 < 2 ^ 32 := by omega
  rw [UInt32.toNat_or, UInt32.toNat_shiftLeft, h16, Nat.shiftLeft_eq, Nat.mod_eq_of_lt hfit,
    Nat.mul_comm, ← Nat.two_pow_add_eq_or_of_lt hl]

theorem and_0xFFFF_toNat (x : UInt32) : (x &&& 0xFFFF).toNat = x.toNat % 2 ^ 16 := by
  rw [UInt32.toNat_and]
  exact Nat.and_two_pow_sub_one_eq_mod _ 16

/-- The checksum is the pair of Adler sums of the window, sixteen bits of
each. -/
theorem LargeHash.checksum_eq {ε : Type} (h : LargeHash) {base : List UInt8}
    (hlen : h.look ≤ base.length) :
    (h.checksum base : Result ε Nat) =
      .ok ((Adler.sums weight (base.take h.look)).2 % 2 ^ 16 * 2 ^ 16 +
        (Adler.sums weight (base.take h.look)).1 % 2 ^ 16) := by
  obtain ⟨hl, hh⟩ := checksumStep_foldl (base.take h.look)
  rw [LargeHash.checksum, if_pos hlen]
  simp only [pure, Except.pure, Except.ok.injEq]
  rw [pack_toNat (by rw [and_0xFFFF_toNat]; omega) (by rw [and_0xFFFF_toNat]; omega),
    and_0xFFFF_toNat, and_0xFFFF_toNat, hl, hh, Nat.mod_mod_of_dvd _ (by decide),
    Nat.mod_mod_of_dvd _ (by decide)]

/-- The low half of `roll`: sixteen bits of the new sum of the weights. -/
theorem roll_low {L L' : Nat} {cksum : UInt32} {oc nc : UInt16}
    (hc : cksum.toNat % 2 ^ 16 = L % 2 ^ 16) (hlow : L' + oc.toNat = L + nc.toNat) :
    ((cksum - oc.toUInt32 + nc.toUInt32) &&& 0xFFFF).toNat = L' % 2 ^ 16 := by
  have hoc : oc.toNat < 2 ^ 16 := oc.toNat_lt
  rw [and_0xFFFF_toNat, UInt32.toNat_add, UInt32.toNat_sub, UInt16.toNat_toUInt32,
    UInt16.toNat_toUInt32, Nat.mod_mod_of_dvd _ (by decide)]
  have hck := cksum.toNat_lt
  omega

/-- The high half of `roll`: `look as u32` times the weight that leaves,
wrapping, agrees with `look` times it on sixteen bits. -/
theorem roll_high {H H' L' look : Nat} {cksum low : UInt32} {oc : UInt16}
    (hc : cksum.toNat / 2 ^ 16 % 2 ^ 16 = H % 2 ^ 16) (hl : low.toNat % 2 ^ 16 = L' % 2 ^ 16)
    (hhigh : H' + look * oc.toNat = H + L') :
    (((cksum >>> 16) - oc.toUInt32 * look.toUInt32 + low) &&& 0xFFFF).toNat = H' % 2 ^ 16 := by
  have hmul : oc.toNat * (look % 2 ^ 32) % 2 ^ 32 % 2 ^ 16 = look * oc.toNat % 2 ^ 16 := by
    rw [Nat.mod_mod_of_dvd _ (by decide), Nat.mul_mod, Nat.mod_mod_of_dvd _ (by decide),
      ← Nat.mul_mod, Nat.mul_comm]
  have hshift : (cksum >>> 16).toNat = cksum.toNat / 2 ^ 16 := by
    have h16 : (16 : UInt32).toNat % 32 = 16 := rfl
    rw [UInt32.toNat_shiftRight, h16, Nat.shiftRight_eq_div_pow]
  rw [and_0xFFFF_toNat, UInt32.toNat_add, UInt32.toNat_sub, UInt32.toNat_mul, hshift,
    UInt16.toNat_toUInt32, Nat.toUInt32_eq, UInt32.toNat_ofNat', Nat.mod_mod_of_dvd _ (by decide)]
  generalize oc.toNat * (look % 2 ^ 32) = P at hmul ⊢
  generalize look * oc.toNat = Q at hmul hhigh
  have hck := cksum.toNat_lt
  omega

/-- **The rolling arithmetic.**  From the checksum of sums `L` and `H`, with
`oc` the weight that leaves and `nc` the one that enters, `roll` gives the
checksum of sums `L'` and `H'` related to them as `Adler.sums_roll` says. -/
theorem LargeHash.roll_sums (h : LargeHash) {L H L' H' : Nat} {oc nc : UInt16}
    (hlow : L' + oc.toNat = L + nc.toNat) (hhigh : H' + h.look * oc.toNat = H + L') :
    h.roll (H % 2 ^ 16 * 2 ^ 16 + L % 2 ^ 16) oc.toUInt32 nc.toUInt32 =
      H' % 2 ^ 16 * 2 ^ 16 + L' % 2 ^ 16 := by
  have hold : (H % 2 ^ 16 * 2 ^ 16 + L % 2 ^ 16).toUInt32.toNat =
      H % 2 ^ 16 * 2 ^ 16 + L % 2 ^ 16 := by
    rw [Nat.toUInt32_eq, UInt32.toNat_ofNat']
    omega
  have hl := @roll_low _ _ (H % 2 ^ 16 * 2 ^ 16 + L % 2 ^ 16).toUInt32 _ _
    (by rw [hold]; omega) hlow
  have hh := @roll_high _ _ _ _ (H % 2 ^ 16 * 2 ^ 16 + L % 2 ^ 16).toUInt32 _ _
    (by rw [hold]; omega) (by rw [hl]; omega) hhigh
  unfold LargeHash.roll LargeHash.lookU32
  simp only
  rw [pack_toNat (by rw [hh]; omega) (by rw [hl]; omega), hh, hl]

/-- The two windows `update` moves between: the first `look` bytes of `b`,
and of `b` without its first byte. -/
theorem sums_take_roll (look : Nat) {b : List UInt8} (hb : look < b.length) :
    ∃ x y, b[0]? = some x ∧ b[look]? = some y ∧
      (Adler.sums weight ((b.drop 1).take look)).1 + weight x =
        (Adler.sums weight (b.take look)).1 + weight y ∧
      (Adler.sums weight ((b.drop 1).take look)).2 + look * weight x =
        (Adler.sums weight (b.take look)).2 +
          (Adler.sums weight ((b.drop 1).take look)).1 := by
  obtain ⟨x, rest, rfl⟩ : ∃ x rest, b = x :: rest := by
    cases b with
    | nil => simp at hb
    | cons x rest => exact ⟨x, rest, rfl⟩
  cases look with
  | zero => exact ⟨x, x, rfl, rfl, by simp [Adler.sums, Adler.sumsFrom]⟩
  | succ k =>
    have hk : k < rest.length := by simp at hb; omega
    have hsplit : rest.take (k + 1) = rest.take k ++ [rest[k]] := List.take_succ_eq_append_getElem hk
    obtain ⟨hl, hh⟩ := Adler.sums_roll weight x rest[k] (rest.take k)
    refine ⟨x, rest[k], rfl, by simp, ?_, ?_⟩
    · rw [List.drop_one, List.tail_cons, hsplit, List.take_succ_cons]
      exact hl
    · rw [List.drop_one, List.tail_cons, hsplit, List.take_succ_cons]
      have : (rest.take k).length = k := by simp; omega
      rw [this] at hh
      exact hh

/-- **The rolling law.**  For a window of any width inside `b`, updating the
checksum of the window at the start of `b` gives the checksum of the window
one byte on; and `update_at`, at a pointer to bytes `b`, computes from any
old value what `update` does on `b`. -/
theorem largeHash_update_checksum {ε : Type} (h : LargeHash) (b : List UInt8) (hb : h.look < b.length) :
    (∃ c, (h.checksum b : Result ε Nat) = .ok c ∧
      (h.update c b : Result ε Nat) = h.checksum (b.drop 1)) ∧
    ∀ (old : Nat) (mem : List UInt8) (ptr : Nat), mem.drop ptr = b →
      (h.update old b : Result ε Nat) = .ok (h.updateAt old mem ptr) := by
  obtain ⟨x, y, hx, hy, hlow, hhigh⟩ := sums_take_roll h.look hb
  have hupdate : ∀ old, (h.update old b : Result ε Nat) =
      .ok (h.roll old (singleHashOf x).toUInt32 (singleHashOf y).toUInt32) := by
    intro old
    rw [LargeHash.update, if_pos hb, index, hx, bind_ok', index, hy, bind_ok']
    rfl
  refine ⟨⟨_, h.checksum_eq (by omega), ?_⟩, fun old mem ptr hmem => ?_⟩
  · rw [hupdate, h.checksum_eq (by simp; omega),
      h.roll_sums hlow hhigh]
  · have hread : ∀ i, mem.getD (ptr + i) 0 = b.getD i 0 := by
      intro i
      rw [← hmem, List.getD_eq_getElem?_getD, List.getD_eq_getElem?_getD, List.getElem?_drop]
    have hfirst := hread 0
    rw [Nat.add_zero] at hfirst
    rw [hupdate, LargeHash.updateAt, hfirst, hread, List.getD_eq_getElem?_getD,
      List.getD_eq_getElem?_getD, hx, hy]
    rfl

/-! ## Buckets -/

/-- `size_hashtable_bits`: `for i in 3..=28 { if slots < 1 << i { return i - 1 } }`,
and `28` past the loop. -/
def sizeHashtableBits (slots : Nat) : Nat :=
  ((List.range' 3 26).find? fun i => slots < 2 ^ i).elim 28 (· - 1)

theorem sizeHashtableBits_le (slots : Nat) : sizeHashtableBits slots ≤ 28 := by
  unfold sizeHashtableBits
  cases h : (List.range' 3 26).find? fun i => slots < 2 ^ i with
  | none => simp
  | some i =>
    have := List.mem_range'_1.mp (List.mem_of_find?_eq_some h)
    simp only [Option.elim_some]
    omega

/-- `HashCfg`: the number of buckets, the shift and the mask of `bucket`.
The fields agree as `HashCfg::new` makes them: the table has `2 ^ (32 -
shift)` buckets and the mask is one less. -/
structure HashCfg where
  size : Nat
  shift : Nat
  mask : Nat
  shift_le : shift ≤ 32
  size_eq : size = 2 ^ (32 - shift)
  mask_eq : mask = size - 1

/-- `HashCfg::new`. -/
def HashCfg.new (slots : Nat) : HashCfg where
  size := 2 ^ sizeHashtableBits slots
  shift := 32 - sizeHashtableBits slots
  mask := 2 ^ sizeHashtableBits slots - 1
  shift_le := Nat.sub_le _ _
  size_eq := by rw [Nat.sub_sub_self (by have := sizeHashtableBits_le slots; omega)]
  mask_eq := rfl

/-- `HashCfg::bucket`: the checksum as `u32`, its high bits folded onto its
low ones. -/
def HashCfg.bucket (cfg : HashCfg) (cksum : Nat) : Nat :=
  let c := cksum % 2 ^ 32
  (c >>> cfg.shift) ^^^ (c &&& cfg.mask)

/-- **Every bucket is inside the table.** -/
theorem HashCfg.bucket_lt (cfg : HashCfg) (cksum : Nat) : cfg.bucket cksum < cfg.size := by
  have hc : cksum % 2 ^ 32 < 2 ^ 32 := Nat.mod_lt _ (by omega)
  have hpow : 2 ^ 32 = 2 ^ (32 - cfg.shift) * 2 ^ cfg.shift := by
    rw [← Nat.pow_add, Nat.sub_add_cancel cfg.shift_le]
  have hhigh : (cksum % 2 ^ 32) >>> cfg.shift < 2 ^ (32 - cfg.shift) := by
    rw [Nat.shiftRight_eq_div_pow, Nat.div_lt_iff_lt_mul (Nat.two_pow_pos _), ← hpow]
    exact hc
  have hlow : (cksum % 2 ^ 32) &&& cfg.mask < 2 ^ (32 - cfg.shift) := by
    have := Nat.and_le_right (n := cksum % 2 ^ 32) (m := cfg.mask)
    have := Nat.two_pow_pos (32 - cfg.shift)
    rw [cfg.mask_eq, cfg.size_eq] at *
    omega
  rw [cfg.size_eq]
  exact Nat.xor_lt_two_pow hhigh hlow

/-! ## Scanners -/

/-- `MatchFn`: `f(s1, s2, n)`. -/
abbrev MatchFn := List UInt8 → List UInt8 → Nat → Nat

/-- The eight bytes of `s` at `i` as one word:
`read_unaligned(p.add(i) as *const u64)`. -/
def wordAt (s : List UInt8) (i : Nat) : Nat :=
  leWord ((s.drop i).take 8)

/-- The word loop of `forward_match_scalar` from `i`: `.inl` the value the
function returns at a differing word, `.inr` the position where the byte
loop takes over. -/
def forwardMatchWords (s1 s2 : List UInt8) (n i : Nat) : Nat ⊕ Nat :=
  if i + 8 ≤ n then
    if wordAt s1 i ^^^ wordAt s2 i ≠ 0 then
      .inl (i + trailingZeros 64 (wordAt s1 i ^^^ wordAt s2 i) / 8)
    else forwardMatchWords s1 s2 n (i + 8)
  else .inr i
termination_by n - i

/-- The byte loop of `forward_match_scalar`, counting the bytes it steps
over: `while i < n && s1[i] == s2[i] { i += 1 }`. -/
def forwardMatchBytes : List UInt8 → List UInt8 → Nat → Nat
  | a :: s1, b :: s2, k + 1 => if a = b then forwardMatchBytes s1 s2 k + 1 else 0
  | _, _, _ => 0

/-- `forward_match_scalar`.  Its callers pass `n ≤ min(s1.len(), s2.len())`,
which keeps every read in bounds. -/
def forwardMatchScalar : MatchFn := fun s1 s2 n =>
  match forwardMatchWords s1 s2 n 0 with
  | .inl r => r
  | .inr i => i + forwardMatchBytes (s1.drop i) (s2.drop i) (n - i)

/-- The word loop of `backward_match_scalar` from `i`, downwards. -/
def backwardMatchWords (s1 s2 : List UInt8) (n i : Nat) : Nat ⊕ Nat :=
  if 8 ≤ i then
    if wordAt s1 (i - 8) ^^^ wordAt s2 (i - 8) ≠ 0 then
      .inl (n - i + leadingZeros 64 (wordAt s1 (i - 8) ^^^ wordAt s2 (i - 8)) / 8)
    else backwardMatchWords s1 s2 n (i - 8)
  else .inr i
termination_by i

/-- The byte loop of `backward_match_scalar`, returning where it stops:
`while i > 0 && s1[i - 1] == s2[i - 1] { i -= 1 }`. -/
def backwardMatchBytes (s1 s2 : List UInt8) : Nat → Nat
  | 0 => 0
  | i + 1 => if s1[i]? = s2[i]? then backwardMatchBytes s1 s2 i else i + 1

/-- `backward_match_scalar`.  Its callers pass `n ≤ min(s1.len(), s2.len())`. -/
def backwardMatchScalar : MatchFn := fun s1 s2 n =>
  match backwardMatchWords s1 s2 n n with
  | .inl r => r
  | .inr i => n - backwardMatchBytes s1 s2 i

/-- `forward_match_fn`: the SIMD variants it may dispatch to count the same
bytes as the scalar loop, which the model takes. -/
def forwardMatchFn : MatchFn := forwardMatchScalar

/-- `backward_match_fn`, likewise. -/
def backwardMatchFn : MatchFn := backwardMatchScalar

/-- The lengths `k ≤ n` of the common prefixes of `s1` and `s2`. -/
def CommonPrefix (s1 s2 : List UInt8) (n : Nat) : Set Nat :=
  {k | k ≤ n ∧ ∀ i < k, s1[i]? = s2[i]?}

/-- The lengths `k ≤ n` of the common suffixes of `s1[..n]` and `s2[..n]`. -/
def CommonSuffix (s1 s2 : List UInt8) (n : Nat) : Set Nat :=
  {k | k ≤ n ∧ ∀ i < k, s1[n - 1 - i]? = s2[n - 1 - i]?}

/-- A common prefix that is followed by a difference, or reaches `n`, is
the longest. -/
theorem isGreatest_commonPrefix {s1 s2 : List UInt8} {n k : Nat} (hk : k ≤ n)
    (heq : ∀ j < k, s1[j]? = s2[j]?) (hdiff : k < n → s1[k]? ≠ s2[k]?) :
    IsGreatest (CommonPrefix s1 s2 n) k := by
  refine ⟨⟨hk, heq⟩, fun k' hk' => ?_⟩
  obtain ⟨hk'n, heq'⟩ := hk'
  by_contra hlt
  exact hdiff (by omega) (heq' k (by omega))

theorem isGreatest_commonSuffix {s1 s2 : List UInt8} {n k : Nat} (hk : k ≤ n)
    (heq : ∀ j < k, s1[n - 1 - j]? = s2[n - 1 - j]?)
    (hdiff : k < n → s1[n - 1 - k]? ≠ s2[n - 1 - k]?) :
    IsGreatest (CommonSuffix s1 s2 n) k := by
  refine ⟨⟨hk, heq⟩, fun k' hk' => ?_⟩
  obtain ⟨hk'n, heq'⟩ := hk'
  by_contra hlt
  exact hdiff (by omega) (heq' k (by omega))

theorem getElem?_word {s : List UInt8} {i j : Nat} (hj : j < 8) :
    ((s.drop i).take 8)[j]? = s[i + j]? := by
  simp [hj, List.getElem?_drop]

theorem length_word {s : List UInt8} {i : Nat} (h : i + 8 ≤ s.length) :
    ((s.drop i).take 8).length = 8 := by
  simp only [List.length_take, List.length_drop]
  omega

/-- **One word, from the front.**  Equal words are eight equal bytes; for
different ones, the trailing zeros of their exclusive or locate the first
byte that differs. -/
theorem forward_word {s1 s2 : List UInt8} {i : Nat} (h1 : i + 8 ≤ s1.length)
    (h2 : i + 8 ≤ s2.length) :
    (wordAt s1 i ^^^ wordAt s2 i = 0 → ∀ j < 8, s1[i + j]? = s2[i + j]?) ∧
    (wordAt s1 i ^^^ wordAt s2 i ≠ 0 →
      trailingZeros 64 (wordAt s1 i ^^^ wordAt s2 i) / 8 < 8 ∧
      (∀ j < trailingZeros 64 (wordAt s1 i ^^^ wordAt s2 i) / 8, s1[i + j]? = s2[i + j]?) ∧
      s1[i + trailingZeros 64 (wordAt s1 i ^^^ wordAt s2 i) / 8]? ≠
        s2[i + trailingZeros 64 (wordAt s1 i ^^^ wordAt s2 i) / 8]?) := by
  have hl1 := length_word h1
  have hl2 := length_word h2
  unfold wordAt
  refine ⟨fun h0 j hj => ?_, fun hne => ?_⟩
  · have hw := (leWord_xor_eq_zero _ _ (hl1.trans hl2.symm)).mp h0
    rw [← getElem?_word hj, ← getElem?_word hj, hw]
  · obtain ⟨hlt, heq, hdiff⟩ := trailingZeros_xor _ _ 64 (hl1.trans hl2.symm) (by omega) hne
    rw [hl1] at hlt
    refine ⟨hlt, fun j hj => ?_, ?_⟩
    · rw [← getElem?_word (by omega), ← getElem?_word (by omega)]
      exact heq j hj
    · rw [← getElem?_word hlt, ← getElem?_word hlt]
      exact hdiff

/-- **One word, from the back.**  For different words ending at `i`, the
leading zeros of their exclusive or count the equal bytes before `i`. -/
theorem backward_word {s1 s2 : List UInt8} {i : Nat} (h8 : 8 ≤ i) (h1 : i ≤ s1.length)
    (h2 : i ≤ s2.length) :
    (wordAt s1 (i - 8) ^^^ wordAt s2 (i - 8) = 0 → ∀ j < 8, s1[i - 1 - j]? = s2[i - 1 - j]?) ∧
    (wordAt s1 (i - 8) ^^^ wordAt s2 (i - 8) ≠ 0 →
      leadingZeros 64 (wordAt s1 (i - 8) ^^^ wordAt s2 (i - 8)) / 8 < 8 ∧
      (∀ j < leadingZeros 64 (wordAt s1 (i - 8) ^^^ wordAt s2 (i - 8)) / 8,
        s1[i - 1 - j]? = s2[i - 1 - j]?) ∧
      s1[i - 1 - leadingZeros 64 (wordAt s1 (i - 8) ^^^ wordAt s2 (i - 8)) / 8]? ≠
        s2[i - 1 - leadingZeros 64 (wordAt s1 (i - 8) ^^^ wordAt s2 (i - 8)) / 8]?) := by
  have hl1 := length_word (s := s1) (i := i - 8) (by omega)
  have hl2 := length_word (s := s2) (i := i - 8) (by omega)
  -- byte `7 - j` of the word is byte `i - 1 - j` of the list
  have hidx : ∀ s : List UInt8, ∀ j < 8, ((s.drop (i - 8)).take 8)[8 - 1 - j]? = s[i - 1 - j]? := by
    intro s j hj
    rw [getElem?_word (by omega)]
    congr 1
    omega
  unfold wordAt
  refine ⟨fun h0 j hj => ?_, fun hne => ?_⟩
  · have hw := (leWord_xor_eq_zero _ _ (hl1.trans hl2.symm)).mp h0
    rw [← hidx s1 j hj, ← hidx s2 j hj, hw]
  · obtain ⟨hlt, heq, hdiff⟩ := leadingZeros_xor _ _ (hl1.trans hl2.symm) hne
    rw [hl1, show 8 * 8 = 64 from rfl] at hlt heq hdiff
    refine ⟨hlt, fun j hj => ?_, ?_⟩
    · rw [← hidx s1 j (by omega), ← hidx s2 j (by omega)]
      exact heq j hj
    · rw [← hidx s1 _ hlt, ← hidx s2 _ hlt]
      exact hdiff

/-- What the forward word loop leaves: a first difference, or a position
up to which the bytes agree, less than a word from `n`. -/
theorem forwardMatchWords_spec {s1 s2 : List UInt8} {n : Nat} (h1 : n ≤ s1.length)
    (h2 : n ≤ s2.length) (i : Nat) : i ≤ n → (∀ j < i, s1[j]? = s2[j]?) →
    (∀ r, forwardMatchWords s1 s2 n i = .inl r →
      r < n ∧ (∀ j < r, s1[j]? = s2[j]?) ∧ s1[r]? ≠ s2[r]?) ∧
    (∀ i', forwardMatchWords s1 s2 n i = .inr i' → i' ≤ n ∧ ∀ j < i', s1[j]? = s2[j]?) := by
  fun_induction forwardMatchWords s1 s2 n i with
  | case1 i hle hne =>
    intro _ heq
    obtain ⟨hd, heqd, hdiff⟩ := (forward_word (by omega) (by omega)).2 hne
    refine ⟨fun r hr => ?_, fun _ hr => (nomatch hr)⟩
    cases hr
    exact ⟨by omega, forall_lt_add heq heqd, hdiff⟩
  | case2 i hle hzero ih =>
    intro _ heq
    exact ih (by omega) (forall_lt_add heq ((forward_word (by omega) (by omega)).1 (by simpa using hzero)))
  | case3 i hlt =>
    intro hi heq
    refine ⟨fun _ hr => (nomatch hr), fun i' hr => ?_⟩
    cases hr
    exact ⟨hi, heq⟩

/-- What the forward byte loop counts: bytes that agree, up to `k`, and then
a difference unless it stopped at `k` or at the end of a list. -/
theorem forwardMatchBytes_spec : ∀ (xs ys : List UInt8) (k : Nat),
    forwardMatchBytes xs ys k ≤ k ∧ (∀ j < forwardMatchBytes xs ys k, xs[j]? = ys[j]?) ∧
      (forwardMatchBytes xs ys k < k → k ≤ xs.length → k ≤ ys.length →
        xs[forwardMatchBytes xs ys k]? ≠ ys[forwardMatchBytes xs ys k]?)
  | [], _, k => ⟨Nat.zero_le k, by simp [forwardMatchBytes], fun h hk _ => by simp at hk; omega⟩
  | _ :: _, [], k => ⟨Nat.zero_le k, by simp [forwardMatchBytes], fun h _ hk => by simp at hk; omega⟩
  | _ :: _, _ :: _, 0 => ⟨Nat.le_refl 0, by simp [forwardMatchBytes], fun h => absurd h (Nat.lt_irrefl 0)⟩
  | a :: xs, b :: ys, k + 1 => by
    obtain ⟨hle, heq, hdiff⟩ := forwardMatchBytes_spec xs ys k
    by_cases hab : a = b
    · simp only [forwardMatchBytes, hab, if_true]
      refine ⟨by omega, fun j hj => ?_, fun hlt h1 h2 => ?_⟩
      · cases j with
        | zero => rfl
        | succ j => simpa using heq j (by omega)
      · simpa using hdiff (by omega) (by simpa using h1) (by simpa using h2)
    · simp only [forwardMatchBytes, hab, if_false]
      exact ⟨Nat.zero_le _, fun j hj => absurd hj (Nat.not_lt_zero j), fun _ _ _ => by simpa using hab⟩

/-- **`forward_match_scalar` finds the longest common prefix.**  For every
`n` within both slices, the word-at-a-time scan returns the largest `k ≤ n`
such that the first `k` bytes agree. -/
theorem forwardMatchScalar_isGreatest {s1 s2 : List UInt8} {n : Nat}
    (hn : n ≤ min s1.length s2.length) :
    IsGreatest (CommonPrefix s1 s2 n) (forwardMatchScalar s1 s2 n) := by
  have h1 : n ≤ s1.length := le_trans hn (Nat.min_le_left _ _)
  have h2 : n ≤ s2.length := le_trans hn (Nat.min_le_right _ _)
  obtain ⟨hinl, hinr⟩ := forwardMatchWords_spec h1 h2 0 (Nat.zero_le n) (fun j hj => absurd hj (Nat.not_lt_zero j))
  unfold forwardMatchScalar
  split
  · next r hr =>
    obtain ⟨hlt, heq, hdiff⟩ := hinl r hr
    exact isGreatest_commonPrefix hlt.le heq fun _ => hdiff
  · next i hr =>
    obtain ⟨hi, heq⟩ := hinr i hr
    obtain ⟨hle, heqb, hdiffb⟩ := forwardMatchBytes_spec (s1.drop i) (s2.drop i) (n - i)
    refine isGreatest_commonPrefix (by omega) (forall_lt_add heq fun j hj => ?_) fun hlt => ?_
    · simpa using heqb j hj
    · simpa using hdiffb (by omega) (by simp; omega) (by simp; omega)

/-- What the backward word loop leaves: the bytes from where it stands to
`n` agree, and it returns at the last difference. -/
theorem backwardMatchWords_spec {s1 s2 : List UInt8} {n : Nat} (h1 : n ≤ s1.length)
    (h2 : n ≤ s2.length) (i : Nat) : i ≤ n → (∀ j < n - i, s1[n - 1 - j]? = s2[n - 1 - j]?) →
    (∀ r, backwardMatchWords s1 s2 n i = .inl r →
      r < n ∧ (∀ j < r, s1[n - 1 - j]? = s2[n - 1 - j]?) ∧ s1[n - 1 - r]? ≠ s2[n - 1 - r]?) ∧
    (∀ i', backwardMatchWords s1 s2 n i = .inr i' →
      i' ≤ n ∧ i' < 8 ∧ ∀ j < n - i', s1[n - 1 - j]? = s2[n - 1 - j]?) := by
  fun_induction backwardMatchWords s1 s2 n i with
  | case1 i hle hne =>
    intro hi heq
    obtain ⟨hd, heqd, hdiff⟩ := (backward_word hle (by omega) (by omega)).2 hne
    refine ⟨fun r hr => ?_, fun _ hr => (nomatch hr)⟩
    cases hr
    refine ⟨by omega, forall_lt_add heq fun j hj => ?_, ?_⟩
    · rw [show n - 1 - (n - i + j) = i - 1 - j by omega]
      exact heqd j hj
    · rw [show n - 1 - (n - i + leadingZeros 64 (wordAt s1 (i - 8) ^^^ wordAt s2 (i - 8)) / 8) =
        i - 1 - leadingZeros 64 (wordAt s1 (i - 8) ^^^ wordAt s2 (i - 8)) / 8 by omega]
      exact hdiff
  | case2 i hle hzero ih =>
    intro hi heq
    have hword := (@backward_word s1 s2 i hle (by omega) (by omega)).1 (by simpa using hzero)
    refine ih (by omega) ?_
    rw [show n - (i - 8) = n - i + 8 by omega]
    refine forall_lt_add heq fun j hj => ?_
    rw [show n - 1 - (n - i + j) = i - 1 - j by omega]
    exact hword j hj
  | case3 i hlt =>
    intro hi heq
    refine ⟨fun _ hr => (nomatch hr), fun i' hr => ?_⟩
    cases hr
    exact ⟨hi, by omega, heq⟩

/-- Where the backward byte loop stops: the bytes from there up to `i` agree,
and the one before differs unless it reached the start. -/
theorem backwardMatchBytes_spec (s1 s2 : List UInt8) : ∀ i : Nat,
    backwardMatchBytes s1 s2 i ≤ i ∧
      (∀ j, backwardMatchBytes s1 s2 i ≤ j → j < i → s1[j]? = s2[j]?) ∧
      (0 < backwardMatchBytes s1 s2 i →
        s1[backwardMatchBytes s1 s2 i - 1]? ≠ s2[backwardMatchBytes s1 s2 i - 1]?)
  | 0 => ⟨Nat.le_refl 0, fun j _ hj => absurd hj (Nat.not_lt_zero j), fun h => absurd h (Nat.lt_irrefl 0)⟩
  | i + 1 => by
    obtain ⟨hle, heq, hdiff⟩ := backwardMatchBytes_spec s1 s2 i
    by_cases hi : s1[i]? = s2[i]?
    · simp only [backwardMatchBytes, hi, if_true]
      refine ⟨by omega, fun j hj hji => ?_, hdiff⟩
      by_cases hj' : j = i
      · rw [hj']; exact hi
      · exact heq j hj (by omega)
    · simp only [backwardMatchBytes, hi, if_false]
      exact ⟨Nat.le_refl _, fun j hj hji => absurd hji (by omega), fun _ => by simpa using hi⟩

/-- **`backward_match_scalar` finds the longest common suffix.**  For every
`n` within both slices, the word-at-a-time scan from the back returns the
largest `k ≤ n` such that the last `k` bytes of `s1[..n]` and `s2[..n]`
agree. -/
theorem backwardMatchScalar_isGreatest {s1 s2 : List UInt8} {n : Nat}
    (hn : n ≤ min s1.length s2.length) :
    IsGreatest (CommonSuffix s1 s2 n) (backwardMatchScalar s1 s2 n) := by
  have h1 : n ≤ s1.length := le_trans hn (Nat.min_le_left _ _)
  have h2 : n ≤ s2.length := le_trans hn (Nat.min_le_right _ _)
  obtain ⟨hinl, hinr⟩ := backwardMatchWords_spec h1 h2 n (Nat.le_refl n)
    (fun j hj => absurd hj (by omega))
  unfold backwardMatchScalar
  split
  · next r hr =>
    obtain ⟨hlt, heq, hdiff⟩ := hinl r hr
    exact isGreatest_commonSuffix hlt.le heq fun _ => hdiff
  · next i hr =>
    obtain ⟨hi, -, heq⟩ := hinr i hr
    obtain ⟨hle, heqb, hdiffb⟩ := backwardMatchBytes_spec s1 s2 i
    refine isGreatest_commonSuffix (by omega) (fun j hj => ?_) fun hlt => ?_
    · by_cases hji : j < n - i
      · exact heq j hji
      · exact heqb _ (by omega) (by omega)
    · rw [show n - 1 - (n - backwardMatchBytes s1 s2 i) = backwardMatchBytes s1 s2 i - 1 by omega]
      exact hdiffb (by omega)

/-- **The word-at-a-time scanners.**  On a little-endian target, for all byte
strings and every `n` within both, `forward_match_scalar` returns the largest
`k ≤ n` whose first `k` bytes agree, and `backward_match_scalar` the largest
`k ≤ n` whose last `k` bytes before `n` agree. -/
theorem matchScalar_isGreatest (s1 s2 : List UInt8) (n : Nat) (hn : n ≤ min s1.length s2.length) :
    IsGreatest (CommonPrefix s1 s2 n) (forwardMatchScalar s1 s2 n) ∧
      IsGreatest (CommonSuffix s1 s2 n) (backwardMatchScalar s1 s2 n) :=
  ⟨forwardMatchScalar_isGreatest hn, backwardMatchScalar_isGreatest hn⟩

/-- Two ten-byte strings that differ in their second word. -/
theorem matchScalar_isGreatest_ten :
    10 ≤ min [1, 2, 3, 4, 5, 6, 7, 8, 9, 10].length [1, 2, 3, 4, 5, 6, 7, 8, 0, 10].length ∧
    IsGreatest (CommonPrefix [1, 2, 3, 4, 5, 6, 7, 8, 9, 10] [1, 2, 3, 4, 5, 6, 7, 8, 0, 10] 10)
      (forwardMatchScalar [1, 2, 3, 4, 5, 6, 7, 8, 9, 10] [1, 2, 3, 4, 5, 6, 7, 8, 0, 10] 10) ∧
    IsGreatest (CommonSuffix [1, 2, 3, 4, 5, 6, 7, 8, 9, 10] [1, 2, 3, 4, 5, 6, 7, 8, 0, 10] 10)
      (backwardMatchScalar [1, 2, 3, 4, 5, 6, 7, 8, 9, 10] [1, 2, 3, 4, 5, 6, 7, 8, 0, 10] 10) :=
  ⟨by decide, matchScalar_isGreatest _ _ 10 (by decide)⟩

end Oxidelta.Hash
