import Oxidelta.Lib.Lockstep
import Oxidelta.Vcdiff.Varint

/-!
# The NEAR/SAME address cache (`vcdiff/address_cache.rs`)

RFC 3284 §5.3 encodes the address of a COPY against a cache that encoder and
decoder both keep: a ring of the last `s_near` addresses, and a table of
`s_same * 256` addresses indexed by the address modulo its size.  The mode of
an address names how it is stored: `VCD_SELF` (the address itself),
`VCD_HERE` (its distance below the current position), a NEAR slot (its
distance above the slot's address), or a SAME group (one byte indexing the
table).  Every address encoded or decoded then enters the cache (`update`).

The cache is a structure whose vectors have the lengths the source allocates
and whose ring position stays inside the ring, so that every index the
source takes is in bounds by construction; its modes fit in a byte, as the
format requires (`mode_count() ≤ 256`; the program only builds the default
cache, with nine modes).

Main results:

* `decode_encode` — decoding what `encode` returns, in the encoder's state
  before the step, gives back the address and the number of bytes, and ends
  in the encoder's state after the step;
* `decodeRun_encodeRun` — the same for every sequence of addresses: the
  decoder follows the encoder in lockstep (the rule `Lockstep.decodeTrace_encodeTrace`).
-/

namespace Oxidelta.Vcdiff

open Rust

/-- `VCD_SELF`: the address itself. -/
def vcdSelf : UInt8 := 0

/-- `VCD_HERE`: the distance below the current position. -/
def vcdHere : UInt8 := 1

/-- `AddressCache`.  The SAME table has `s_same * 256` entries, written
`256 * sSame` in its type. -/
structure AddressCache where
  sNear : Nat
  sSame : Nat
  near : Vector Nat sNear
  same : Vector Nat (256 * sSame)
  nextSlot : Nat
  nextSlot_lt : 0 < sNear → nextSlot < sNear
  modes_fit : 2 + sNear + sSame ≤ 256

/-- `AddressCacheError`. -/
inductive AddressCacheError where
  | addrUnderflow
  | invalidAddr
  deriving Repr, DecidableEq

/-- `EncodedAddr`: the bytes of a varint (`bytes[..len]`), or one SAME byte. -/
inductive EncodedAddr where
  | varInt (bytes : List UInt8)
  | sameByte (b : UInt8)
  deriving Repr, DecidableEq

namespace EncodedAddr

/-- `EncodedAddr::as_bytes`. -/
def asBytes : EncodedAddr → List UInt8
  | varInt bytes => bytes
  | sameByte b => [b]

/-- `EncodedAddr::len`. -/
def len : EncodedAddr → Nat
  | varInt bytes => bytes.length
  | sameByte _ => 1

theorem len_eq_length (e : EncodedAddr) : e.len = e.asBytes.length := by
  cases e <;> rfl

end EncodedAddr

namespace AddressCache

/-- `AddressCache::with_sizes`: all entries zero. -/
def withSizes (sNear sSame : Nat) (h : 2 + sNear + sSame ≤ 256) : AddressCache where
  sNear := sNear
  sSame := sSame
  near := Vector.replicate sNear 0
  same := Vector.replicate (256 * sSame) 0
  nextSlot := 0
  nextSlot_lt := id
  modes_fit := h

/-- `AddressCache::new`: four NEAR slots and three SAME groups. -/
def new : AddressCache := withSizes 4 3 (by decide)

/-- `AddressCache::init`, called at the start of every window. -/
def init (c : AddressCache) : AddressCache :=
  withSizes c.sNear c.sSame c.modes_fit

/-- `AddressCache::mode_count`. -/
def modeCount (c : AddressCache) : Nat := 2 + c.sNear + c.sSame

/-- `AddressCache::same_start`. -/
def sameStart (c : AddressCache) : Nat := 2 + c.sNear

/-- The SAME index of an address is inside the table. -/
theorem sameIdx_lt {sSame : Nat} (h : 0 < sSame) (addr : Nat) : addr % (sSame * 256) < 256 * sSame := by
  rw [Nat.mul_comm]; exact Nat.mod_lt _ (by omega)

/-- `AddressCache::update`: the address enters the NEAR ring at the next
slot, and the SAME table at its residue. -/
def update (c : AddressCache) (addr : Nat) : AddressCache :=
  let c : AddressCache :=
    if h : 0 < c.sNear then
      { c with
        near := c.near.set c.nextSlot addr (c.nextSlot_lt h)
        nextSlot := (c.nextSlot + 1) % c.sNear
        nextSlot_lt := fun h => Nat.mod_lt _ h }
    else c
  if h : 0 < c.sSame then
    { c with same := c.same.set (addr % (c.sSame * 256)) addr (sameIdx_lt h addr) }
  else c

/-! ## Encoding -/

/-- `emit_non_same`: the mode and the varint of the value. -/
def emitNonSame (val : Nat) (mode : UInt8) : UInt8 × EncodedAddr :=
  (mode, .varInt (encodeU64 val))

/-- The NEAR loop of `encode` from slot `i`, with the best distance and mode
found so far: `.inl` when `smallest_int!` returns early on a one-byte
distance, `.inr` with the best pair when the loop ends. -/
def nearScan (c : AddressCache) (addr : Nat) (i : Nat) (best : Nat × UInt8) :
    (Nat × UInt8) ⊕ (Nat × UInt8) :=
  if h : i < c.sNear then
    if c.near[i] ≤ addr ∧ addr - c.near[i] < best.1 then
      if addr - c.near[i] ≤ 127 then .inl (addr - c.near[i], UInt8.ofNat i + 2)
      else nearScan c addr (i + 1) (addr - c.near[i], UInt8.ofNat i + 2)
    else nearScan c addr (i + 1) best
  else .inr best
termination_by c.sNear - i

/-- The SAME probe of `encode`: the table index, when the address sits at
its residue. -/
def sameHit (c : AddressCache) (addr : Nat) : Option Nat :=
  if h : 0 < c.sSame then
    have := sameIdx_lt h addr
    if c.same[addr % (c.sSame * 256)] = addr then
      some (addr % (c.sSame * 256))
    else none
  else none

/-- `AddressCache::encode`: SELF, then HERE, then each NEAR slot, each
returning as soon as the distance fits one byte; then the SAME probe; then
the best varint.  Every path updates the cache once.  The source asserts
`addr < here`. -/
def encode (c : AddressCache) (addr here : Nat) : UInt8 × EncodedAddr × AddressCache :=
  let emit (d : Nat) (m : UInt8) := ((emitNonSame d m).1, (emitNonSame d m).2, c.update addr)
  if addr ≤ 127 then emit addr vcdSelf
  else
    let d := here - addr
    let best := if d < addr then (d, vcdHere) else (addr, vcdSelf)
    if d < addr ∧ d ≤ 127 then emit d vcdHere
    else
      match c.nearScan addr 0 best with
      | .inl (d, m) => emit d m
      | .inr (d, m) =>
        match c.sameHit addr with
        | some idx =>
          (UInt8.ofNat (c.sameStart + idx / 256), .sameByte (UInt8.ofNat (idx % 256)), c.update addr)
        | none => emit d m

/-! ## Decoding -/

/-- The address of a SELF, HERE or NEAR mode from the varint `raw`:
`here.checked_sub(raw)` and `near[mode - 2].checked_add(raw)` fail with
`InvalidAddr`. -/
def nonSameAddr (c : AddressCache) (mode raw here : Nat) (h : mode < c.sameStart) :
    Result AddressCacheError Nat :=
  match mode, h with
  | 0, _ => .ok raw
  | 1, _ => if raw ≤ here then .ok (here - raw) else fail .invalidAddr
  | i + 2, h =>
    have : i < c.sNear := by simp only [sameStart] at h; omega
    let n := c.near[i]
    if n + raw < 2 ^ 64 then .ok (n + raw) else fail .invalidAddr

/-- `AddressCache::decode`: the address, the bytes consumed and the updated
cache.  A SAME mode beyond the cache's groups indexes past the table, which
panics as the source does. -/
def decode (c : AddressCache) (mode : UInt8) (addrData : List UInt8) (here : Nat) :
    Result AddressCacheError (Nat × Nat × AddressCache) := do
  let (addr, consumed) ←
    if h : mode.toNat < c.sameStart then do
      let (raw, consumed) ← lift (fun _ => AddressCacheError.addrUnderflow) (readU64 addrData)
      let addr ← c.nonSameAddr mode.toNat raw here h
      pure (addr, consumed)
    else
      match addrData with
      | [] => fail .addrUnderflow
      | byte :: _ => do
        let addr ← index c.same.toList ((mode.toNat - c.sameStart) * 256 + byte.toNat)
        pure (addr, 1)
  if here ≤ addr then fail .invalidAddr else pure (addr, consumed, c.update addr)

/-! ## The cache's shape -/

@[simp] theorem update_sNear (c : AddressCache) (addr : Nat) : (c.update addr).sNear = c.sNear := by
  unfold update
  by_cases hn : 0 < c.sNear <;> by_cases hs : 0 < c.sSame <;> simp [hn, hs]

@[simp] theorem update_sSame (c : AddressCache) (addr : Nat) : (c.update addr).sSame = c.sSame := by
  unfold update
  by_cases hn : 0 < c.sNear <;> by_cases hs : 0 < c.sSame <;> simp [hn, hs]

@[simp] theorem sameStart_update (c : AddressCache) (addr : Nat) :
    (c.update addr).sameStart = c.sameStart := by
  simp [sameStart]

/-- What a successful decode returns: an address below `here`, and the cache
updated with it. -/
theorem decode_eq_ok {c c' : AddressCache} {mode : UInt8} {addrData : List UInt8}
    {here addr consumed : Nat} (h : c.decode mode addrData here = .ok (addr, consumed, c')) :
    addr < here ∧ c' = c.update addr := by
  -- every path ends in the check `here <= addr` of the join point
  have hcheck : ∀ a n, (if here ≤ a then fail .invalidAddr else pure (a, n, c.update a) :
      Result AddressCacheError _) = .ok (addr, consumed, c') → addr < here ∧ c' = c.update addr := by
    intro a n hc
    split at hc
    · simp [fail] at hc
    · cases hc
      exact ⟨by omega, rfl⟩
  unfold decode at h
  dsimp only at h
  split at h
  · obtain ⟨⟨raw, n⟩, -, h⟩ := bind_eq_ok h
    obtain ⟨a, -, h⟩ := bind_eq_ok h
    exact hcheck a n h
  · split at h
    · simp [fail] at h
    · obtain ⟨a, -, h⟩ := bind_eq_ok h
      exact hcheck a 1 h

/-- Two caches of the same sizes reset to the same cache. -/
theorem init_eq_of_sizes {c c' : AddressCache} (hn : c.sNear = c'.sNear) (hs : c.sSame = c'.sSame) :
    c.init = c'.init := by
  obtain ⟨n, s, _, _, _, _, _⟩ := c
  obtain ⟨n', s', _, _, _, _, _⟩ := c'
  dsimp only at hn hs
  subst hn hs
  rfl

@[simp] theorem init_update (c : AddressCache) (addr : Nat) : (c.update addr).init = c.init :=
  init_eq_of_sizes (update_sNear c addr) (update_sSame c addr)

/-- Decoding keeps the cache's sizes, so the cache it resets to. -/
theorem decode_init {c c' : AddressCache} {mode : UInt8} {addrData : List UInt8}
    {here addr consumed : Nat} (h : c.decode mode addrData here = .ok (addr, consumed, c')) :
    c'.init = c.init := by
  rw [(decode_eq_ok h).2, init_update]

/-- A mode the decoder accepts is one of the cache's modes: a SAME mode past
the groups fails to index the table. -/
theorem decode_mode_lt {c c' : AddressCache} {mode : UInt8} {addrData : List UInt8}
    {here addr consumed : Nat} (h : c.decode mode addrData here = .ok (addr, consumed, c')) :
    mode.toNat < c.modeCount := by
  unfold decode at h
  dsimp only at h
  split at h
  · next hm =>
    simp only [modeCount, sameStart] at hm ⊢
    omega
  · next hm =>
    split at h
    · simp [fail] at h
    · obtain ⟨a, ha, -⟩ := bind_eq_ok h
      have hlt := (List.getElem?_eq_some_iff.1 (index_eq_ok ha)).1
      simp only [Vector.length_toList] at hlt
      simp only [modeCount, sameStart] at hm hlt ⊢
      omega

/-- Every path of `encode` updates the cache once, with the address. -/
theorem encode_cache (c : AddressCache) (addr here : Nat) :
    (c.encode addr here).2.2 = c.update addr := by
  unfold encode
  dsimp only
  split <;> (try split) <;> (try split) <;> (try split) <;> rfl

/-! ## What the encoder's candidates name -/

/-- The pair `(d, m)` of a non-SAME mode names `addr` at position `here`:
the decoder, reading the varint `d` under mode `m`, finds `addr`. -/
def Names (c : AddressCache) (addr here : Nat) (best : Nat × UInt8) : Prop :=
  best.1 < 2 ^ 64 ∧ ∃ h : best.2.toNat < c.sameStart, c.nonSameAddr best.2.toNat best.1 here h = .ok addr

theorem names_self (c : AddressCache) {addr : Nat} (here : Nat) (ha : addr < 2 ^ 64) :
    c.Names addr here (addr, vcdSelf) :=
  ⟨ha, by simp [vcdSelf, sameStart], rfl⟩

theorem names_here (c : AddressCache) {addr here : Nat} (hle : addr ≤ here) (hh : here < 2 ^ 64) :
    c.Names addr here (here - addr, vcdHere) := by
  refine ⟨by simp only; omega, ?_⟩
  rw [show vcdHere.toNat = 1 from rfl]
  refine ⟨by simp only [sameStart]; omega, ?_⟩
  simp only [nonSameAddr]
  rw [if_pos (by omega), Nat.sub_sub_self hle]

theorem names_near (c : AddressCache) {addr : Nat} (here : Nat) {i : Nat} (hi : i < c.sNear)
    (hle : c.near[i] ≤ addr) (ha : addr < 2 ^ 64) :
    c.Names addr here (addr - c.near[i], UInt8.ofNat i + 2) := by
  -- the mode `i + 2` fits in a byte because every mode of the cache does
  have hfit := c.modes_fit
  have hmode : (UInt8.ofNat i + 2).toNat = i + 2 := by
    rw [UInt8.toNat_add, UInt8.toNat_ofNat']; simp; omega
  refine ⟨by simp only; omega, ?_⟩
  rw [hmode]
  refine ⟨by simp [sameStart]; omega, ?_⟩
  simp only [nonSameAddr]
  rw [if_pos (by omega)]
  congr 1
  omega

/-- The NEAR loop keeps a candidate that names the address. -/
theorem nearScan_names (c : AddressCache) {addr : Nat} (here : Nat) (ha : addr < 2 ^ 64) (i : Nat)
    (best : Nat × UInt8) (hbest : c.Names addr here best) :
    c.Names addr here ((c.nearScan addr i best).elim id id) := by
  fun_induction nearScan c addr i best with
  | case1 i best hi hcond hsmall => exact names_near c here hi hcond.1 ha
  | case2 i best hi hcond hsmall ih => exact ih (names_near c here hi hcond.1 ha)
  | case3 i best hi hcond ih => exact ih hbest
  | case4 i best hi => exact hbest

/-! ## Decoding what the encoder wrote -/

/-- A varint candidate that names the address decodes to it. -/
theorem decode_emitNonSame (c : AddressCache) {addr here : Nat} {best : Nat × UInt8}
    (hnames : c.Names addr here best) (hlt : addr < here) (rest : List UInt8) :
    c.decode (emitNonSame best.1 best.2).1 ((emitNonSame best.1 best.2).2.asBytes ++ rest) here =
      .ok (addr, (emitNonSame best.1 best.2).2.len, c.update addr) := by
  obtain ⟨hd, hmode, hok⟩ := hnames
  have hread := readU64_encodeU64 hd rest
  simp only [emitNonSame, EncodedAddr.asBytes, EncodedAddr.len, decode, dif_pos hmode, hread,
    lift, bind_ok', hok, pure_bind, if_neg (Nat.not_le.mpr hlt)]
  rfl

/-- A SAME hit decodes to the address: the mode names the group and the byte
the entry inside it. -/
theorem decode_sameHit (c : AddressCache) {addr here idx : Nat} (hhit : c.sameHit addr = some idx)
    (hlt : addr < here) (rest : List UInt8) :
    c.decode (UInt8.ofNat (c.sameStart + idx / 256)) (UInt8.ofNat (idx % 256) :: rest) here =
      .ok (addr, 1, c.update addr) := by
  unfold sameHit at hhit
  split at hhit
  · next hsame =>
    dsimp only at hhit
    split at hhit
    · next hentry =>
      cases hhit
      have hfit := c.modes_fit
      have hidx : addr % (c.sSame * 256) < c.sSame * 256 := Nat.mod_lt _ (by omega)
      have hgroup : addr % (c.sSame * 256) / 256 < c.sSame := by omega
      have hmode : (UInt8.ofNat (c.sameStart + addr % (c.sSame * 256) / 256)).toNat =
          c.sameStart + addr % (c.sSame * 256) / 256 := by
        rw [UInt8.toNat_ofNat']; simp only [sameStart]; omega
      have hbyte : (UInt8.ofNat (addr % (c.sSame * 256) % 256)).toNat = addr % (c.sSame * 256) % 256 := by
        rw [UInt8.toNat_ofNat']; omega
      have hslot : (c.sameStart + addr % (c.sSame * 256) / 256 - c.sameStart) * 256 +
          addr % (c.sSame * 256) % 256 = addr % (c.sSame * 256) := by omega
      have hget : (index c.same.toList (addr % (c.sSame * 256)) : Result AddressCacheError Nat) =
          .ok addr := by
        rw [index_of_lt (by simpa using sameIdx_lt hsame addr)]
        simpa using hentry
      simp only [decode, hmode, hbyte, dif_neg, Nat.not_lt.mpr (Nat.le_add_right _ _),
        hslot, hget, bind_ok', pure_bind, if_neg (Nat.not_le.mpr hlt), not_false_eq_true]
      rfl
    · simp at hhit
  · simp at hhit

/-- What `encode` returns: a varint of a candidate that names the address, or
a SAME hit; either way the cache is updated with the address. -/
theorem encode_cases (c : AddressCache) {addr here : Nat} (hlt : addr < here) (hhere : here < 2 ^ 64) :
    (∃ best, c.Names addr here best ∧
      c.encode addr here = ((emitNonSame best.1 best.2).1, (emitNonSame best.1 best.2).2, c.update addr)) ∨
    ∃ idx, c.sameHit addr = some idx ∧
      c.encode addr here =
        (UInt8.ofNat (c.sameStart + idx / 256), .sameByte (UInt8.ofNat (idx % 256)), c.update addr) := by
  have ha : addr < 2 ^ 64 := by omega
  unfold encode
  by_cases hself : addr ≤ 127
  · simp only [if_pos hself]
    exact .inl ⟨_, names_self c here ha, rfl⟩
  · simp only [if_neg hself]
    by_cases hhere1 : here - addr < addr ∧ here - addr ≤ 127
    · simp only [if_pos hhere1]
      exact .inl ⟨_, names_here c hlt.le hhere, rfl⟩
    · simp only [if_neg hhere1]
      -- the best candidate before the NEAR loop is HERE or SELF
      have hbest : c.Names addr here (if here - addr < addr then (here - addr, vcdHere) else (addr, vcdSelf)) := by
        split
        · exact names_here c hlt.le hhere
        · exact names_self c here ha
      have hscan := nearScan_names c here ha 0 _ hbest
      split
      · next d m heq =>
        rw [heq] at hscan
        exact .inl ⟨_, hscan, rfl⟩
      · next d m heq =>
        rw [heq] at hscan
        split
        · next idx hhit => exact .inr ⟨idx, hhit, rfl⟩
        · exact .inl ⟨_, hscan, rfl⟩

/-- **One step.**  Decoding, in the encoder's state before the step, the mode
and the bytes `encode` returned gives back the address and the number of
bytes, and leaves the decoder in the encoder's state after the step. -/
theorem decode_encode (c : AddressCache) {addr here : Nat} (hlt : addr < here)
    (hhere : here < 2 ^ 64) (rest : List UInt8) :
    c.decode (c.encode addr here).1 ((c.encode addr here).2.1.asBytes ++ rest) here =
      .ok (addr, (c.encode addr here).2.1.len, (c.encode addr here).2.2) := by
  rcases encode_cases c hlt hhere with ⟨best, hnames, he⟩ | ⟨idx, hhit, he⟩
  · rw [he]
    exact decode_emitNonSame c hnames hlt rest
  · rw [he]
    exact decode_sameHit c hhit hlt rest

/-- An encoded address takes at most the ten bytes of a `u64` varint. -/
theorem encode_len_le (c : AddressCache) {addr here : Nat} (hlt : addr < here)
    (hhere : here < 2 ^ 64) : (c.encode addr here).2.1.len ≤ 10 := by
  rcases encode_cases c hlt hhere with ⟨best, hnames, he⟩ | ⟨idx, -, he⟩
  · rw [he]
    simp only [emitNonSame, EncodedAddr.len, encodeU64_length hnames.1, sizeofU64, sizeofWidth]
    exact Nat.min_le_right _ _
  · rw [he]
    simp [EncodedAddr.len]

/-- Nothing decodes from an empty address section. -/
theorem decode_nil (c : AddressCache) (mode : UInt8) (here : Nat) (r : Nat × Nat × AddressCache) :
    c.decode mode [] here ≠ .ok r := by
  unfold decode
  dsimp only
  split
  · simp [readU64, varintLoop, lift, Except.map]
  · simp [fail]

/-- `encode` writes at least one byte. -/
theorem encode_asBytes_ne_nil (c : AddressCache) {addr here : Nat} (hlt : addr < here)
    (hhere : here < 2 ^ 64) : (c.encode addr here).2.1.asBytes ≠ [] := by
  intro h
  have hdec := decode_encode c hlt hhere []
  rw [h] at hdec
  exact decode_nil c _ here _ hdec

/-- The mode `encode` picks is one of the cache's modes. -/
theorem encode_mode_lt (c : AddressCache) {addr here : Nat} (hlt : addr < here)
    (hhere : here < 2 ^ 64) : (c.encode addr here).1.toNat < c.modeCount :=
  decode_mode_lt (decode_encode c hlt hhere [])

/-! ## Runs -/

/-- The encoder's side of a run: the mode and encoded address of each
`(addr, here)` pair, with the cache after it. -/
def encodeRun (c : AddressCache) (ps : List (Nat × Nat)) : List ((UInt8 × EncodedAddr) × AddressCache) :=
  Lockstep.encodeTrace (fun c p => (((c.encode p.1 p.2).1, (c.encode p.1 p.2).2.1), (c.encode p.1 p.2).2.2)) c ps

/-- The decoder's side of a run, on `(mode, bytes, here)` triples: the address
and the bytes consumed by each, with the cache after it; the first error stops
it. -/
def decodeRun (c : AddressCache) (inputs : List (UInt8 × List UInt8 × Nat)) :
    Result AddressCacheError (List ((Nat × Nat) × AddressCache)) :=
  Lockstep.decodeTrace (fun c i => (c.decode i.1 i.2.1 i.2.2).map fun r => ((r.1, r.2.1), r.2.2)) c inputs

/-- **The caches agree over every run.**  For every sequence of addresses, each
below its position, the decoder fed the modes and bytes the encoder produced
returns every address with the number of bytes it was written in, and its
cache after each step is the encoder's. -/
theorem decodeRun_encodeRun (c : AddressCache) (ps : List (Nat × Nat))
    (hps : ∀ p ∈ ps, p.1 < p.2 ∧ p.2 < 2 ^ 64) :
    decodeRun c (List.zipWith (fun p r => (r.1.1, r.1.2.asBytes, p.2)) ps (encodeRun c ps)) =
      .ok (List.zipWith (fun p r => ((p.1, r.1.2.len), r.2)) ps (encodeRun c ps)) := by
  unfold decodeRun encodeRun
  refine Lockstep.decodeTrace_encodeTrace _ _
    (fun (p : Nat × Nat) (r : UInt8 × EncodedAddr) => (r.1, r.2.asBytes, p.2))
    (fun (p : Nat × Nat) (r : UInt8 × EncodedAddr) => (p.1, r.2.len))
    (fun p => p.1 < p.2 ∧ p.2 < 2 ^ 64) ?_ ps c hps
  intro c p hp
  have hdec := decode_encode c hp.1 hp.2 []
  rw [List.append_nil] at hdec
  simp only [hdec]
  rfl

theorem decodeRun_encodeRun_new :
    (∀ p ∈ [(42, 1000), (990, 1000), (500005, 1000000)], p.1 < p.2 ∧ p.2 < 2 ^ 64) ∧
      decodeRun new (List.zipWith (fun p r => (r.1.1, r.1.2.asBytes, p.2))
        [(42, 1000), (990, 1000), (500005, 1000000)]
        (encodeRun new [(42, 1000), (990, 1000), (500005, 1000000)])) =
      .ok (List.zipWith (fun p r => ((p.1, r.1.2.len), r.2))
        [(42, 1000), (990, 1000), (500005, 1000000)]
        (encodeRun new [(42, 1000), (990, 1000), (500005, 1000000)])) :=
  ⟨by decide, decodeRun_encodeRun new _ (by decide)⟩

end AddressCache

end Oxidelta.Vcdiff
