import Oxidelta.Vcdiff.Varint

/-!
# File and window headers (`vcdiff/header.rs`)

A delta starts with a file header (magic, header indicator, an optional
secondary compressor id and an optional application header) and continues
with windows, each opened by a window header: the window indicator, the copy
window, the redundant length `enc_len` of the rest of the window, the target
length, the delta indicator, the three section lengths and an optional
big-endian Adler-32.  The layout depends on three flag bits of each
indicator; `compute_enc_len` re-derives `enc_len` from the fields through
`sizeof_u64`.

The decoders read from an in-memory stream (`Rust.ReadM`), and
`compute_enc_len` adds `u64`s with overflow checks, as in the test and
fuzzing builds.

Main results:

* `FileHeader.decode_encode` — a well-formed file header is read back from
  its bytes followed by anything, consuming exactly its bytes;
* `WindowHeader.decode_encode` — the same for window headers whose `enc_len`
  is the one `compute_enc_len` gives;
* `WindowHeader.computeEncLen_eq` — `compute_enc_len` counts the bytes the
  encoder writes after the `enc_len` varint, plus the three sections;
* `FileHeader.decode_valid`, `WindowHeader.decode_valid` — conversely, every
  header the decoders accept is well formed.
-/

namespace Oxidelta.Vcdiff

open Rust

/-- `VCDIFF_MAGIC`. -/
def vcdiffMagic : List UInt8 := [0xD6, 0xC3, 0xC4, 0x00]

/-- `VCD_SECONDARY`. -/
def vcdSecondary : UInt8 := 1
/-- `VCD_CODETABLE`. -/
def vcdCodetable : UInt8 := 2
/-- `VCD_APPHEADER`. -/
def vcdAppheader : UInt8 := 4
/-- `VCD_INVHDR`: the invalid header indicator bits. -/
def vcdInvhdr : UInt8 := ~~~0x07

/-- `VCD_SOURCE`. -/
def vcdSource : UInt8 := 1
/-- `VCD_TARGET`. -/
def vcdTarget : UInt8 := 2
/-- `VCD_ADLER32`. -/
def vcdAdler32 : UInt8 := 4
/-- `VCD_INVWIN`: the invalid window indicator bits. -/
def vcdInvwin : UInt8 := ~~~0x07

/-- `VCD_DATACOMP`. -/
def vcdDatacomp : UInt8 := 1
/-- `VCD_INSTCOMP`. -/
def vcdInstcomp : UInt8 := 2
/-- `VCD_ADDRCOMP`. -/
def vcdAddrcomp : UInt8 := 4
/-- `VCD_INVDEL`: the invalid delta indicator bits. -/
def vcdInvdel : UInt8 := ~~~0x07

/-- `HARD_MAX_WINSIZE`. -/
def hardMaxWinsize : Nat := 2 ^ 24

/-! ## Formatting of error messages -/

/-- An upper-case hexadecimal digit. -/
def hexDigit (n : Nat) : Char :=
  if n < 10 then Char.ofNat (48 + n) else Char.ofNat (55 + n)

/-- `{:02X}`. -/
def hex02 (b : UInt8) : String := String.ofList [hexDigit (b.toNat / 16), hexDigit (b.toNat % 16)]

/-- `{:#04X}`. -/
def hexAlt04 (b : UInt8) : String := "0x" ++ hex02 b

/-- A `ReadM` computation that fails with `io::Error::new(kind, msg)`. -/
def ioFail {α : Type} (kind : ErrorKind) (msg : String) : ReadM IoError α :=
  fun _ => .error (.err (IoError.new kind msg))

/-! ## The file header -/

/-- `FileHeader`. -/
structure FileHeader where
  hdrInd : UInt8
  secondaryId : Option UInt8
  appHeader : Option (List UInt8)
  deriving DecidableEq, Repr

namespace FileHeader

/-- `FileHeader::default()`. -/
def default : FileHeader := ⟨0, none, none⟩

/-- `FileHeader::encode`: magic, indicator, the secondary id if flagged, the
application header (length and bytes) if flagged. -/
def encode (h : FileHeader) : List UInt8 :=
  vcdiffMagic ++ [h.hdrInd] ++
    (if h.hdrInd &&& vcdSecondary ≠ 0 then [h.secondaryId.getD 0] else []) ++
    (if h.hdrInd &&& vcdAppheader ≠ 0 then
      match h.appHeader with
      | some data => encodeU64 data.length ++ data
      | none => encodeU64 0
    else [])

/-- `FileHeader::decode`. -/
def decode : ReadM IoError FileHeader := do
  let magic ← readExact 4
  if magic.take 3 ≠ vcdiffMagic.take 3 then
    ioFail .invalidData ("invalid VCDIFF magic: expected D6 C3 C4, got " ++
      hex02 (magic.getD 0 0) ++ " " ++ hex02 (magic.getD 1 0) ++ " " ++ hex02 (magic.getD 2 0))
  else if magic.getD 3 0 ≠ 0 then
    ioFail .invalidData ("unsupported VCDIFF version: " ++ hexAlt04 (magic.getD 3 0))
  else
    let hdrInd ← readByte
    if hdrInd &&& vcdInvhdr ≠ 0 then
      ioFail .invalidData ("invalid header indicator bits: " ++ hexAlt04 hdrInd)
    else
      let secondaryId ← if hdrInd &&& vcdSecondary ≠ 0 then some <$> readByte else pure none
      if hdrInd &&& vcdCodetable ≠ 0 then
        ioFail .unsupported "VCD_CODETABLE is not supported"
      else
        let appHeader ←
          if hdrInd &&& vcdAppheader ≠ 0 then do
            let len ← streamReadU64
            some <$> readExact len
          else pure none
        pure ⟨hdrInd, secondaryId, appHeader⟩

/-- A file header the encoder can write and the decoder accepts: indicator
bits among the three defined ones, no custom code table, and the optional
fields present exactly when flagged. -/
structure Valid (h : FileHeader) : Prop where
  hdrInd_lt : h.hdrInd.toNat < 8
  no_codetable : h.hdrInd &&& vcdCodetable = 0
  secondary_iff : h.hdrInd &&& vcdSecondary ≠ 0 ↔ h.secondaryId.isSome
  app_iff : h.hdrInd &&& vcdAppheader ≠ 0 ↔ h.appHeader.isSome
  app_lt : ∀ d, h.appHeader = some d → d.length < 2 ^ 64

/-- The indicators of valid headers: no flag, a secondary id, an application
header, or both. -/
theorem hdrInd_cases {b : UInt8} (hlt : b.toNat < 8) (hct : b &&& vcdCodetable = 0) :
    b = 0 ∨ b = 1 ∨ b = 4 ∨ b = 5 := by
  have h : ∀ x : Fin 8, UInt8.ofNat x.val &&& vcdCodetable = 0 →
      UInt8.ofNat x.val = 0 ∨ UInt8.ofNat x.val = 1 ∨ UInt8.ofNat x.val = 4 ∨
        UInt8.ofNat x.val = 5 := by
    decide
  have := h ⟨b.toNat, hlt⟩
  simp only [UInt8.ofNat_toNat] at this
  exact this hct

/-- **File header round trip.** -/
theorem decode_encode (h : FileHeader) (hv : h.Valid) (rest : List UInt8) :
    decode (h.encode ++ rest) = .ok (h, rest) := by
  obtain ⟨hdrInd, sec, app⟩ := h
  obtain ⟨hlt, hct, hsec, happ, happlt⟩ := hv
  simp only at hlt hct hsec happ happlt
  -- the layout is fixed by the flags; the optional fields follow them
  rcases hdrInd_cases hlt hct with rfl | rfl | rfl | rfl
  · obtain rfl : sec = none := by simpa +decide [vcdSecondary] using hsec
    obtain rfl : app = none := by simpa +decide [vcdAppheader] using happ
    simp +decide [decode, encode, readExact, readByte, vcdiffMagic, vcdInvhdr, vcdSecondary,
      vcdCodetable, vcdAppheader]
  · obtain ⟨s, rfl⟩ : ∃ s, sec = some s := Option.isSome_iff_exists.mp (by simpa +decide [vcdSecondary] using hsec)
    obtain rfl : app = none := by simpa +decide [vcdAppheader] using happ
    simp +decide [decode, encode, readExact, readByte, vcdiffMagic, vcdInvhdr, vcdSecondary,
      vcdCodetable, vcdAppheader]
  · obtain rfl : sec = none := by simpa +decide [vcdSecondary] using hsec
    obtain ⟨d, rfl⟩ : ∃ d, app = some d := Option.isSome_iff_exists.mp (by simpa +decide [vcdAppheader] using happ)
    have hd := happlt d rfl
    simp +decide [decode, encode, readExact, readByte, vcdiffMagic, vcdInvhdr, vcdSecondary,
      vcdCodetable, vcdAppheader, streamReadU64_encodeU64 hd]
  · obtain ⟨s, rfl⟩ : ∃ s, sec = some s := Option.isSome_iff_exists.mp (by simpa +decide [vcdSecondary] using hsec)
    obtain ⟨d, rfl⟩ : ∃ d, app = some d := Option.isSome_iff_exists.mp (by simpa +decide [vcdAppheader] using happ)
    have hd := happlt d rfl
    simp +decide [decode, encode, readExact, readByte, vcdiffMagic, vcdInvhdr, vcdSecondary,
      vcdCodetable, vcdAppheader, streamReadU64_encodeU64 hd]

/-- The header a new `StreamEncoder` writes is valid. -/
theorem default_valid : default.Valid where
  hdrInd_lt := by decide
  no_codetable := by decide
  secondary_iff := by simp [default, vcdSecondary]
  app_iff := by simp [default, vcdAppheader]
  app_lt := by simp [default]

end FileHeader

/-! ## The window header -/

/-- The four bytes of a `u32`, most significant first (`to_be_bytes`). -/
def toBeBytes (n : Nat) : List UInt8 :=
  [UInt8.ofNat (n / 2 ^ 24), UInt8.ofNat (n / 2 ^ 16), UInt8.ofNat (n / 2 ^ 8), UInt8.ofNat n]

/-- `u32::from_be_bytes`. -/
def fromBeBytes (b : List UInt8) : Nat :=
  b.foldl (fun acc x => acc * 256 + x.toNat) 0

/-- `WindowHeader`; the `u64` fields are numbers below `2 ^ 64`, the checksum
one below `2 ^ 32`. -/
structure WindowHeader where
  winInd : UInt8
  copyWindowLen : Nat
  copyWindowOffset : Nat
  encLen : Nat
  targetWindowLen : Nat
  delInd : UInt8
  dataLen : Nat
  instLen : Nat
  addrLen : Nat
  adler32 : Option Nat
  deriving DecidableEq, Repr

namespace WindowHeader

/-- `has_source`. -/
def hasSource (w : WindowHeader) : Bool := w.winInd &&& vcdSource != 0

/-- `has_target`. -/
def hasTarget (w : WindowHeader) : Bool := w.winInd &&& vcdTarget != 0

/-- `has_checksum`. -/
def hasChecksum (w : WindowHeader) : Bool := w.winInd &&& vcdAdler32 != 0

/-- The bytes `encode` writes after the `enc_len` varint, sections apart. -/
def encodeTail (w : WindowHeader) : List UInt8 :=
  encodeU64 w.targetWindowLen ++ [w.delInd] ++ encodeU64 w.dataLen ++ encodeU64 w.instLen ++
    encodeU64 w.addrLen ++
    (if w.hasChecksum then
      match w.adler32 with
      | some c => toBeBytes c
      | none => []
    else [])

/-- `WindowHeader::encode`. -/
def encode (w : WindowHeader) : List UInt8 :=
  [w.winInd] ++
    (if w.hasSource || w.hasTarget then encodeU64 w.copyWindowLen ++ encodeU64 w.copyWindowOffset
    else []) ++
    encodeU64 w.encLen ++ w.encodeTail

/-- `compute_enc_len`: each `+=` is a `u64` addition with overflow checks. -/
def computeEncLen {ε : Type} (w : WindowHeader) : Result ε Nat := do
  let len ← addChecked 64 0 (sizeofU64 w.targetWindowLen)
  let len ← addChecked 64 len 1
  let len ← addChecked 64 len (sizeofU64 w.dataLen)
  let len ← addChecked 64 len (sizeofU64 w.instLen)
  let len ← addChecked 64 len (sizeofU64 w.addrLen)
  let len ← addChecked 64 len w.dataLen
  let len ← addChecked 64 len w.instLen
  let len ← addChecked 64 len w.addrLen
  if w.hasChecksum then addChecked 64 len 4 else pure len

/-- The sum `compute_enc_len` adds up, without its overflow checks. -/
def encLenSum (w : WindowHeader) : Nat :=
  sizeofU64 w.targetWindowLen + 1 + sizeofU64 w.dataLen + sizeofU64 w.instLen +
    sizeofU64 w.addrLen + w.dataLen + w.instLen + w.addrLen + (if w.hasChecksum then 4 else 0)

/-- `WindowHeader::decode`: `none` at a clean end of the input. -/
def decode : ReadM IoError (Option WindowHeader) := fun input =>
  match input with
  | [] => .ok (none, [])
  | winInd :: rest =>
    (do
      if winInd &&& vcdInvwin ≠ 0 then
        ioFail .invalidData ("invalid window indicator bits: " ++ hexAlt04 winInd)
      else if winInd &&& vcdSource ≠ 0 ∧ winInd &&& vcdTarget ≠ 0 then
        ioFail .invalidData "VCD_SOURCE and VCD_TARGET are mutually exclusive"
      else
        let hasCopy := winInd &&& (vcdSource ||| vcdTarget) ≠ 0
        let (copyWindowLen, copyWindowOffset) ←
          if hasCopy then do
            let len ← streamReadU64
            let off ← streamReadU64
            pure (len, off)
          else pure (0, 0)
        let encLen ← streamReadU64
        let targetWindowLen ← streamReadU64
        if targetWindowLen > hardMaxWinsize then
          ioFail .invalidData ("target window too large: " ++ toString targetWindowLen ++
            " exceeds max " ++ toString hardMaxWinsize)
        else
          let delInd ← readByte
          if delInd &&& vcdInvdel ≠ 0 then
            ioFail .invalidData ("invalid delta indicator bits: " ++ hexAlt04 delInd)
          else
            let dataLen ← streamReadU64
            let instLen ← streamReadU64
            let addrLen ← streamReadU64
            let adler32 ←
              if winInd &&& vcdAdler32 ≠ 0 then do
                let b ← readExact 4
                pure (some (fromBeBytes b))
              else pure none
            let hdr : WindowHeader := ⟨winInd, copyWindowLen, copyWindowOffset, encLen,
              targetWindowLen, delInd, dataLen, instLen, addrLen, adler32⟩
            let expected ← ReadM.ofResult hdr.computeEncLen
            if encLen ≠ expected then
              ioFail .invalidData ("enc_len mismatch: header says " ++ toString encLen ++
                ", computed " ++ toString expected)
            else pure (some hdr) : ReadM IoError (Option WindowHeader)) rest

/-- A window header the decoder accepts as it was written: defined indicator
bits, not both copy windows, copy fields zero without one, a target within the
hard limit, the checksum present exactly when flagged, `u64` fields, and the
`enc_len` that `compute_enc_len` gives. -/
structure Valid (w : WindowHeader) : Prop where
  winInd_lt : w.winInd.toNat < 8
  not_both : ¬ (w.winInd &&& vcdSource ≠ 0 ∧ w.winInd &&& vcdTarget ≠ 0)
  no_copy : w.winInd &&& (vcdSource ||| vcdTarget) = 0 → w.copyWindowLen = 0 ∧ w.copyWindowOffset = 0
  target_le : w.targetWindowLen ≤ hardMaxWinsize
  adler_iff : w.winInd &&& vcdAdler32 ≠ 0 ↔ w.adler32.isSome
  adler_lt : ∀ c, w.adler32 = some c → c < 2 ^ 32
  delInd_lt : w.delInd.toNat < 8
  copyWindowLen_lt : w.copyWindowLen < 2 ^ 64
  copyWindowOffset_lt : w.copyWindowOffset < 2 ^ 64
  encLen_lt : w.encLen < 2 ^ 64
  dataLen_lt : w.dataLen < 2 ^ 64
  instLen_lt : w.instLen < 2 ^ 64
  addrLen_lt : w.addrLen < 2 ^ 64
  encLen_eq : w.encLen = w.encLenSum
  encLenSum_lt : w.encLenSum < 2 ^ 64

/-- Without overflow, `compute_enc_len` is the sum it adds up. -/
theorem computeEncLen_of_lt {ε : Type} {w : WindowHeader} (h : w.encLenSum < 2 ^ 64) :
    (w.computeEncLen : Result ε Nat) = .ok w.encLenSum := by
  unfold encLenSum at h
  -- every partial sum is below the whole one, so no addition overflows
  unfold computeEncLen encLenSum
  rw [addChecked_of_lt (by omega), bind_ok', addChecked_of_lt (by omega), bind_ok',
    addChecked_of_lt (by omega), bind_ok', addChecked_of_lt (by omega), bind_ok',
    addChecked_of_lt (by omega), bind_ok', addChecked_of_lt (by omega), bind_ok',
    addChecked_of_lt (by omega), bind_ok', addChecked_of_lt (by omega), bind_ok']
  by_cases hc : w.hasChecksum = true
  · rw [if_pos hc, addChecked_of_lt (by simp only [hc, if_true] at h; omega), if_pos hc]
    simp only [Nat.zero_add]
  · rw [if_neg hc, if_neg hc]
    simp only [Nat.zero_add, Nat.add_zero]
    rfl

end WindowHeader

theorem toBeBytes_length (c : Nat) : (toBeBytes c).length = 4 := rfl

theorem fromBeBytes_toBeBytes {c : Nat} (h : c < 2 ^ 32) : fromBeBytes (toBeBytes c) = c := by
  simp only [fromBeBytes, toBeBytes, List.foldl, UInt8.toNat_ofNat']
  omega

theorem fromBeBytes_lt {b : List UInt8} (h : b.length = 4) : fromBeBytes b < 2 ^ 32 := by
  match b, h with
  | [x0, x1, x2, x3], _ =>
    simp only [fromBeBytes, List.foldl]
    have := x0.toNat_lt; have := x1.toNat_lt; have := x2.toNat_lt; have := x3.toNat_lt
    omega

/-- A byte below `8` has none of the invalid indicator bits. -/
theorem and_inv7_eq_zero {b : UInt8} (h : b.toNat < 8) : b &&& ~~~0x07 = 0 := by
  have hb : ∀ x : Fin 8, UInt8.ofNat x.val &&& ~~~0x07 = 0 := by decide
  have := hb ⟨b.toNat, h⟩
  simpa only [UInt8.ofNat_toNat] using this

set_option maxRecDepth 2000 in
/-- A byte without the invalid indicator bits is below `8`. -/
theorem lt_eight_of_and_inv7 {b : UInt8} (h : b &&& ~~~0x07 = 0) : b.toNat < 8 := by
  have hb : ∀ x : Fin 256, UInt8.ofNat x.val &&& ~~~0x07 = 0 → (UInt8.ofNat x.val).toNat < 8 := by
    decide
  have := hb ⟨b.toNat, b.toNat_lt⟩
  simp only [UInt8.ofNat_toNat] at this
  exact this h

/-- The indicators of valid windows: no flag but the checksum, a source or a
target window, each with or without the checksum. -/
theorem winInd_cases {b : UInt8} (hlt : b.toNat < 8)
    (hboth : ¬ (b &&& vcdSource ≠ 0 ∧ b &&& vcdTarget ≠ 0)) :
    b = 0 ∨ b = 1 ∨ b = 2 ∨ b = 4 ∨ b = 5 ∨ b = 6 := by
  have h : ∀ x : Fin 8, ¬ (UInt8.ofNat x.val &&& vcdSource ≠ 0 ∧ UInt8.ofNat x.val &&& vcdTarget ≠ 0) →
      UInt8.ofNat x.val = 0 ∨ UInt8.ofNat x.val = 1 ∨ UInt8.ofNat x.val = 2 ∨
        UInt8.ofNat x.val = 4 ∨ UInt8.ofNat x.val = 5 ∨ UInt8.ofNat x.val = 6 := by
    decide
  have := h ⟨b.toNat, hlt⟩
  simp only [UInt8.ofNat_toNat] at this
  exact this hboth

namespace WindowHeader

/-- **Window header round trip.** -/
theorem decode_encode (w : WindowHeader) (hv : w.Valid) (rest : List UInt8) :
    decode (w.encode ++ rest) = .ok (some w, rest) := by
  obtain ⟨winInd, cwl, cwo, encLen, tgt, delInd, dataLen, instLen, addrLen, adler⟩ := w
  have henc := computeEncLen_of_lt (ε := IoError) hv.encLenSum_lt
  rw [← hv.encLen_eq] at henc
  obtain ⟨hlt, hboth, hnocopy, htgt, hadl, hadllt, hdel, h1, h2, h3, h4, h5, h6, -, -⟩ := hv
  simp only at hlt hboth hnocopy htgt hadl hadllt hdel h1 h2 h3 h4 h5 h6 henc
  have hdelInv := and_inv7_eq_zero hdel
  have htgt' : ¬ tgt > hardMaxWinsize := by omega
  -- the layout is fixed by the flags; the copy window and the checksum follow them
  have hcwl : cwl < 2 ^ 64 := h1
  have hcwo : cwo < 2 ^ 64 := h2
  have htgt64 : tgt < 2 ^ 64 := Nat.lt_of_le_of_lt htgt (by decide)
  have hread : ∀ c, readExact 4 (toBeBytes c ++ rest) = .ok (toBeBytes c, rest) :=
    fun c => readExact_append (toBeBytes c) rest
  -- the layout is fixed by the flags: split on the copy window and on the
  -- checksum, then on the indicators that agree with both
  by_cases hcopy : winInd &&& (vcdSource ||| vcdTarget) = 0
  · obtain ⟨rfl, rfl⟩ := hnocopy hcopy
    cases adler with
    | none =>
      rcases winInd_cases hlt hboth with rfl | rfl | rfl | rfl | rfl | rfl <;>
      simp +decide [decode, encode, encodeTail, hasSource, hasTarget, hasChecksum, readByte,
        streamReadU64_encodeU64 h3, streamReadU64_encodeU64 h4, streamReadU64_encodeU64 h5,
        streamReadU64_encodeU64 h6, streamReadU64_encodeU64 htgt64, htgt', hdelInv,
        ReadM.ofResult, henc, vcdInvdel, vcdSource, vcdTarget, vcdAdler32] at hadl hcopy ⊢
    | some c =>
      rcases winInd_cases hlt hboth with rfl | rfl | rfl | rfl | rfl | rfl <;>
      simp +decide [decode, encode, encodeTail, hasSource, hasTarget, hasChecksum, readByte,
        streamReadU64_encodeU64 h3, streamReadU64_encodeU64 h4, streamReadU64_encodeU64 h5,
        streamReadU64_encodeU64 h6, streamReadU64_encodeU64 htgt64, htgt', hdelInv,
        ReadM.ofResult, henc, vcdInvdel, vcdSource, vcdTarget, vcdAdler32, hread,
        fromBeBytes_toBeBytes (hadllt c rfl)] at hadl hcopy ⊢
  · cases adler with
    | none =>
      rcases winInd_cases hlt hboth with rfl | rfl | rfl | rfl | rfl | rfl <;>
      simp +decide [decode, encode, encodeTail, hasSource, hasTarget, hasChecksum, readByte,
        streamReadU64_encodeU64 hcwl, streamReadU64_encodeU64 hcwo, streamReadU64_encodeU64 h3,
        streamReadU64_encodeU64 h4, streamReadU64_encodeU64 h5, streamReadU64_encodeU64 h6,
        streamReadU64_encodeU64 htgt64, htgt', hdelInv, ReadM.ofResult, henc, vcdInvdel,
        vcdSource, vcdTarget, vcdAdler32] at hadl hcopy ⊢
    | some c =>
      rcases winInd_cases hlt hboth with rfl | rfl | rfl | rfl | rfl | rfl <;>
      simp +decide [decode, encode, encodeTail, hasSource, hasTarget, hasChecksum, readByte,
        streamReadU64_encodeU64 hcwl, streamReadU64_encodeU64 hcwo, streamReadU64_encodeU64 h3,
        streamReadU64_encodeU64 h4, streamReadU64_encodeU64 h5, streamReadU64_encodeU64 h6,
        streamReadU64_encodeU64 htgt64, htgt', hdelInv, ReadM.ofResult, henc, vcdInvdel,
        vcdSource, vcdTarget, vcdAdler32, hread, fromBeBytes_toBeBytes (hadllt c rfl)] at hadl hcopy ⊢

end WindowHeader

namespace WindowHeader

/-- **`compute_enc_len` counts what the encoder writes**: the bytes after the
`enc_len` varint, and the three sections. -/
theorem computeEncLen_eq {ε : Type} (w : WindowHeader)
    (hadl : w.winInd &&& vcdAdler32 ≠ 0 ↔ w.adler32.isSome) (htgt : w.targetWindowLen < 2 ^ 64)
    (hdata : w.dataLen < 2 ^ 64) (hinst : w.instLen < 2 ^ 64) (haddr : w.addrLen < 2 ^ 64)
    (h : w.encLenSum < 2 ^ 64) :
    (w.computeEncLen : Result ε Nat) =
      .ok (w.encodeTail.length + w.dataLen + w.instLen + w.addrLen) := by
  rw [computeEncLen_of_lt h]
  congr 1
  -- the checksum is written exactly when it is counted
  have hck : (if w.hasChecksum then (match w.adler32 with | some c => toBeBytes c | none => []) else
      ([] : List UInt8)).length = if w.hasChecksum then 4 else 0 := by
    unfold hasChecksum
    cases hc : w.adler32 with
    | none => simp_all
    | some c => simp_all [toBeBytes_length]
  simp only [encLenSum, encodeTail, List.length_append, List.length_singleton, hck,
    ← encodeU64_length htgt, ← encodeU64_length hdata, ← encodeU64_length hinst,
    ← encodeU64_length haddr]
  omega

end WindowHeader

/-! ## What the decoders accept

Each optional field of a header is read exactly when its flag is set, so the
do-blocks of the decoders run the rest of the header after either branch;
the proofs below follow both branches to the same point and go on alike. -/

namespace FileHeader

/-- **What the decoder accepts is a valid header.** -/
theorem decode_valid {input rest : List UInt8} {h : FileHeader}
    (hd : decode input = .ok (h, rest)) : h.Valid := by
  simp only [decode] at hd
  obtain ⟨magic, r1, -, hd⟩ := ReadM.bind_eq_ok hd
  split at hd
  · simp [ioFail] at hd
  split at hd
  · simp [ioFail] at hd
  obtain ⟨hdrInd, r2, -, hd⟩ := ReadM.bind_eq_ok hd
  split at hd
  · simp [ioFail] at hd
  rename_i hinv
  split at hd
  on_goal 1 =>
    rename_i hs
    obtain ⟨sec, r3, hx, hd⟩ := ReadM.bind_eq_ok hd
    have hsec : hdrInd &&& vcdSecondary ≠ 0 ↔ sec.isSome := by
      obtain ⟨b, r, -, hx⟩ := ReadM.map_eq_ok hx
      cases hx
      simpa using hs
    clear hx
  on_goal 2 =>
    rename_i hs
    obtain ⟨sec, r3, hx, hd⟩ := ReadM.bind_eq_ok hd
    have hsec : hdrInd &&& vcdSecondary ≠ 0 ↔ sec.isSome := by
      cases hx
      simpa using hs
    clear hx
  all_goals
    split at hd
    · simp [ioFail] at hd
    rename_i hct
    split at hd
    on_goal 1 =>
      rename_i ha
      obtain ⟨len, r4, hlen, hd⟩ := ReadM.bind_eq_ok hd
      obtain ⟨app, r5, hx, hd⟩ := ReadM.bind_eq_ok hd
      have happ : (hdrInd &&& vcdAppheader ≠ 0 ↔ app.isSome) ∧
          ∀ d, app = some d → d.length < 2 ^ 64 := by
        obtain ⟨d, r, hread, hx⟩ := ReadM.map_eq_ok hx
        cases hx
        obtain ⟨-, rfl, -⟩ := readExact_eq_ok hread
        refine ⟨by simpa using ha, fun d' hd' => ?_⟩
        cases hd'
        have := streamReadU64_lt hlen
        simp only [List.length_take]
        omega
      clear hx
    on_goal 2 =>
      rename_i ha
      obtain ⟨app, r5, hx, hd⟩ := ReadM.bind_eq_ok hd
      have happ : (hdrInd &&& vcdAppheader ≠ 0 ↔ app.isSome) ∧
          ∀ d, app = some d → d.length < 2 ^ 64 := by
        cases hx
        exact ⟨by simpa using ha, by simp⟩
      clear hx
    all_goals
      cases hd
      exact
        { hdrInd_lt := lt_eight_of_and_inv7 (not_not.1 hinv)
          no_codetable := not_not.1 hct
          secondary_iff := hsec
          app_iff := happ.1
          app_lt := happ.2 }

end FileHeader

namespace WindowHeader

/-- `compute_enc_len` returns only the sum it adds up, when no addition
overflows. -/
theorem computeEncLen_eq_ok {ε : Type} {w : WindowHeader} {e : Nat}
    (h : (w.computeEncLen : Result ε Nat) = .ok e) : e = w.encLenSum ∧ w.encLenSum < 2 ^ 64 := by
  unfold computeEncLen at h
  obtain ⟨l1, h1, h⟩ := bind_eq_ok h
  obtain ⟨l2, h2, h⟩ := bind_eq_ok h
  obtain ⟨l3, h3, h⟩ := bind_eq_ok h
  obtain ⟨l4, h4, h⟩ := bind_eq_ok h
  obtain ⟨l5, h5, h⟩ := bind_eq_ok h
  obtain ⟨l6, h6, h⟩ := bind_eq_ok h
  obtain ⟨l7, h7, h⟩ := bind_eq_ok h
  obtain ⟨l8, h8, h⟩ := bind_eq_ok h
  obtain ⟨rfl, -⟩ := addChecked_eq_ok h1
  obtain ⟨rfl, -⟩ := addChecked_eq_ok h2
  obtain ⟨rfl, -⟩ := addChecked_eq_ok h3
  obtain ⟨rfl, -⟩ := addChecked_eq_ok h4
  obtain ⟨rfl, -⟩ := addChecked_eq_ok h5
  obtain ⟨rfl, -⟩ := addChecked_eq_ok h6
  obtain ⟨rfl, -⟩ := addChecked_eq_ok h7
  obtain ⟨rfl, h8⟩ := addChecked_eq_ok h8
  unfold encLenSum
  split at h
  · next hck => obtain ⟨rfl, h⟩ := addChecked_eq_ok h; rw [if_pos hck]; omega
  · next hck => cases h; rw [if_neg hck]; omega

/-- **What the decoder accepts is a valid header.** -/
theorem decode_valid {input rest : List UInt8} {w : WindowHeader}
    (h : decode input = .ok (some w, rest)) : w.Valid := by
  cases input with
  | nil => cases h
  | cons winInd r =>
  simp only [decode] at h
  split at h
  · simp [ioFail] at h
  split at h
  · simp [ioFail] at h
  rename_i hinv hboth
  split at h
  on_goal 1 =>
    rename_i hcopy
    obtain ⟨len, r1, hlen, h⟩ := ReadM.bind_eq_ok h
    obtain ⟨off, r2, hoff, h⟩ := ReadM.bind_eq_ok h
    obtain ⟨cw, r3, hx, h⟩ := ReadM.bind_eq_ok h
    have hcw : (winInd &&& (vcdSource ||| vcdTarget) = 0 → cw = (0, 0)) ∧ cw.1 < 2 ^ 64 ∧
        cw.2 < 2 ^ 64 := by
      cases hx
      exact ⟨fun h0 => absurd h0 hcopy, streamReadU64_lt hlen, streamReadU64_lt hoff⟩
    clear hx
  on_goal 2 =>
    obtain ⟨cw, r3, hx, h⟩ := ReadM.bind_eq_ok h
    have hcw : (winInd &&& (vcdSource ||| vcdTarget) = 0 → cw = (0, 0)) ∧ cw.1 < 2 ^ 64 ∧
        cw.2 < 2 ^ 64 := by
      cases hx
      exact ⟨fun _ => rfl, by simp, by simp⟩
    clear hx
  all_goals
    obtain ⟨encLen, r4, henc, h⟩ := ReadM.bind_eq_ok h
    obtain ⟨tlen, r5, -, h⟩ := ReadM.bind_eq_ok h
    split at h
    · simp [ioFail] at h
    rename_i htle
    obtain ⟨delInd, r6, -, h⟩ := ReadM.bind_eq_ok h
    split at h
    · simp [ioFail] at h
    rename_i hdelInd
    obtain ⟨dataLen, r7, hdata, h⟩ := ReadM.bind_eq_ok h
    obtain ⟨instLen, r8, hinst, h⟩ := ReadM.bind_eq_ok h
    obtain ⟨addrLen, r9, haddr, h⟩ := ReadM.bind_eq_ok h
    split at h
    on_goal 1 =>
      rename_i hck
      obtain ⟨b, r10, hb, h⟩ := ReadM.bind_eq_ok h
      obtain ⟨adler, r11, hx, h⟩ := ReadM.bind_eq_ok h
      have hadl : (winInd &&& vcdAdler32 ≠ 0 ↔ adler.isSome) ∧ ∀ c, adler = some c → c < 2 ^ 32 := by
        cases hx
        refine ⟨by simp [hck], fun c hc => ?_⟩
        cases hc
        exact fromBeBytes_lt (by rw [(readExact_eq_ok hb).2.1]; simp [(readExact_eq_ok hb).1])
      clear hx
    on_goal 2 =>
      rename_i hck
      obtain ⟨adler, r11, hx, h⟩ := ReadM.bind_eq_ok h
      have hadl : (winInd &&& vcdAdler32 ≠ 0 ↔ adler.isSome) ∧ ∀ c, adler = some c → c < 2 ^ 32 := by
        cases hx
        simpa using hck
      clear hx
    all_goals
      obtain ⟨expected, r12, hexp, h⟩ := ReadM.bind_eq_ok h
      split at h
      · simp [ioFail] at h
      rename_i henc'
      cases h
      -- `enc_len` is the sum `compute_enc_len` adds up, which did not overflow
      obtain ⟨hsum, hlt⟩ := computeEncLen_eq_ok (ReadM.ofResult_eq_ok hexp).1
      exact
        { winInd_lt := lt_eight_of_and_inv7 (not_not.1 hinv)
          not_both := hboth
          no_copy := fun h0 => by simp [hcw.1 h0]
          target_le := Nat.le_of_not_lt htle
          adler_iff := hadl.1
          adler_lt := hadl.2
          delInd_lt := lt_eight_of_and_inv7 (not_not.1 hdelInd)
          copyWindowLen_lt := hcw.2.1
          copyWindowOffset_lt := hcw.2.2
          encLen_lt := streamReadU64_lt henc
          dataLen_lt := streamReadU64_lt hdata
          instLen_lt := streamReadU64_lt hinst
          addrLen_lt := streamReadU64_lt haddr
          encLen_eq := (not_not.1 henc').trans hsum
          encLenSum_lt := hlt }

end WindowHeader

/-! ## The window checksum -/

/-- One byte of Adler-32: both sums modulo 65521. -/
def adler32Step (ab : Nat × Nat) (byte : UInt8) : Nat × Nat :=
  let a := (ab.1 + byte.toNat) % 65521
  (a, (ab.2 + a) % 65521)

/-- Adler-32 as the fallbacks compute it (`compute_adler32` of the decoder,
`adler32_simple` of the encoder), the second sum in the high half.  With the
`adler32` feature both call the same library, which computes the same
function. -/
def adler32 (data : List UInt8) : Nat :=
  let (a, b) := data.foldl adler32Step (1, 0)
  b * 2 ^ 16 + a

/-- The checksum fits the header's `u32`. -/
theorem adler32_lt (data : List UInt8) : adler32 data < 2 ^ 32 := by
  -- both sums stay below the modulus, from `(1, 0)` and through every step
  have hfold : ∀ (xs : List UInt8) (ab : Nat × Nat), ab.1 < 65521 → ab.2 < 65521 →
      (xs.foldl adler32Step ab).1 < 65521 ∧ (xs.foldl adler32Step ab).2 < 65521 := by
    intro xs
    induction xs with
    | nil => intro ab h1 h2; exact ⟨h1, h2⟩
    | cons x xs ih =>
      intro ab _ _
      exact ih _ (Nat.mod_lt _ (by norm_num)) (Nat.mod_lt _ (by norm_num))
  obtain ⟨ha, hb⟩ := hfold data (1, 0) (by norm_num) (by norm_num)
  unfold adler32
  generalize data.foldl adler32Step (1, 0) = r at ha hb
  obtain ⟨a, b⟩ := r
  dsimp only at ha hb ⊢
  omega

/-! ## Decoder errors (`vcdiff/decoder.rs`) -/

/-- `DecodeError`. -/
inductive DecodeError where
  | io (e : IoError)
  | invalidInput (msg : String)
  | checksumMismatch (expected actual : Nat)
  | unsupported (msg : String)
  deriving Repr, DecidableEq

/-- `Display` of `VarIntError`. -/
def VarIntError.display : VarIntError → String
  | .underflow => "varint underflow (truncated input)"
  | .overflow => "varint overflow"

end Oxidelta.Vcdiff
