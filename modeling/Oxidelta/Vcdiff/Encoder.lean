import Oxidelta.Vcdiff.AddressCache
import Oxidelta.Vcdiff.CodeTable
import Oxidelta.Vcdiff.Header

/-!
# The encoder (`vcdiff/encoder.rs`)

`WindowEncoder` turns ADD, RUN and COPY instructions into the three sections
of a window: literal bytes into the data section, opcodes (and sizes the code
table does not fix) into the instruction section, and each COPY address,
encoded against the address cache when the COPY arrives, into the address
section.  Every instruction's opcode is held back one step (`pending`), so
that it can merge with the next one into a double opcode.
`WindowSections::assemble` puts the window header in front of the sections;
`StreamEncoder` writes the file header once, then the windows.

The writer of `StreamEncoder` is the in-memory `Vec<u8>` every caller in the
repository uses: writing to it cannot fail, so the model keeps only its bytes.
`target_len` counts bytes of targets held in memory, and stays far below
`2 ^ 64`; the `u32` cast of an ADD's length is kept.

Main results:

* `assemble_eq` — the bytes of an assembled window: the header with the
  `enc_len` that `compute_enc_len` gives, then the sections;
* `assembledHeader_valid` — that header is one the decoder accepts;
* `header_codec_roundtrip` — both headers decode to what was encoded, and
  every assembled window passes the decoder's `enc_len` check.
-/

namespace Oxidelta.Vcdiff

open Rust

/-- `SourceWindow`: the copy window's length and offset in the source. -/
structure SourceWindow where
  len : Nat
  offset : Nat
  deriving DecidableEq, Repr

/-- `PendingInst`: an instruction whose opcode is not written yet. -/
structure PendingInst where
  info : InstructionInfo
  code1 : UInt8
  deriving DecidableEq, Repr

/-- `WindowEncoder`; the code table is the default one. -/
structure WindowEncoder where
  dataSection : List UInt8
  instSection : List UInt8
  addrSection : List UInt8
  acache : AddressCache
  pending : Option PendingInst
  targetLen : Nat
  sourceWindow : Option SourceWindow
  emitChecksum : Bool

namespace WindowEncoder

/-- `WindowEncoder::new`. -/
def new (source : Option SourceWindow) (emitChecksum : Bool) : WindowEncoder :=
  ⟨[], [], [], AddressCache.new, none, 0, source, emitChecksum⟩

/-- `here`: the copy window's length plus the target bytes so far. -/
def here (e : WindowEncoder) : Nat := (e.sourceWindow.map (·.len)).getD 0 + e.targetLen

/-- `emit_opcode_single`: the opcode, then the size when the table entry
leaves it open. -/
def emitOpcodeSingle (e : WindowEncoder) (code : UInt8) (inst : InstructionInfo) : WindowEncoder :=
  let instSection := e.instSection ++ [code]
  { e with
    instSection := if (codeEntry code).size1 = 0 then instSection ++ encodeU64 inst.size
      else instSection }

/-- `emit_opcode_double`: both sizes are fixed by the table. -/
def emitOpcodeDouble (e : WindowEncoder) (code : UInt8) : WindowEncoder :=
  { e with instSection := e.instSection ++ [code] }

/-- `flush_pending`. -/
def flushPending (e : WindowEncoder) : WindowEncoder :=
  match e.pending with
  | some p => { e with pending := none }.emitOpcodeSingle p.code1 p.info
  | none => e

/-- `emit_instruction`: the double opcode of the pending instruction and this
one when the table has it, else the pending one is written and this one waits. -/
def emitInstruction (e : WindowEncoder) (inst : InstructionInfo) : WindowEncoder :=
  let chosen := chooseInstruction (e.pending.map (·.info)) inst
  match chosen.code2 with
  | some code2 => { e with pending := none }.emitOpcodeDouble code2
  | none => { e.flushPending with pending := some ⟨inst, chosen.code1⟩ }

/-- `WindowEncoder::add`. -/
def add (e : WindowEncoder) (data : List UInt8) : WindowEncoder :=
  if data.isEmpty then e
  else
    let e := { e with dataSection := e.dataSection ++ data }
    let e := e.emitInstruction ⟨xd3Add, data.length % 2 ^ 32⟩
    { e with targetLen := e.targetLen + data.length }

/-- `WindowEncoder::copy`: the address is encoded at once, the opcode may wait. -/
def copy (e : WindowEncoder) (len addr : Nat) (_mode : UInt8) : WindowEncoder :=
  if len = 0 then e
  else
    let (encMode, encodedAddr, acache) := e.acache.encode addr e.here
    let e := { e with acache, addrSection := e.addrSection ++ encodedAddr.asBytes }
    let e := e.emitInstruction ⟨xd3Cpy + encMode, len⟩
    { e with targetLen := e.targetLen + len }

/-- `copy_with_auto_mode`. -/
def copyWithAutoMode (e : WindowEncoder) (len addr : Nat) : WindowEncoder :=
  e.copy len addr 0

/-- `WindowEncoder::run`. -/
def run (e : WindowEncoder) (len : Nat) (byte : UInt8) : WindowEncoder :=
  if len = 0 then e
  else
    let e := { e with dataSection := e.dataSection ++ [byte] }
    let e := e.emitInstruction ⟨xd3Run, len⟩
    { e with targetLen := e.targetLen + len }

end WindowEncoder

/-- `WindowSections`: a finished window before its header is written. -/
structure WindowSections where
  sourceWindow : Option SourceWindow
  targetLen : Nat
  checksum : Option Nat
  dataSection : List UInt8
  instSection : List UInt8
  addrSection : List UInt8

/-- `finish_sections`: the pending opcode written, and the checksum of the
target when one is wanted and given. -/
def WindowEncoder.finishSections (e : WindowEncoder) (targetData : Option (List UInt8)) :
    WindowSections :=
  let e := e.flushPending
  let checksum := if e.emitChecksum then targetData.map adler32 else none
  ⟨e.sourceWindow, e.targetLen, checksum, e.dataSection, e.instSection, e.addrSection⟩

namespace WindowSections

/-- The header `assemble` writes, before its `enc_len` is set. -/
def header (s : WindowSections) (delInd : UInt8) : WindowHeader :=
  let winInd : UInt8 := 0
  let winInd := if s.sourceWindow.isSome then winInd ||| vcdSource else winInd
  let winInd := if s.checksum.isSome then winInd ||| vcdAdler32 else winInd
  ⟨winInd, (s.sourceWindow.map (·.len)).getD 0, (s.sourceWindow.map (·.offset)).getD 0, 0,
    s.targetLen, delInd, s.dataSection.length, s.instSection.length, s.addrSection.length,
    s.checksum⟩

/-- `WindowSections::assemble`: the header with its `enc_len`, then the data,
instruction and address sections. -/
def assemble {ε : Type} (s : WindowSections) (delInd : UInt8) : Result ε (List UInt8) := do
  let wh := s.header delInd
  let encLen ← wh.computeEncLen
  let wh := { wh with encLen }
  pure (wh.encode ++ s.dataSection ++ s.instSection ++ s.addrSection)

end WindowSections

/-- `WindowEncoder::finish`: the window without secondary compression. -/
def WindowEncoder.finish {ε : Type} (e : WindowEncoder) (targetData : Option (List UInt8)) :
    Result ε (List UInt8) :=
  (e.finishSections targetData).assemble 0

/-- `StreamEncoder` writing into a `Vec<u8>`. -/
structure StreamEncoder where
  writer : List UInt8
  headerWritten : Bool
  fileHeader : FileHeader
  emitChecksum : Bool

namespace StreamEncoder

/-- `StreamEncoder::new`. -/
def new (emitChecksum : Bool) : StreamEncoder := ⟨[], false, FileHeader.default, emitChecksum⟩

/-- `set_app_header`. -/
def setAppHeader (s : StreamEncoder) (data : List UInt8) : StreamEncoder :=
  { s with fileHeader := { s.fileHeader with
      hdrInd := s.fileHeader.hdrInd ||| vcdAppheader, appHeader := some data } }

/-- `set_secondary_id`. -/
def setSecondaryId (s : StreamEncoder) (id : UInt8) : StreamEncoder :=
  { s with fileHeader := { s.fileHeader with
      hdrInd := s.fileHeader.hdrInd ||| vcdSecondary, secondaryId := some id } }

/-- The file header, written before the first window. -/
def writeHeader (s : StreamEncoder) : StreamEncoder :=
  if !s.headerWritten then { s with writer := s.writer ++ s.fileHeader.encode, headerWritten := true }
  else s

/-- `write_window`. -/
def writeWindow {ε : Type} (s : StreamEncoder) (window : WindowEncoder)
    (targetData : Option (List UInt8)) : Result ε StreamEncoder := do
  let s := s.writeHeader
  let encoded ← window.finish targetData
  pure { s with writer := s.writer ++ encoded }

/-- `write_raw_window`. -/
def writeRawWindow (s : StreamEncoder) (encoded : List UInt8) : StreamEncoder :=
  let s := s.writeHeader
  { s with writer := s.writer ++ encoded }

/-- `StreamEncoder::finish`: the bytes written, with the file header even when
no window was. -/
def finish (s : StreamEncoder) : List UInt8 :=
  if !s.headerWritten then s.writer ++ s.fileHeader.encode else s.writer

end StreamEncoder

/-! ## Assembled windows -/

namespace WindowSections

/-- The header `assemble` writes: its `enc_len` is the sum `compute_enc_len`
adds up. -/
def assembledHeader (s : WindowSections) (delInd : UInt8) : WindowHeader :=
  { s.header delInd with encLen := (s.header delInd).encLenSum }

theorem assemble_eq {ε : Type} (s : WindowSections) (delInd : UInt8)
    (h : (s.header delInd).encLenSum < 2 ^ 64) :
    (s.assemble delInd : Result ε (List UInt8)) =
      .ok ((s.assembledHeader delInd).encode ++ s.dataSection ++ s.instSection ++ s.addrSection) := by
  simp [assemble, WindowHeader.computeEncLen_of_lt h, assembledHeader]

/-- The window indicator `assemble` computes has a copy-window flag exactly
with a copy window (and it is never `VCD_TARGET`), the checksum flag exactly
with a checksum, and no other. -/
theorem header_winInd (s : WindowSections) (delInd : UInt8) :
    (s.header delInd).winInd.toNat < 8 ∧
      ((s.header delInd).winInd &&& (vcdSource ||| vcdTarget) ≠ 0 ↔ s.sourceWindow.isSome) ∧
      (s.header delInd).winInd &&& vcdTarget = 0 ∧
      ((s.header delInd).winInd &&& vcdAdler32 ≠ 0 ↔ s.checksum.isSome) := by
  rcases s with ⟨_ | sw, tl, _ | c, d, i, a⟩ <;> simp +decide [header, vcdSource, vcdTarget, vcdAdler32]

/-- **An assembled header is one the decoder accepts**, given a delta
indicator with defined bits, a target within the hard limit and `u64`-sized
fields. -/
theorem assembledHeader_valid (s : WindowSections) (delInd : UInt8) (hdel : delInd.toNat < 8)
    (htgt : s.targetLen ≤ hardMaxWinsize) (hck : ∀ c, s.checksum = some c → c < 2 ^ 32)
    (hsrc : ∀ sw, s.sourceWindow = some sw → sw.len < 2 ^ 64 ∧ sw.offset < 2 ^ 64)
    (hsum : (s.header delInd).encLenSum < 2 ^ 64) :
    (s.assembledHeader delInd).Valid := by
  obtain ⟨hlt, hsrcIff, htgtz, hadlIff⟩ := header_winInd s delInd
  -- the copy window's fields are zero without one, and bounded with one
  have hcopy : (s.header delInd).copyWindowLen < 2 ^ 64 ∧ (s.header delInd).copyWindowOffset < 2 ^ 64 := by
    cases hs : s.sourceWindow with
    | none => simp [header, hs]
    | some sw => simpa [header, hs] using hsrc sw hs
  have hlens := hsum
  simp only [WindowHeader.encLenSum] at hlens
  exact {
    winInd_lt := hlt
    not_both := fun h => h.2 htgtz
    no_copy := fun h => by
      cases hs : s.sourceWindow with
      | none => simp [assembledHeader, header, hs]
      | some sw => exact absurd h (hsrcIff.2 (by simp [hs]))
    target_le := htgt
    adler_iff := hadlIff
    adler_lt := hck
    delInd_lt := hdel
    copyWindowLen_lt := hcopy.1
    copyWindowOffset_lt := hcopy.2
    encLen_lt := hsum
    dataLen_lt := by show (s.header delInd).dataLen < 2 ^ 64; omega
    instLen_lt := by show (s.header delInd).instLen < 2 ^ 64; omega
    addrLen_lt := by show (s.header delInd).addrLen < 2 ^ 64; omega
    encLen_eq := rfl
    encLenSum_lt := hsum }

end WindowSections

/-- **Header codec round trip.**  A valid file header and a valid window
header decode to themselves and consume exactly their encoding;
`compute_enc_len` counts the bytes written after the `enc_len` varint plus the
sections; and the window `assemble` writes carries a header the decoder reads
back, its `enc_len` check included. -/
theorem header_codec_roundtrip :
    (∀ (h : FileHeader), h.Valid → ∀ rest, FileHeader.decode (h.encode ++ rest) = .ok (h, rest)) ∧
    (∀ (w : WindowHeader), w.Valid → ∀ rest,
        WindowHeader.decode (w.encode ++ rest) = .ok (some w, rest)) ∧
    (∀ (w : WindowHeader), (w.winInd &&& vcdAdler32 ≠ 0 ↔ w.adler32.isSome) →
        w.targetWindowLen < 2 ^ 64 → w.dataLen < 2 ^ 64 → w.instLen < 2 ^ 64 →
        w.addrLen < 2 ^ 64 → w.encLenSum < 2 ^ 64 →
        (w.computeEncLen : Result IoError Nat) =
          .ok (w.encodeTail.length + w.dataLen + w.instLen + w.addrLen)) ∧
    (∀ (s : WindowSections) (delInd : UInt8) (rest : List UInt8), delInd.toNat < 8 →
        s.targetLen ≤ hardMaxWinsize → (∀ c, s.checksum = some c → c < 2 ^ 32) →
        (∀ sw, s.sourceWindow = some sw → sw.len < 2 ^ 64 ∧ sw.offset < 2 ^ 64) →
        (s.header delInd).encLenSum < 2 ^ 64 →
        ∃ w : WindowHeader, (s.assemble delInd : Result IoError (List UInt8)) =
            .ok (w.encode ++ s.dataSection ++ s.instSection ++ s.addrSection) ∧
          WindowHeader.decode (w.encode ++ (s.dataSection ++ s.instSection ++ s.addrSection ++ rest)) =
            .ok (some w, s.dataSection ++ s.instSection ++ s.addrSection ++ rest)) :=
  ⟨fun h hv rest => FileHeader.decode_encode h hv rest,
    fun w hv rest => WindowHeader.decode_encode w hv rest,
    fun w hadl htgt hdata hinst haddr hsum => WindowHeader.computeEncLen_eq w hadl htgt hdata hinst haddr hsum,
    fun s delInd _ hdel htgt hck hsrc hsum =>
      ⟨_, WindowSections.assemble_eq s delInd hsum,
        WindowHeader.decode_encode _ (WindowSections.assembledHeader_valid s delInd hdel htgt hck hsrc hsum) _⟩⟩

end Oxidelta.Vcdiff
