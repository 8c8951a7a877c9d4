import Oxidelta.Lib.Loop
import Oxidelta.Lib.CopyProgram
import Oxidelta.Vcdiff.AddressCache
import Oxidelta.Vcdiff.CodeTable
import Oxidelta.Compress.Secondary

/-!
# The decoder (`vcdiff/decoder.rs`)

`decode_memory` reads the file header, then window after window: the window
header, the three sections (decompressed when the delta indicator says so),
and the instruction loop of `decode_window_with_cache`, which executes the
one or two half-instructions of each opcode against the sections, the source
and the output built so far.  The model keeps the source's state: positions
in the three sections, the address cache, `target_pos` and `output`, which
holds the earlier windows too (`base_offset`).

Integer operations on attacker-controlled `u64`s (`copy_window_len +
target_pos`, `addr + size`, `copy_window_offset + addr`, the `usize` sum of
`source_slice`) are checked additions that panic on overflow, as in the test
and fuzzing builds; the other `usize` sums stay below the length of an
in-memory slice plus a `u32` and cannot overflow.  Loops run under an
iteration bound that the results below show is never reached.

The source is the `&[u8]` provider of `decode_memory`.
-/

namespace Oxidelta.Vcdiff

open Rust

/-! ## The in-memory source (`impl SourceProvider for &[u8]`) -/

/-- `source_slice`: the bytes `[offset, offset + len)` when all of them are
there. -/
def sourceSlice (src : List UInt8) (offset len : Nat) : Result DecodeError (Option (List UInt8)) := do
  let stop ← addChecked 64 offset len
  pure (if stop ≤ src.length then some ((src.drop offset).take len) else none)

/-- `read_source`: the number of bytes it copies to the front of `buf`, and
`buf` after the copy. -/
def readSource (src : List UInt8) (offset : Nat) (buf : List UInt8) : Nat × List UInt8 :=
  if offset ≥ src.length then (0, buf)
  else
    let available := src.drop offset
    let n := min buf.length available.length
    (n, available.take n ++ buf.drop n)

/-! ## Half-instructions -/

/-- What a window's half-instructions read and do not change. -/
structure WindowCtx where
  dataSection : List UInt8
  instSection : List UInt8
  addrSection : List UInt8
  copyWindowLen : Nat
  copyWindowOffset : Nat
  baseOffset : Nat
  source : List UInt8

/-- The state the half-instructions of a window update. -/
structure WindowState where
  instPos : Nat
  dataPos : Nat
  addrPos : Nat
  acache : AddressCache
  targetPos : Nat
  output : List UInt8

/-- `Display` of `AddressCacheError`. -/
def AddressCacheError.display : AddressCacheError → String
  | .addrUnderflow => "address section underflow"
  | .invalidAddr => "invalid COPY address"

/-- The size of a half-instruction: the table's, or the `u32` varint that
follows in the instruction section when the table says `0`; and the
instruction position after it.  The decoder and the instruction iterator
both read sizes so, and differ in the text of the error. -/
def resolveSize (errPrefix : String) (inst : List UInt8) (instPos : Nat) (tableSize : UInt8) :
    Result DecodeError (Nat × Nat) :=
  if tableSize = 0 then do
    let rest ← sliceFrom inst instPos
    match readU32 rest with
    | .ok (val, consumed) => pure (val, instPos + consumed)
    | .error e => fail (.invalidInput (errPrefix ++ e.display))
  else pure (tableSize.toNat, instPos)

/-- The slow path of a target copy: `size` bytes pushed one at a time, the
byte at `tgt_offset + i` read after the `i` before it were pushed. -/
def pushFromWithin (tgtOffset : Nat) : Nat → Nat → List UInt8 → Result DecodeError (List UInt8)
  | _, 0, output => pure output
  | i, n + 1, output => do
    let byte ← index output (tgtOffset + i)
    pushFromWithin tgtOffset (i + 1) n (output ++ [byte])

/-- A source copy: the zero-copy slice when the source has all the bytes,
else `read_source` into the (resized) copy buffer. -/
def sourceCopy (src : List UInt8) (srcOffset size : Nat) (output : List UInt8) :
    Result DecodeError (List UInt8) := do
  match ← sourceSlice src srcOffset size with
  | some slice => pure (output ++ slice)
  | none =>
    let (n, buf) := readSource src srcOffset (List.replicate size 0)
    if n < size then
      fail (.invalidInput ("source underflow: requested " ++ toString size ++ " bytes at offset " ++
        toString srcOffset ++ ", got " ++ toString n))
    else pure (output ++ buf.take size)

/-- A target copy from `tgt_offset` of `output`: `extend_from_within` when the
range is already written, else byte by byte. -/
def targetCopy (tgtOffset size : Nat) (output : List UInt8) : Result DecodeError (List UInt8) :=
  if tgtOffset + size ≤ output.length then
    pure (output ++ (output.drop tgtOffset).take size)
  else pushFromWithin tgtOffset 0 size output

/-- `execute_half_instruction`. -/
def executeHalfInstruction (ctx : WindowCtx) (itype tableSize : UInt8) (st : WindowState) :
    Result DecodeError WindowState := do
  let (size, instPos) ← resolveSize "bad instruction size: " ctx.instSection st.instPos tableSize
  let st := { st with instPos }
  if itype = xd3Run then
    if st.dataPos ≥ ctx.dataSection.length then
      fail (.invalidInput "data section underflow (RUN)")
    else
      let byte ← index ctx.dataSection st.dataPos
      let output := st.output ++ List.replicate size byte
      let targetPos ← addChecked 64 st.targetPos size
      pure { st with dataPos := st.dataPos + 1, output, targetPos }
  else if itype = xd3Add then
    let stop := st.dataPos + size
    if stop > ctx.dataSection.length then
      fail (.invalidInput "data section underflow (ADD)")
    else
      let bytes ← slice ctx.dataSection st.dataPos stop
      let targetPos ← addChecked 64 st.targetPos size
      pure { st with output := st.output ++ bytes, dataPos := st.dataPos + size, targetPos }
  else
    -- COPY of mode `itype - XD3_CPY`
    let mode := itype - xd3Cpy
    let here ← addChecked 64 ctx.copyWindowLen st.targetPos
    let addrData ← sliceFrom ctx.addrSection st.addrPos
    let (addr, consumed, acache) ←
      mapErr (fun e => DecodeError.invalidInput ("address decode: " ++ e.display))
        (st.acache.decode mode addrData here)
    let st := { st with addrPos := st.addrPos + consumed, acache }
    let spans ←
      if addr < ctx.copyWindowLen then do
        let stop ← addChecked 64 addr size
        pure (decide (stop > ctx.copyWindowLen))
      else pure false
    if spans then fail (.invalidInput "COPY spans source/target boundary")
    else
      let output ←
        if addr < ctx.copyWindowLen then do
          let srcOffset ← addChecked 64 ctx.copyWindowOffset addr
          sourceCopy ctx.source srcOffset size st.output
        else targetCopy (ctx.baseOffset + (addr - ctx.copyWindowLen)) size st.output
      let targetPos ← addChecked 64 st.targetPos size
      pure { st with output, targetPos }

/-! ## The instruction loop -/

/-- One opcode: its first half-instruction, then its second, each skipped
when it is a `NOOP`. -/
def executeOpcode (ctx : WindowCtx) (entry : CodeTableEntry) (st : WindowState) :
    Result DecodeError WindowState := do
  let st ← if entry.type1 ≠ xd3Noop then executeHalfInstruction ctx entry.type1 entry.size1 st
    else pure st
  if entry.type2 ≠ xd3Noop then executeHalfInstruction ctx entry.type2 entry.size2 st
  else pure st

/-- One iteration of `while inst_pos < inst_section.len()`: read an opcode and
execute it; stop at the end of the section or at the first error. -/
def windowBody (ctx : WindowCtx) (st : WindowState) :
    Loop.Step WindowState (Result DecodeError WindowState) :=
  if h : st.instPos < ctx.instSection.length then
    let opcode := ctx.instSection[st.instPos]
    match executeOpcode ctx (codeEntry opcode) { st with instPos := st.instPos + 1 } with
    | .ok st' => .next st'
    | .error e => .done (.error e)
  else .done (.ok st)

/-- The context `decode_window_with_cache` sets up: the window's sections and
copy window, and `base_offset = output.len()`. -/
def windowCtx (header : WindowHeader) (data inst addr source output : List UInt8) : WindowCtx :=
  ⟨data, inst, addr, header.copyWindowLen, header.copyWindowOffset, output.length, source⟩

/-- The state before the first opcode: every position `0`, the cache reset. -/
def windowInit (output : List UInt8) (acache : AddressCache) : WindowState :=
  ⟨0, 0, 0, acache.init, 0, output⟩

/-- `decode_window_with_cache`: the output with this window appended, and the
address cache. -/
def decodeWindowWithCache (header : WindowHeader) (data inst addr source : List UInt8)
    (verifyChecksum : Bool) (output : List UInt8) (acache : AddressCache) :
    Result DecodeError (List UInt8 × AddressCache) := do
  let ctx := windowCtx header data inst addr source output
  match Loop.run (windowBody ctx) (inst.length + 1) (windowInit output acache) with
  | none => .error .diverge
  | some (.error e) => .error e
  | some (.ok st) =>
    let written := st.output.length - ctx.baseOffset
    if written ≠ header.targetWindowLen then
      fail (.invalidInput ("target size mismatch: expected " ++ toString header.targetWindowLen ++
        ", got " ++ toString written))
    else
      match header.adler32 with
      | some expected =>
        let actual := adler32 (st.output.drop ctx.baseOffset)
        if verifyChecksum ∧ actual ≠ expected then fail (.checksumMismatch expected actual)
        else pure (st.output, st.acache)
      | none => pure (st.output, st.acache)

/-! ## The stream decoder -/

/-- `StreamDecoder` over an in-memory reader; the section and copy buffers
are scratch space and are not modelled. -/
structure StreamDecoder where
  reader : List UInt8
  fileHeader : Option FileHeader
  verifyChecksum : Bool
  secondaryId : Option UInt8
  acache : AddressCache

/-- `StreamDecoder::new`. -/
def StreamDecoder.new (reader : List UInt8) (verifyChecksum : Bool) : StreamDecoder :=
  ⟨reader, none, verifyChecksum, none, AddressCache.new⟩

/-- Run a read of the decoder's input, converting `io::Error` by `?`. -/
def StreamDecoder.read {α : Type} (d : StreamDecoder) (m : ReadM IoError α) :
    Result DecodeError (α × StreamDecoder) :=
  match ReadM.liftErr DecodeError.io m d.reader with
  | .ok (a, reader) => .ok (a, { d with reader })
  | .error e => .error e

/-- `StreamDecoder::decode_window`: whether a window was decoded, the decoder
and the output after it. -/
def StreamDecoder.decodeWindow (cs : Compress.Codecs) (source : List UInt8) (d : StreamDecoder)
    (output : List UInt8) : Result DecodeError (Bool × StreamDecoder × List UInt8) := do
  let d ← match d.fileHeader with
    | some _ => pure d
    | none => do
      let (hdr, d) ← d.read FileHeader.decode
      pure { d with secondaryId := hdr.secondaryId, fileHeader := some hdr }
  let (wh, d) ← d.read WindowHeader.decode
  match wh with
  | none => pure (false, d, output)
  | some wh =>
    if wh.winInd &&& vcdTarget ≠ 0 then fail (.unsupported "VCD_TARGET not supported")
    else
      let (data, d) ← d.read (readExact wh.dataLen)
      let (inst, d) ← d.read (readExact wh.instLen)
      let (addr, d) ← d.read (readExact wh.addrLen)
      let (data, inst, addr) ←
        if wh.delInd ≠ 0 then
          lift id (Compress.decompressSections cs data inst addr wh.delInd d.secondaryId)
        else pure (data, inst, addr)
      let (output, acache) ←
        decodeWindowWithCache wh data inst addr source d.verifyChecksum output d.acache
      pure (true, { d with acache }, output)

/-- One iteration of `decode_all`'s `while self.decode_window(..)? {}`. -/
def decodeAllBody (cs : Compress.Codecs) (source : List UInt8) (s : StreamDecoder × List UInt8) :
    Loop.Step (StreamDecoder × List UInt8) (Result DecodeError (StreamDecoder × List UInt8)) :=
  match s.1.decodeWindow cs source s.2 with
  | .ok (true, d, output) => .next (d, output)
  | .ok (false, d, output) => .done (.ok (d, output))
  | .error e => .done (.error e)

/-- `StreamDecoder::decode_all`. -/
def StreamDecoder.decodeAll (cs : Compress.Codecs) (source : List UInt8) (d : StreamDecoder)
    (output : List UInt8) : Result DecodeError (StreamDecoder × List UInt8) :=
  match Loop.run (decodeAllBody cs source) (d.reader.length + 2) (d, output) with
  | none => .error .diverge
  | some r => r

/-- `decode_memory`: the target rebuilt from `delta` and `source`. -/
def decodeMemory (cs : Compress.Codecs) (delta source : List UInt8) : Result DecodeError (List UInt8) :=
  match (StreamDecoder.new delta true).decodeAll cs source [] with
  | .ok (_, output) => .ok output
  | .error e => .error e

/-- A copy window at offset `2^64 - 1` of an empty source: the one COPY of
the window (opcode 19, explicit size 1, address 0 in mode SELF) computes
`offset + len` in `source_slice`, which overflows. -/
theorem decodeMemory_sourceSlice_overflow (cs : Compress.Codecs) :
    decodeMemory cs [0xD6, 0xC3, 0xC4, 0x00, 0x00,
      0x01, 0x01, 0x81, 0xFF, 0xFF, 0xFF, 0xFF, 0xFF, 0xFF, 0xFF, 0xFF, 0x7F, 0x08, 0x01, 0x00,
      0x00, 0x02, 0x01, 0x13, 0x01, 0x00] [] = panic "attempt to add with overflow" := by
  rfl

/-! ## Target copies -/

open CopyProgram in
/-- The slow path is the RFC's overlapping copy: as long as it starts inside
`output`, every byte it reads is one that is already there. -/
theorem pushFromWithin_eq (tgtOffset : Nat) :
    ∀ n i (output : List UInt8), tgtOffset + i < output.length →
      pushFromWithin tgtOffset i n output = .ok (overlapCopy (tgtOffset + i) n output) := by
  intro n
  induction n with
  | zero => intro i output _; rfl
  | succ n ih =>
    intro i output hlt
    have hget : output.getD (tgtOffset + i) default = output[tgtOffset + i] := by
      rw [List.getD_eq_getElem?_getD, List.getElem?_eq_getElem hlt]; rfl
    rw [pushFromWithin, index_of_lt hlt, bind_ok', overlapCopy_succ, hget,
      ih (i + 1) _ (by simp; omega), Nat.add_assoc]

open CopyProgram in
/-- **Both paths of a target copy** append the RFC overlapping copy from an
offset inside `output`. -/
theorem targetCopy_eq {tgtOffset : Nat} (size : Nat) {output : List UInt8}
    (h : tgtOffset < output.length) :
    targetCopy tgtOffset size output = .ok (overlapCopy tgtOffset size output) := by
  unfold targetCopy
  split
  · next hfast => rw [overlapCopy_of_le _ _ _ hfast]; rfl
  · exact pushFromWithin_eq tgtOffset size 0 output h

theorem pushFromWithin_append (tgtOffset : Nat) :
    ∀ n i (output output' : List UInt8), pushFromWithin tgtOffset i n output = .ok output' →
      ∃ bytes, bytes.length = n ∧ output' = output ++ bytes := by
  intro n
  induction n with
  | zero => intro i output output' h; exact ⟨[], rfl, by cases h; simp⟩
  | succ n ih =>
    intro i output output' h
    obtain ⟨byte, -, h⟩ := bind_eq_ok h
    obtain ⟨bytes, hlen, rfl⟩ := ih _ _ _ h
    exact ⟨byte :: bytes, by simp [hlen], by simp⟩

/-- A target copy that succeeds appends `size` bytes. -/
theorem targetCopy_append {tgtOffset size : Nat} {output output' : List UInt8}
    (h : targetCopy tgtOffset size output = .ok output') :
    ∃ bytes, bytes.length = size ∧ output' = output ++ bytes := by
  unfold targetCopy at h
  split at h
  · next hfast =>
    cases h
    exact ⟨_, by simp; omega, rfl⟩
  · exact pushFromWithin_append _ _ _ _ _ h

/-- When `read_source` fills the whole copy buffer, the buffer holds the
source bytes from `offset` on. -/
theorem readSource_full {src : List UInt8} {offset size n : Nat} {buf : List UInt8}
    (h : readSource src offset (List.replicate size 0) = (n, buf)) (hn : size ≤ n) :
    size ≤ (src.drop offset).length ∧ buf.take size = (src.drop offset).take size := by
  unfold readSource at h
  split at h
  · cases h
    have : size = 0 := by omega
    subst this
    simp
  · cases h
    simp only [List.length_replicate] at hn
    have hle : size ≤ (src.drop offset).length := by omega
    refine ⟨hle, ?_⟩
    have hmin : min size (src.drop offset).length = size := by omega
    rw [List.length_replicate, hmin,
      List.take_append_of_le_length (by simp only [List.length_take]; omega),
      List.take_take, Nat.min_self]

/-- **A source copy** appends the `size` source bytes from `src_offset`, on
both of its paths, and it succeeds only when they are all there. -/
theorem sourceCopy_eq {src : List UInt8} {srcOffset size : Nat} {output output' : List UInt8}
    (h : sourceCopy src srcOffset size output = .ok output') :
    size ≤ (src.drop srcOffset).length ∧ output' = output ++ (src.drop srcOffset).take size := by
  unfold sourceCopy at h
  obtain ⟨r, hslice, h⟩ := bind_eq_ok h
  obtain ⟨stop, hstop, hr⟩ := bind_eq_ok hslice
  cases hr
  by_cases hle : stop ≤ src.length
  · -- the zero-copy slice
    simp only [hle, if_true] at h
    cases h
    have := (addChecked_eq_ok hstop).1
    exact ⟨by simp; omega, rfl⟩
  · -- the copy buffer, filled by `read_source`
    generalize hrs : readSource src srcOffset (List.replicate size 0) = r at h
    obtain ⟨n, buf⟩ := r
    simp only [hle, if_false] at h
    split at h
    · simp [fail] at h
    · next hn =>
      cases h
      obtain ⟨hlen, htake⟩ := readSource_full hrs (by omega)
      exact ⟨hlen, by rw [htake]⟩

/-- A source copy that succeeds appends `size` bytes. -/
theorem sourceCopy_append {src : List UInt8} {srcOffset size : Nat} {output output' : List UInt8}
    (h : sourceCopy src srcOffset size output = .ok output') :
    ∃ bytes, bytes.length = size ∧ output' = output ++ bytes := by
  obtain ⟨hlen, rfl⟩ := sourceCopy_eq h
  exact ⟨_, by simp only [List.length_take]; omega, rfl⟩

/-! ## What one half-instruction does -/

theorem resolveSize_instPos {errPrefix : String} {inst : List UInt8} {instPos : Nat}
    {tableSize : UInt8} {size instPos' : Nat}
    (h : resolveSize errPrefix inst instPos tableSize = .ok (size, instPos')) :
    instPos ≤ instPos' := by
  unfold resolveSize at h
  split at h
  · obtain ⟨rest, -, h⟩ := bind_eq_ok h
    split at h
    · cases h; omega
    · simp [fail] at h
  · cases h; exact le_refl _

/-- The error text is the only part of `resolveSize` its prefix changes: a
size read under one prefix is read under any other. -/
theorem resolveSize_prefix {errPrefix : String} (errPrefix' : String) {inst : List UInt8}
    {instPos : Nat} {tableSize : UInt8} {r : Nat × Nat}
    (h : resolveSize errPrefix inst instPos tableSize = .ok r) :
    resolveSize errPrefix' inst instPos tableSize = .ok r := by
  unfold resolveSize at h ⊢
  split
  · next hzero =>
    rw [if_pos hzero] at h
    obtain ⟨rest, hrest, h⟩ := bind_eq_ok h
    rw [hrest, bind_ok']
    split at h
    · exact h
    · simp [fail] at h
  · next hzero => rwa [if_neg hzero] at h

/-- **A half-instruction appends**: it adds `size` bytes at the end of `output`
and advances `target_pos` by the same `size`; it never moves back in the
instruction section. -/
theorem executeHalfInstruction_append {ctx : WindowCtx} {itype tableSize : UInt8}
    {st st' : WindowState} (h : executeHalfInstruction ctx itype tableSize st = .ok st') :
    ∃ size bytes, bytes.length = size ∧ st'.output = st.output ++ bytes ∧
      st'.targetPos = st.targetPos + size ∧ st.instPos ≤ st'.instPos := by
  unfold executeHalfInstruction at h
  obtain ⟨⟨size, instPos⟩, hres, h⟩ := bind_eq_ok h
  have hpos := resolveSize_instPos hres
  dsimp only at h
  split at h
  · -- RUN: one data byte, `size` times
    split at h
    · simp [fail] at h
    obtain ⟨byte, -, h⟩ := bind_eq_ok h
    obtain ⟨tp, htp, h⟩ := bind_eq_ok h
    cases h
    exact ⟨size, _, List.length_replicate, rfl, (addChecked_eq_ok htp).1, hpos⟩
  split at h
  · -- ADD: the next `size` data bytes
    split at h
    · simp [fail] at h
    next hstop =>
    obtain ⟨bytes, hbytes, h⟩ := bind_eq_ok h
    obtain ⟨tp, htp, h⟩ := bind_eq_ok h
    rw [slice_of_le (by omega) (by omega)] at hbytes
    cases hbytes
    cases h
    exact ⟨size, _, by simp; omega, rfl, (addChecked_eq_ok htp).1, hpos⟩
  · -- COPY: from the source or from the target
    obtain ⟨here, -, h⟩ := bind_eq_ok h
    obtain ⟨addrData, -, h⟩ := bind_eq_ok h
    obtain ⟨⟨addr, consumed, acache⟩, -, h⟩ := bind_eq_ok h
    dsimp only at h
    split at h
    · next hsrc =>
      -- an address in the source window
      obtain ⟨stop, -, h⟩ := bind_eq_ok h
      simp only [pure_bind] at h
      split at h
      · simp [fail] at h
      obtain ⟨srcOffset, -, h⟩ := bind_eq_ok h
      obtain ⟨output, hout, h⟩ := bind_eq_ok h
      obtain ⟨tp, htp, h⟩ := bind_eq_ok h
      cases h
      obtain ⟨bytes, hlen, rfl⟩ := sourceCopy_append hout
      exact ⟨size, bytes, hlen, rfl, (addChecked_eq_ok htp).1, hpos⟩
    · next htgt =>
      -- an address in the target written so far
      simp only [pure_bind, Bool.false_eq_true, if_false] at h
      obtain ⟨output, hout, h⟩ := bind_eq_ok h
      obtain ⟨tp, htp, h⟩ := bind_eq_ok h
      cases h
      obtain ⟨bytes, hlen, rfl⟩ := targetCopy_append hout
      exact ⟨size, bytes, hlen, rfl, (addChecked_eq_ok htp).1, hpos⟩

/-- `st'` continues `st`: `output` only grew, `target_pos` grew by as many
bytes, and the instruction position did not move back. -/
def WindowState.Extends (st st' : WindowState) : Prop :=
  ∃ bytes : List UInt8, st'.output = st.output ++ bytes ∧
    st'.targetPos = st.targetPos + bytes.length ∧ st.instPos ≤ st'.instPos

theorem WindowState.Extends.refl (st : WindowState) : st.Extends st :=
  ⟨[], by simp, by simp, le_refl _⟩

theorem WindowState.Extends.trans {st₁ st₂ st₃ : WindowState} (h₁ : st₁.Extends st₂)
    (h₂ : st₂.Extends st₃) : st₁.Extends st₃ := by
  obtain ⟨b₁, ho₁, ht₁, hi₁⟩ := h₁
  obtain ⟨b₂, ho₂, ht₂, hi₂⟩ := h₂
  exact ⟨b₁ ++ b₂, by rw [ho₂, ho₁, List.append_assoc], by simp [ht₂, ht₁]; omega, by omega⟩

theorem executeHalfInstruction_extends {ctx : WindowCtx} {itype tableSize : UInt8}
    {st st' : WindowState} (h : executeHalfInstruction ctx itype tableSize st = .ok st') :
    st.Extends st' := by
  obtain ⟨size, bytes, hlen, hout, htp, hpos⟩ := executeHalfInstruction_append h
  exact ⟨bytes, hout, by rw [htp, hlen], hpos⟩

/-- **An opcode is its halves.**  A relation between states that is reflexive,
transitive and established by every half-instruction holds across every
opcode. -/
theorem executeOpcode_rel {ctx : WindowCtx} (R : WindowState → WindowState → Prop)
    (hrefl : ∀ st, R st st) (htrans : ∀ {st₁ st₂ st₃}, R st₁ st₂ → R st₂ st₃ → R st₁ st₃)
    (hhalf : ∀ {itype tableSize st st'}, executeHalfInstruction ctx itype tableSize st = .ok st' → R st st')
    {entry : CodeTableEntry} {st st' : WindowState} (h : executeOpcode ctx entry st = .ok st') :
    R st st' := by
  -- each half is executed, or skipped as a `NOOP`
  have half : ∀ (t s : UInt8) (st st' : WindowState),
      (if t ≠ xd3Noop then executeHalfInstruction ctx t s st else pure st) = .ok st' → R st st' := by
    intro t s st st' h
    split at h
    · exact hhalf h
    · cases h; exact hrefl _
  unfold executeOpcode at h
  dsimp only at h
  split at h
  · obtain ⟨mid, hmid, h⟩ := bind_eq_ok h
    exact htrans (hhalf hmid) (half _ _ _ _ h)
  · simp only [pure_bind] at h
    exact half _ _ _ _ h

theorem executeOpcode_extends {ctx : WindowCtx} {entry : CodeTableEntry} {st st' : WindowState}
    (h : executeOpcode ctx entry st = .ok st') : st.Extends st' :=
  executeOpcode_rel WindowState.Extends WindowState.Extends.refl WindowState.Extends.trans
    executeHalfInstruction_extends h

/-- What an iteration that goes on did: it read an opcode inside the
instruction section and executed it. -/
theorem windowBody_eq_next {ctx : WindowCtx} {st st' : WindowState}
    (h : windowBody ctx st = .next st') :
    ∃ hlt : st.instPos < ctx.instSection.length,
      executeOpcode ctx (codeEntry ctx.instSection[st.instPos]) { st with instPos := st.instPos + 1 } =
        .ok st' := by
  unfold windowBody at h
  split at h
  · next hlt =>
    dsimp only at h
    split at h
    · next st'' hop => cases h; exact ⟨hlt, hop⟩
    · cases h
  · cases h

/-- One iteration reads an opcode inside the instruction section and
continues from a state past it. -/
theorem windowBody_next {ctx : WindowCtx} {st st' : WindowState}
    (h : windowBody ctx st = .next st') :
    st.instPos < ctx.instSection.length ∧ st.instPos < st'.instPos ∧
      ∃ bytes, st'.output = st.output ++ bytes ∧ st'.targetPos = st.targetPos + bytes.length := by
  obtain ⟨hlt, hop⟩ := windowBody_eq_next h
  obtain ⟨bytes, ho, ht, hi⟩ := executeOpcode_extends hop
  exact ⟨hlt, by simp at hi; omega, bytes, ho, ht⟩

theorem resolveSize_of_ne_zero (errPrefix : String) (inst : List UInt8) (instPos : Nat)
    {tableSize : UInt8} (h : tableSize ≠ 0) :
    resolveSize errPrefix inst instPos tableSize = .ok (tableSize.toNat, instPos) := by
  simp [resolveSize, h]; rfl

/-- An explicit size is the `u32` varint at the instruction position. -/
theorem resolveSize_of_varint (errPrefix : String) {inst rest : List UInt8} {instPos n : Nat}
    (hn : n < 2 ^ 32)
    (h : inst.drop instPos = encodeU64 n ++ rest) :
    resolveSize errPrefix inst instPos 0 = .ok (n, instPos + (encodeU64 n).length) := by
  have hle : instPos ≤ inst.length := by
    have hpos : 0 < (encodeU64 n).length := by
      rw [encodeU64_length_eq_contBytes (by omega), contBytes_length]
      split <;> omega
    by_contra hgt
    rw [List.drop_of_length_le (by omega)] at h
    have := congrArg List.length h
    simp at this
    omega
  simp [resolveSize, sliceFrom_of_le hle, h, readU32_encodeU64 hn]
  rfl

open CopyProgram in
/-- A COPY whose address the cache decodes: a source address inside the copy
window reads the source, a target address inside `output` copies from it. -/
theorem executeHalfInstruction_copyOk {ctx : WindowCtx} {tableSize mode : UInt8}
    {st : WindowState} {size instPos addr consumed : Nat} {acache : AddressCache}
    (hres : resolveSize "bad instruction size: " ctx.instSection st.instPos tableSize =
      .ok (size, instPos))
    (hrun : xd3Cpy + mode ≠ xd3Run) (hadd : xd3Cpy + mode ≠ xd3Add)
    (hhere : ctx.copyWindowLen + st.targetPos < 2 ^ 64)
    (hpos : st.addrPos ≤ ctx.addrSection.length)
    (hdec : st.acache.decode mode (ctx.addrSection.drop st.addrPos)
      (ctx.copyWindowLen + st.targetPos) = .ok (addr, consumed, acache))
    (htp : st.targetPos + size < 2 ^ 64)
    (hsrc : addr < ctx.copyWindowLen → addr + size ≤ ctx.copyWindowLen ∧
      ctx.copyWindowOffset + addr + size ≤ ctx.source.length ∧
      ctx.copyWindowOffset + addr + size < 2 ^ 64)
    (htgt : ctx.copyWindowLen ≤ addr →
      ctx.baseOffset + (addr - ctx.copyWindowLen) < st.output.length) :
    executeHalfInstruction ctx (xd3Cpy + mode) tableSize st =
      .ok { st with
        instPos := instPos, addrPos := st.addrPos + consumed, acache := acache,
        targetPos := st.targetPos + size,
        output := if addr < ctx.copyWindowLen then
            st.output ++ (ctx.source.drop (ctx.copyWindowOffset + addr)).take size
          else overlapCopy (ctx.baseOffset + (addr - ctx.copyWindowLen)) size st.output } := by
  have hmode : xd3Cpy + mode - xd3Cpy = mode := by grind
  by_cases hs : addr < ctx.copyWindowLen
  · obtain ⟨h1, h2, h3⟩ := hsrc hs
    simp [executeHalfInstruction, hres, hrun, hadd, hmode, addChecked_of_lt hhere,
      sliceFrom_of_le hpos, hdec, hs, addChecked_of_lt (show addr + size < 2 ^ 64 by omega),
      Nat.not_lt.2 h1, addChecked_of_lt (show ctx.copyWindowOffset + addr < 2 ^ 64 by omega),
      sourceCopy, sourceSlice, addChecked_of_lt h3, h2, addChecked_of_lt htp]
  · simp [executeHalfInstruction, hres, hrun, hadd, hmode, addChecked_of_lt hhere,
      sliceFrom_of_le hpos, hdec, hs, targetCopy_eq size (htgt (by omega)), addChecked_of_lt htp]

theorem executeOpcode_single {ctx : WindowCtx} {entry : CodeTableEntry} (st : WindowState)
    (h1 : entry.type1 ≠ xd3Noop) (h2 : entry.type2 = xd3Noop) :
    executeOpcode ctx entry st = executeHalfInstruction ctx entry.type1 entry.size1 st := by
  unfold executeOpcode
  simp [h1, h2]

theorem executeOpcode_double {ctx : WindowCtx} {entry : CodeTableEntry} (st : WindowState)
    (h1 : entry.type1 ≠ xd3Noop) (h2 : entry.type2 ≠ xd3Noop) :
    executeOpcode ctx entry st = (executeHalfInstruction ctx entry.type1 entry.size1 st >>=
      executeHalfInstruction ctx entry.type2 entry.size2) := by
  unfold executeOpcode
  simp [h1, h2]

theorem windowBody_of_getElem? {ctx : WindowCtx} {st : WindowState} {opcode : UInt8}
    (h : ctx.instSection[st.instPos]? = some opcode) :
    windowBody ctx st =
      match executeOpcode ctx (codeEntry opcode) { st with instPos := st.instPos + 1 } with
      | .ok st' => .next st'
      | .error e => .done (.error e) := by
  obtain ⟨hlt, rfl⟩ := List.getElem?_eq_some_iff.1 h
  simp [windowBody, hlt]

theorem executeHalfInstruction_run {ctx : WindowCtx} {tableSize : UInt8} {st : WindowState}
    {size instPos : Nat} {byte : UInt8}
    (hres : resolveSize "bad instruction size: " ctx.instSection st.instPos tableSize =
      .ok (size, instPos))
    (hbyte : ctx.dataSection[st.dataPos]? = some byte) (htp : st.targetPos + size < 2 ^ 64) :
    executeHalfInstruction ctx xd3Run tableSize st =
      .ok { st with
        instPos := instPos, dataPos := st.dataPos + 1,
        output := st.output ++ List.replicate size byte, targetPos := st.targetPos + size } := by
  have hlt : st.dataPos < ctx.dataSection.length := (List.getElem?_eq_some_iff.1 hbyte).1
  simp [executeHalfInstruction, hres, index, hbyte, addChecked_of_lt htp, Nat.not_le.2 hlt]

/-- A window whose header announces an empty target, with one RUN of explicit
size `2^32 - 1`: the first iteration of the loop appends all of its bytes;
the size is compared with `target_window_len` only after the loop. -/
theorem windowBody_run_past_target :
    let header : WindowHeader := ⟨0, 0, 0, 11, 0, 0, 1, 6, 0, none⟩
    let ctx := windowCtx header [0x41] [0x00, 0x8F, 0xFF, 0xFF, 0xFF, 0x7F] [] [] []
    ∃ st, Loop.Reaches (windowBody ctx) (windowInit [] AddressCache.new) st ∧
      ctx.baseOffset + header.targetWindowLen < st.output.length ∧
      st.output.length = 2 ^ 32 - 1 := by
  intro header ctx
  have hentry : codeEntry 0 = .single xd3Run 0 := rfl
  have hres : resolveSize "bad instruction size: " ctx.instSection 1 0 = .ok (2 ^ 32 - 1, 6) :=
    resolveSize_of_varint _ (by norm_num) (show _ = encodeU64 (2 ^ 32 - 1) ++ [] from rfl)
  have hstep : windowBody ctx (windowInit [] AddressCache.new) =
      .next ⟨6, 1, 0, AddressCache.new.init, 0 + (2 ^ 32 - 1), [] ++ List.replicate (2 ^ 32 - 1) 0x41⟩ := by
    rw [windowBody_of_getElem? (show ctx.instSection[0]? = some 0 from rfl),
      executeOpcode_single _ (by rw [hentry]; decide) (by rw [hentry]; rfl), hentry]
    change (match executeHalfInstruction ctx xd3Run 0 ⟨1, 0, 0, AddressCache.new.init, 0, []⟩ with
      | .ok st' => (Loop.Step.next st' : Loop.Step WindowState (Result DecodeError WindowState))
      | .error e => .done (.error e)) = _
    rw [executeHalfInstruction_run hres rfl (show 0 + (2 ^ 32 - 1) < 2 ^ 64 by decide)]
  have hlen : ([] ++ List.replicate (2 ^ 32 - 1) (0x41 : UInt8)).length = 2 ^ 32 - 1 := by
    rw [List.nil_append, List.length_replicate]
  refine ⟨_, .single hstep, ?_, hlen⟩
  show 0 + 0 < ([] ++ List.replicate (2 ^ 32 - 1) (0x41 : UInt8)).length
  rw [hlen]
  norm_num

theorem executeHalfInstruction_add {ctx : WindowCtx} {tableSize : UInt8} {st : WindowState}
    {size instPos : Nat}
    (hres : resolveSize "bad instruction size: " ctx.instSection st.instPos tableSize =
      .ok (size, instPos))
    (hdata : st.dataPos + size ≤ ctx.dataSection.length) (htp : st.targetPos + size < 2 ^ 64) :
    executeHalfInstruction ctx xd3Add tableSize st =
      .ok { st with
        instPos := instPos, dataPos := st.dataPos + size,
        output := st.output ++ (ctx.dataSection.drop st.dataPos).take size,
        targetPos := st.targetPos + size } := by
  simp [executeHalfInstruction, hres, slice_of_le (Nat.le_add_right _ _) hdata,
    addChecked_of_lt htp, Nat.not_lt.2 hdata, xd3Add, xd3Run]

/-! ## The stream decoder, forwards -/

namespace StreamDecoder

theorem read_of_ok {α : Type} {d : StreamDecoder} {m : ReadM IoError α} {a : α} {rest : List UInt8}
    (h : m d.reader = .ok (a, rest)) : d.read m = .ok (a, { d with reader := rest }) := by
  simp [read, ReadM.liftErr_of_ok _ h]

/-- The first call reads the file header, then goes on as a later call. -/
theorem decodeWindow_first (cs : Compress.Codecs) (source : List UInt8) {d : StreamDecoder}
    (output : List UInt8) {fh : FileHeader} {rest : List UInt8} (hd : d.fileHeader = none)
    (hfh : FileHeader.decode d.reader = .ok (fh, rest)) :
    d.decodeWindow cs source output =
      ({ d with reader := rest, secondaryId := fh.secondaryId, fileHeader := some fh } : StreamDecoder).decodeWindow
        cs source output := by
  conv => lhs; unfold decodeWindow
  conv => rhs; unfold decodeWindow
  simp [hd, read_of_ok hfh]

/-- At the end of the input there is no window left. -/
theorem decodeWindow_end (cs : Compress.Codecs) (source : List UInt8) {d : StreamDecoder}
    (output : List UInt8) {fh : FileHeader} (hd : d.fileHeader = some fh) (hnil : d.reader = []) :
    d.decodeWindow cs source output = .ok (false, d, output) := by
  have hread : d.read WindowHeader.decode = .ok (none, d) := by
    have hwh : WindowHeader.decode d.reader = .ok (none, []) := by rw [hnil]; rfl
    rw [read_of_ok hwh, ← hnil]
  unfold decodeWindow
  simp [hd, hread]
  rfl

/-- A window without secondary compression: its header, its three sections,
and `decode_window_with_cache` on them. -/
theorem decodeWindow_window (cs : Compress.Codecs) (source : List UInt8) {d : StreamDecoder}
    {output output' : List UInt8} {fh : FileHeader} {w : WindowHeader}
    {data inst addr rest : List UInt8} {acache' : AddressCache} (hd : d.fileHeader = some fh)
    (hwh : WindowHeader.decode d.reader = .ok (some w, data ++ inst ++ addr ++ rest))
    (htgt : w.winInd &&& vcdTarget = 0) (hdata : w.dataLen = data.length)
    (hinst : w.instLen = inst.length) (haddr : w.addrLen = addr.length) (hdel : w.delInd = 0)
    (hwin : decodeWindowWithCache w data inst addr source d.verifyChecksum output d.acache =
      .ok (output', acache')) :
    d.decodeWindow cs source output =
      .ok (true, { d with reader := rest, acache := acache' }, output') := by
  unfold decodeWindow
  simp only [hd, read_of_ok hwh, bind_ok', pure, Except.pure]
  simp only [htgt, ne_eq, not_true_eq_false, if_false, List.append_assoc]
  rw [hdata, read_of_ok (readExact_append _ _)]
  simp only [bind_ok']
  rw [hinst, read_of_ok (readExact_append _ _)]
  simp only [bind_ok']
  rw [haddr, read_of_ok (readExact_append _ _)]
  simp only [bind_ok', hdel, hwin]
  rfl

end StreamDecoder

end Oxidelta.Vcdiff
