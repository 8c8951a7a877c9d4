import Oxidelta.Compress.RoundTrip
import Oxidelta.Vcdiff.Frame

/-!
# Transforming deltas on the command line (`cli.rs`)

`oxidelta recode` rewrites a delta for another secondary compressor, or for
none: it copies the file header's application header (or sets a new one),
and for every window reads the window header and the three sections,
decompresses them under the input's compressor, compresses them again with
the new one and writes them after the input's window header with the new
delta indicator, section lengths and `enc_len`.  Nothing in a window's
instructions changes, so the delta should decode to the same target.

The model starts once the files are open: the input is the delta's bytes, the
output the bytes written, and each error is the message `cmd_recode` prints
before returning `1`.  Writes to the output do not fail.

Main results:

* `recodedWindow_decodes` — a window `cmd_recode` writes is one the stream
  decoder decodes as the input's window with the stored sections;
* `recodeBody_next` — one iteration of the window loop: the decoder on the
  input and the decoder on the output decode the same target;
* `cmdRecode_decodes` — **recoding keeps the target**: when `cmd_recode`
  succeeds on a delta that decodes against a source, the delta it writes
  decodes against that source to the same target.

`oxidelta merge` applies its patches in turn, the first to the source file,
and encodes the last target against the source file as one delta:

* `cmdMerge_chain` — the apply chain is `applyPatches`, the patches applied
  in turn;
* `cmdMerge_decodes` — **merging keeps the target**: at level 0, the merged
  delta rebuilds from the source what the patches rebuild in turn.
-/

namespace Oxidelta.Cli

open Rust Oxidelta.Vcdiff Oxidelta.Compress

/-! ## The model -/

/-- Why `cmd_recode` stops once its files are open: it prints the error after
`oxidelta: ` and the step, and returns `1`. -/
inductive RecodeError where
  /-- `invalid VCDIFF header: {e}` -/
  | invalidHeader (e : IoError)
  /-- `window {window_num}: {e}` -/
  | window (windowNum : Nat) (e : IoError)
  /-- `window {window_num} data: {e}` -/
  | windowData (windowNum : Nat) (e : IoError)
  /-- `window {window_num} inst: {e}` -/
  | windowInst (windowNum : Nat) (e : IoError)
  /-- `window {window_num} addr: {e}` -/
  | windowAddr (windowNum : Nat) (e : IoError)
  /-- `window {window_num} decompress: {e}` -/
  | decompress (windowNum : Nat) (e : DecodeError)
  /-- `window {window_num} compress: {e}` -/
  | compress (windowNum : Nat) (e : IoError)
  deriving DecidableEq

/-- The file header `cmd_recode` writes: the default one, naming the new
compressor when there is one; with `--appheader` handling on, it carries the
application header given, or else the input's. -/
def recodeFileHeader (newSecondary : Option CompressBackend) (useAppheader : Bool)
    (appheader : Option (List UInt8)) (inHdr : FileHeader) : FileHeader :=
  let outHdr : FileHeader := match newSecondary with
    | some backend =>
      { FileHeader.default with
        hdrInd := FileHeader.default.hdrInd ||| vcdSecondary, secondaryId := some backend.id }
    | none => FileHeader.default
  if useAppheader then
    match appheader, inHdr.appHeader with
    | some ah, _ => { outHdr with hdrInd := outHdr.hdrInd ||| vcdAppheader, appHeader := some ah }
    | none, some origAh =>
      { outHdr with hdrInd := outHdr.hdrInd ||| vcdAppheader, appHeader := some origAh }
    | none, none => outHdr
  else outHdr

/-- The sections to recompress: the stored ones, decompressed under the
input's compressor when the delta indicator says so. -/
def rawSections (cs : Codecs) (data inst addr : List UInt8) (delInd : UInt8)
    (secondaryId : Option UInt8) : Except DecodeError (List UInt8 × List UInt8 × List UInt8) :=
  if delInd ≠ 0 then decompressSections cs data inst addr delInd secondaryId
  else .ok (data, inst, addr)

/-- The sections written and their delta indicator: compressed by the new
compressor, or stored with indicator `0`. -/
def recompressSections (newSecondary : Option CompressBackend) (data inst addr : List UInt8) :
    Except IoError (List UInt8 × List UInt8 × List UInt8 × UInt8) :=
  match newSecondary with
  | some backend => compressSections backend data inst addr
  | none => .ok (data, inst, addr, 0)

/-- The window header `cmd_recode` writes, before its `enc_len` is computed:
the input's, with the new delta indicator and section lengths. -/
def recodedHeader (wh : WindowHeader) (newDelInd : UInt8) (data inst addr : List UInt8) :
    WindowHeader :=
  { wh with
    encLen := 0, delInd := newDelInd, dataLen := data.length, instLen := inst.length,
    addrLen := addr.length }

/-- One window of `cmd_recode`'s loop after its header: the three sections
read, recompressed, and written after the new window header. -/
def recodeWindow (cs : Codecs) (newSecondary : Option CompressBackend) (inSecondaryId : Option UInt8)
    (windowNum : Nat) (wh : WindowHeader) : ReadM RecodeError (List UInt8) := do
  let dataBuf ← ReadM.liftErr (RecodeError.windowData windowNum) (readExact wh.dataLen)
  let instBuf ← ReadM.liftErr (RecodeError.windowInst windowNum) (readExact wh.instLen)
  let addrBuf ← ReadM.liftErr (RecodeError.windowAddr windowNum) (readExact wh.addrLen)
  let (rawData, rawInst, rawAddr) ← ReadM.ofResult <| lift (RecodeError.decompress windowNum)
    (rawSections cs dataBuf instBuf addrBuf wh.delInd inSecondaryId)
  let (outData, outInst, outAddr, newDelInd) ← ReadM.ofResult <| lift (RecodeError.compress windowNum)
    (recompressSections newSecondary rawData rawInst rawAddr)
  let newWh := recodedHeader wh newDelInd outData outInst outAddr
  let encLen ← ReadM.ofResult newWh.computeEncLen
  pure ({ newWh with encLen }.encode ++ outData ++ outInst ++ outAddr)

/-- The state of `cmd_recode`'s window loop: the unread input, the bytes
written, and `window_num`. -/
structure RecodeState where
  reader : List UInt8
  out : List UInt8
  windowNum : Nat

/-- One iteration of `cmd_recode`'s `loop`: the next window header, then the
window recoded; the loop ends where no window header is left. -/
def recodeBody (cs : Codecs) (newSecondary : Option CompressBackend) (inSecondaryId : Option UInt8)
    (s : RecodeState) : Loop.Step RecodeState (Result RecodeError RecodeState) :=
  match ReadM.liftErr (RecodeError.window s.windowNum) WindowHeader.decode s.reader with
  | .error e => .done (.error e)
  | .ok (none, reader) => .done (.ok { s with reader })
  | .ok (some wh, reader) =>
    match recodeWindow cs newSecondary inSecondaryId s.windowNum wh reader with
    | .error e => .done (.error e)
    | .ok (bytes, reader) => .next ⟨reader, s.out ++ bytes, s.windowNum + 1⟩

/-- `cmd_recode` from the input delta to the bytes it writes, once its files
are open: the file header read and the new one written, then the windows.
The compressor is the one `build_compress_options` selects. -/
def cmdRecode (cs : Codecs) (secondary : SecondaryCompression) (useAppheader : Bool)
    (appheader : Option (List UInt8)) (input : List UInt8) : Result RecodeError (List UInt8) := do
  let (inHdr, reader) ← ReadM.liftErr RecodeError.invalidHeader FileHeader.decode input
  let newSecondary := secondary.backend cs
  let outHdr := recodeFileHeader newSecondary useAppheader appheader inHdr
  match Loop.run (recodeBody cs newSecondary inHdr.secondaryId) (reader.length + 1)
      ⟨reader, outHdr.encode, 0⟩ with
  | none => .error .diverge
  | some r => (fun s => s.out) <$> r

/-! ## The headers written -/

theorem recodeFileHeader_secondaryId (newSecondary : Option CompressBackend) (useAppheader : Bool)
    (appheader : Option (List UInt8)) (inHdr : FileHeader) :
    (recodeFileHeader newSecondary useAppheader appheader inHdr).secondaryId =
      newSecondary.map CompressBackend.id := by
  unfold recodeFileHeader
  -- the application header's branches leave the compressor's id as the first match set it
  cases newSecondary <;> dsimp only <;> split <;> (try split) <;> rfl

/-- The header naming a compressor and nothing else is valid. -/
theorem secondaryHeader_valid (id : UInt8) :
    ({ FileHeader.default with
      hdrInd := FileHeader.default.hdrInd ||| vcdSecondary, secondaryId := some id } : FileHeader).Valid where
  hdrInd_lt := show (FileHeader.default.hdrInd ||| vcdSecondary).toNat < 8 by decide
  no_codetable := show (FileHeader.default.hdrInd ||| vcdSecondary) &&& vcdCodetable = 0 by decide
  secondary_iff :=
    ⟨fun _ => rfl, fun _ => show (FileHeader.default.hdrInd ||| vcdSecondary) &&& vcdSecondary ≠ 0 by decide⟩
  app_iff :=
    ⟨fun h => absurd h (show ¬(FileHeader.default.hdrInd ||| vcdSecondary) &&& vcdAppheader ≠ 0 by decide),
      fun h => by simp [FileHeader.default] at h⟩
  app_lt := by simp [FileHeader.default]

/-- Flagging and setting an application header keeps a header valid. -/
theorem setAppHeader_valid {h : FileHeader} (hv : h.Valid) {d : List UInt8}
    (hd : d.length < 2 ^ 64) :
    ({ h with hdrInd := h.hdrInd ||| vcdAppheader, appHeader := some d } : FileHeader).Valid := by
  obtain ⟨hlt, hct, hsec, -, -⟩ := hv
  -- the application flag leaves the other bits as they were
  have hflags : ∀ x : UInt8, x.toNat < 8 → x &&& vcdCodetable = 0 →
      (x ||| vcdAppheader).toNat < 8 ∧ (x ||| vcdAppheader) &&& vcdCodetable = 0 ∧
        ((x ||| vcdAppheader) &&& vcdSecondary ≠ 0 ↔ x &&& vcdSecondary ≠ 0) ∧
        (x ||| vcdAppheader) &&& vcdAppheader ≠ 0 := by
    intro x hx hc
    rcases FileHeader.hdrInd_cases hx hc with rfl | rfl | rfl | rfl <;> decide
  obtain ⟨h1, h2, h3, h4⟩ := hflags h.hdrInd hlt hct
  exact ⟨h1, h2, h3.trans hsec, by simpa using h4, fun d' hd' => by cases hd'; exact hd⟩

/-- The file header written is one the decoder reads back. -/
theorem recodeFileHeader_valid (newSecondary : Option CompressBackend) (useAppheader : Bool)
    {appheader : Option (List UInt8)} {inHdr : FileHeader}
    (happ : ∀ ah, appheader = some ah → ah.length < 2 ^ 64) (hin : inHdr.Valid) :
    (recodeFileHeader newSecondary useAppheader appheader inHdr).Valid := by
  have hbase : (match newSecondary with
      | some backend =>
        { FileHeader.default with
          hdrInd := FileHeader.default.hdrInd ||| vcdSecondary, secondaryId := some backend.id }
      | none => FileHeader.default : FileHeader).Valid := by
    cases newSecondary
    · exact FileHeader.default_valid
    · exact secondaryHeader_valid _
  unfold recodeFileHeader
  dsimp only
  cases useAppheader
  · exact hbase
  · rcases appheader with _ | ah
    · rcases horig : inHdr.appHeader with _ | origAh
      · exact hbase
      · exact setAppHeader_valid hbase (hin.app_lt origAh horig)
    · exact setAppHeader_valid hbase (happ ah rfl)

/-! ## One window -/

section Window

variable {cs : Codecs} {newSecondary : Option CompressBackend} {sid : Option UInt8}

/-- The sections recompressed are the stored ones as the decoder reads them. -/
theorem rawSections_eq (cs : Codecs) (data inst addr : List UInt8) (delInd : UInt8)
    (secondaryId : Option UInt8) :
    rawSections cs data inst addr delInd secondaryId =
      decompressSections cs data inst addr delInd secondaryId := by
  unfold rawSections
  split
  · rfl
  · next hdel => rw [not_not.1 hdel, decompressSections_zero]

/-- The sections written decompress, under the compressor the new file header
names, to the sections recompressed. -/
theorem recompressSections_decodes (hok : ∀ b, newSecondary = some b → b.Recoverable cs)
    {data inst addr data' inst' addr' : List UInt8} {delInd : UInt8}
    (h : recompressSections newSecondary data inst addr = .ok (data', inst', addr', delInd)) :
    delInd.toNat < 8 ∧ decompressSections cs data' inst' addr' delInd
      (newSecondary.map CompressBackend.id) = .ok (data, inst, addr) := by
  cases newSecondary with
  | none =>
    cases h
    exact ⟨by decide, decompressSections_zero cs _ _ _ _⟩
  | some b =>
    exact ⟨compressSections_delInd_lt h, decompressSections_compressSections (hok b rfl) h⟩

/-- The window header written is one the decoder reads back. -/
theorem recodedHeader_valid {ε : Type} {wh : WindowHeader} (hwh : wh.Valid) {delInd : UInt8}
    (hdel : delInd.toNat < 8) {data inst addr : List UInt8} {encLen : Nat}
    (henc : ((recodedHeader wh delInd data inst addr).computeEncLen : Result ε Nat) = .ok encLen) :
    { recodedHeader wh delInd data inst addr with encLen }.Valid := by
  obtain ⟨rfl, hlt⟩ := WindowHeader.computeEncLen_eq_ok henc
  -- each length is part of the sum `enc_len` counts
  have hlens : data.length < 2 ^ 64 ∧ inst.length < 2 ^ 64 ∧ addr.length < 2 ^ 64 := by
    simp only [WindowHeader.encLenSum, recodedHeader] at hlt
    omega
  exact
    { winInd_lt := hwh.winInd_lt
      not_both := hwh.not_both
      no_copy := hwh.no_copy
      target_le := hwh.target_le
      adler_iff := hwh.adler_iff
      adler_lt := hwh.adler_lt
      delInd_lt := hdel
      copyWindowLen_lt := hwh.copyWindowLen_lt
      copyWindowOffset_lt := hwh.copyWindowOffset_lt
      encLen_lt := hlt
      dataLen_lt := hlens.1
      instLen_lt := hlens.2.1
      addrLen_lt := hlens.2.2
      encLen_eq := rfl
      encLenSum_lt := hlt }

/-- What a window of `cmd_recode` reads and writes: the window's three stored
sections, the sections they decompress to, and those recompressed after the
new window header. -/
theorem recodeWindow_eq_ok {windowNum : Nat} {wh : WindowHeader} {reader bytes rest : List UInt8}
    (h : recodeWindow cs newSecondary sid windowNum wh reader = .ok (bytes, rest)) :
    ∃ data inst addr rawData rawInst rawAddr data' inst' addr' delInd encLen,
      reader = data ++ inst ++ addr ++ rest ∧ wh.dataLen = data.length ∧
      wh.instLen = inst.length ∧ wh.addrLen = addr.length ∧
      rawSections cs data inst addr wh.delInd sid = .ok (rawData, rawInst, rawAddr) ∧
      recompressSections newSecondary rawData rawInst rawAddr = .ok (data', inst', addr', delInd) ∧
      ((recodedHeader wh delInd data' inst' addr').computeEncLen : Result RecodeError Nat) =
        .ok encLen ∧
      bytes = { recodedHeader wh delInd data' inst' addr' with encLen }.encode ++ data' ++ inst' ++
        addr' := by
  unfold recodeWindow at h
  obtain ⟨data, r1, hdata, h⟩ := ReadM.bind_eq_ok h
  obtain ⟨inst, r2, hinst, h⟩ := ReadM.bind_eq_ok h
  obtain ⟨addr, r3, haddr, h⟩ := ReadM.bind_eq_ok h
  obtain ⟨⟨rawData, rawInst, rawAddr⟩, r4, hraw, h⟩ := ReadM.bind_eq_ok h
  obtain ⟨⟨data', inst', addr', delInd⟩, r5, hre, h⟩ := ReadM.bind_eq_ok h
  obtain ⟨encLen, r6, henc, h⟩ := ReadM.bind_eq_ok h
  cases h
  obtain ⟨hraw', rfl⟩ := ReadM.ofResult_eq_ok hraw
  obtain ⟨hre', rfl⟩ := ReadM.ofResult_eq_ok hre
  obtain ⟨henc', rfl⟩ := ReadM.ofResult_eq_ok henc
  -- the three reads take the sections off the front of the input, in order
  obtain ⟨hl1, rfl, rfl⟩ := readExact_eq_ok (ReadM.liftErr_eq_ok hdata)
  obtain ⟨hl2, rfl, rfl⟩ := readExact_eq_ok (ReadM.liftErr_eq_ok hinst)
  obtain ⟨hl3, rfl, rfl⟩ := readExact_eq_ok (ReadM.liftErr_eq_ok haddr)
  refine ⟨_, _, _, rawData, rawInst, rawAddr, data', inst', addr', delInd, encLen, ?_,
    ?_, ?_, ?_, lift_eq_ok hraw', lift_eq_ok hre', henc', rfl⟩
  · simp only [List.append_assoc, List.take_append_drop]
  · simp only [List.length_take]; omega
  · simp only [List.length_take]; omega
  · simp only [List.length_take]; omega

/-- **A recoded window decodes as the input's.**  The window `cmd_recode`
writes for a valid input window without a target copy window, whose stored
sections decompress to sections `decode_window_with_cache` turns into `t`, is
one the stream decoder decodes to `t` under the compressor the new file
header names. -/
theorem recodedWindow_decodes (hok : ∀ b, newSecondary = some b → b.Recoverable cs)
    {source : List UInt8} {wh : WindowHeader} (hwh : wh.Valid) (htgt : wh.winInd &&& vcdTarget = 0)
    {rawData rawInst rawAddr data inst addr t : List UInt8} {delInd : UInt8} {encLen : Nat}
    (hre : recompressSections newSecondary rawData rawInst rawAddr = .ok (data, inst, addr, delInd))
    (henc : ((recodedHeader wh delInd data inst addr).computeEncLen : Result RecodeError Nat) =
      .ok encLen)
    (hwin : ∀ verify output, ∃ acache, decodeWindowWithCache wh rawData rawInst rawAddr source verify
      output AddressCache.new = .ok (output ++ t, acache)) :
    WindowDecodes cs (newSecondary.map CompressBackend.id) source
      ({ recodedHeader wh delInd data inst addr with encLen }.encode ++ data ++ inst ++ addr) t := by
  obtain ⟨hdel, hsec⟩ := recompressSections_decodes hok hre
  refine windowDecodes_of_sections cs (recodedHeader_valid hwh hdel henc) htgt rfl rfl rfl hsec
    (fun verify output => ?_)
  -- the new header differs from the input's only in fields the window's decoding does not read
  obtain ⟨acache, hdec⟩ := hwin verify output
  exact ⟨acache, (decodeWindowWithCache_header _ _ _ _ _ _ _ rfl rfl rfl rfl).trans hdec⟩

end Window

/-! ## The decoder on the input -/

section Decoder

variable {cs : Codecs} {source : List UInt8}

/-- A window the decoder reads: its header, its three stored sections, the
sections they decompress to under the file header's compressor, and
`decode_window_with_cache` on those. -/
theorem decodeWindow_of_sections {d : StreamDecoder} {output : List UInt8} {fh : FileHeader}
    {w : WindowHeader} {data inst addr rawData rawInst rawAddr rest : List UInt8}
    (hd : d.fileHeader = some fh)
    (hwh : WindowHeader.decode d.reader = .ok (some w, data ++ inst ++ addr ++ rest))
    (htgt : w.winInd &&& vcdTarget = 0) (hdata : w.dataLen = data.length)
    (hinst : w.instLen = inst.length) (haddr : w.addrLen = addr.length)
    (hsec : decompressSections cs data inst addr w.delInd d.secondaryId =
      .ok (rawData, rawInst, rawAddr)) :
    d.decodeWindow cs source output =
      (fun r => (true, { d with reader := rest, acache := r.2 }, r.1)) <$>
        decodeWindowWithCache w rawData rawInst rawAddr source d.verifyChecksum output d.acache := by
  unfold StreamDecoder.decodeWindow
  simp only [hd, StreamDecoder.read_of_ok hwh, bind_ok', pure, Except.pure]
  simp only [htgt, ne_eq, not_true_eq_false, if_false, List.append_assoc]
  rw [hdata, StreamDecoder.read_of_ok (readExact_append _ _)]
  simp only [bind_ok']
  rw [hinst, StreamDecoder.read_of_ok (readExact_append _ _)]
  simp only [bind_ok']
  rw [haddr, StreamDecoder.read_of_ok (readExact_append _ _)]
  simp only [bind_ok']
  by_cases hdel : w.delInd = 0
  · -- stored sections are decoded as they are
    rw [hdel, decompressSections_zero] at hsec
    cases hsec
    rw [if_neg (not_not.2 hdel)]
    cases decodeWindowWithCache w data inst addr source d.verifyChecksum output d.acache <;> rfl
  · rw [if_pos hdel, hsec]
    simp only [lift, bind_ok']
    cases decodeWindowWithCache w rawData rawInst rawAddr source d.verifyChecksum output d.acache <;> rfl

/-- Where no window header is left, the decoder stops with the output as it
was. -/
theorem decodeWindow_of_none {d : StreamDecoder} {output : List UInt8} {fh : FileHeader}
    {rest : List UInt8} (hd : d.fileHeader = some fh)
    (hwh : WindowHeader.decode d.reader = .ok (none, rest)) :
    d.decodeWindow cs source output = .ok (false, { d with reader := rest }, output) := by
  unfold StreamDecoder.decodeWindow
  simp only [hd, StreamDecoder.read_of_ok hwh, bind_ok', pure, Except.pure]

/-- The decoder rejects a window with a target copy window. -/
theorem decodeWindow_of_target {d : StreamDecoder} {output : List UInt8} {fh : FileHeader}
    {w : WindowHeader} {rest : List UInt8} (hd : d.fileHeader = some fh)
    (hwh : WindowHeader.decode d.reader = .ok (some w, rest)) (htgt : w.winInd &&& vcdTarget ≠ 0) :
    d.decodeWindow cs source output = fail (.unsupported "VCD_TARGET not supported") := by
  unfold StreamDecoder.decodeWindow
  simp only [hd, StreamDecoder.read_of_ok hwh, bind_ok', pure, Except.pure, htgt, ne_eq,
    not_false_eq_true, if_true]

/-- **A window decoded once decodes anywhere.**  A window that
`decode_window_with_cache` decodes after some output, its checksum verified
and with a cache of the default sizes, appends the same bytes after any
output, verified or not, with a new cache. -/
theorem decodeWindowWithCache_anywhere {w : WindowHeader} {data inst addr output output' : List UInt8}
    {acache acache' : AddressCache} (hinit : acache.init = AddressCache.new)
    (h : decodeWindowWithCache w data inst addr source true output acache = .ok (output', acache')) :
    ∃ t, output' = output ++ t ∧ ∀ verify out, ∃ acache'', decodeWindowWithCache w data inst addr
      source verify out AddressCache.new = .ok (out ++ t, acache'') := by
  -- the bytes it appends are those it decodes into an empty output
  have hshift := decodeWindowWithCache_shift output w data inst addr source true [] acache
  rw [List.append_nil, h] at hshift
  cases h0 : decodeWindowWithCache w data inst addr source true [] acache with
  | error e => rw [h0] at hshift; cases hshift
  | ok r =>
    rw [h0] at hshift
    cases hshift
    refine ⟨r.1, rfl, fun verify out => ⟨r.2, ?_⟩⟩
    have hnew := decodeWindowWithCache_verify verify h0
    rw [@decodeWindowWithCache_of_init w data inst addr source [] verify acache AddressCache.new
      (by rw [hinit]; rfl)] at hnew
    have hout := decodeWindowWithCache_shift out w data inst addr source verify [] AddressCache.new
    rw [List.append_nil, hnew] at hout
    exact hout

end Decoder

/-! ## The window loop -/

section Loop

variable {cs : Codecs} {newSecondary : Option CompressBackend} {sid : Option UInt8}
  {source : List UInt8}

/-- The decoder on the input alongside `cmd_recode`: at the same place of the
input, past a file header naming the same compressor, verifying checksums,
with a cache of the default sizes. -/
structure Follows (sid : Option UInt8) (s : RecodeState) (d : StreamDecoder) : Prop where
  fileHeader : d.fileHeader.isSome
  secondaryId : d.secondaryId = sid
  verify : d.verifyChecksum = true
  acache : d.acache.init = AddressCache.new
  reader : d.reader = s.reader

/-- What an iteration of `cmd_recode`'s loop that goes on did: it read a
window header and recoded the window after it. -/
theorem recodeBody_eq_next {s s' : RecodeState} (h : recodeBody cs newSecondary sid s = .next s') :
    ∃ wh reader bytes, WindowHeader.decode s.reader = .ok (some wh, reader) ∧
      recodeWindow cs newSecondary sid s.windowNum wh reader = .ok (bytes, s'.reader) ∧
      s'.out = s.out ++ bytes := by
  unfold recodeBody at h
  split at h
  · cases h
  · cases h
  · next wh reader hwh =>
    split at h
    · cases h
    · next bytes reader' hwin =>
      cases h
      exact ⟨wh, reader, bytes, ReadM.liftErr_eq_ok hwh, hwin, rfl⟩

/-- An iteration that ends the loop without an error found no window header. -/
theorem recodeBody_eq_done {s s' : RecodeState}
    (h : recodeBody cs newSecondary sid s = .done (.ok s')) :
    WindowHeader.decode s.reader = .ok (none, s'.reader) ∧ s'.out = s.out := by
  unfold recodeBody at h
  split at h
  · cases h
  · next reader hwh => cases h; exact ⟨ReadM.liftErr_eq_ok hwh, rfl⟩
  · split at h <;> cases h

/-- **One window.**  Where `cmd_recode` recodes a window and the decoder
alongside it on the input decodes one, the decoder stays alongside, and the
bytes written are a window that decodes to the bytes the input's window
appended. -/
theorem recodeBody_next (hok : ∀ b, newSecondary = some b → b.Recoverable cs)
    {s s' : RecodeState} {d d' : StreamDecoder} {o o' : List UInt8} {more : Bool}
    (hs : recodeBody cs newSecondary sid s = .next s') (hf : Follows sid s d)
    (hd : d.decodeWindow cs source o = .ok (more, d', o')) :
    more = true ∧ Follows sid s' d' ∧ ∃ bytes t, s'.out = s.out ++ bytes ∧ o' = o ++ t ∧
      bytes ≠ [] ∧ WindowDecodes cs (newSecondary.map CompressBackend.id) source bytes t := by
  obtain ⟨wh, reader, bytes, hwh, hwin, hout⟩ := recodeBody_eq_next hs
  obtain ⟨data, inst, addr, rawData, rawInst, rawAddr, data', inst', addr', delInd, encLen,
    rfl, hdata, hinst, haddr, hraw, hre, henc, rfl⟩ := recodeWindow_eq_ok hwin
  obtain ⟨fh, hfh⟩ := Option.isSome_iff_exists.1 hf.fileHeader
  rw [← hf.reader] at hwh
  -- the decoder accepts no target copy window
  have htgt : wh.winInd &&& vcdTarget = 0 := by
    by_contra htgt
    rw [decodeWindow_of_target hfh hwh htgt] at hd
    cases hd
  rw [rawSections_eq, ← hf.secondaryId] at hraw
  rw [decodeWindow_of_sections hfh hwh htgt hdata hinst haddr hraw, hf.verify] at hd
  cases hwd : decodeWindowWithCache wh rawData rawInst rawAddr source true o d.acache with
  | error e => rw [hwd] at hd; cases hd
  | ok r =>
    rw [hwd] at hd
    cases hd
    obtain ⟨t, ht, hany⟩ := decodeWindowWithCache_anywhere hf.acache hwd
    refine ⟨rfl, ⟨hf.fileHeader, hf.secondaryId, rfl, ?_, rfl⟩, _, t, hout, ht, ?_,
      recodedWindow_decodes hok (WindowHeader.decode_valid hwh) htgt hre henc hany⟩
    · rw [decodeWindowWithCache_init hwd, hf.acache]
    · simp [WindowHeader.encode]

/-- **The whole loop.**  When `cmd_recode`'s loop ends and the decoder
alongside it decodes the rest of the input to `t`, the bytes the loop wrote
are windows whose targets make up what `t` adds to the decoder's output. -/
theorem recodeRun_decodes (hok : ∀ b, newSecondary = some b → b.Recoverable cs) :
    ∀ (n : Nat) (s s' : RecodeState) (d : StreamDecoder) (o : List UInt8) (m : Nat)
      (d' : StreamDecoder) (t : List UInt8),
      Loop.run (recodeBody cs newSecondary sid) n s = some (.ok s') → Follows sid s d →
      Loop.run (decodeAllBody cs source) m (d, o) = some (.ok (d', t)) →
      ∃ ws : List (List UInt8 × List UInt8), s'.out = s.out ++ (ws.map Prod.fst).flatten ∧
        t = o ++ (ws.map Prod.snd).flatten ∧
        ∀ w ∈ ws, WindowDecodes cs (newSecondary.map CompressBackend.id) source w.1 w.2 ∧
          w.1 ≠ [] := by
  intro n
  induction n with
  | zero => intro s s' d o m d' t h; cases h
  | succ n ih =>
    intro s s' d o m d' t hrun hf hdec
    obtain ⟨fh, hfh⟩ := Option.isSome_iff_exists.1 hf.fileHeader
    -- the decoder's loop went round at least once
    obtain ⟨m, rfl⟩ : ∃ m', m = m' + 1 := by
      cases m with
      | zero => cases hdec
      | succ m => exact ⟨m, rfl⟩
    cases hb : recodeBody cs newSecondary sid s with
    | done r =>
      -- no window header is left, for the decoder either
      rw [Loop.run_of_done n hb] at hrun
      cases hrun
      obtain ⟨hwh, hout⟩ := recodeBody_eq_done hb
      rw [← hf.reader] at hwh
      have hend : decodeAllBody cs source (d, o) = .done (.ok ({ d with reader := s'.reader }, o)) := by
        simp [decodeAllBody, decodeWindow_of_none hfh hwh]
      rw [Loop.run_of_done m hend] at hdec
      cases hdec
      exact ⟨[], by simp [hout], by simp, by simp⟩
    | next s1 =>
      rw [Loop.run_of_next n hb] at hrun
      cases hdw : d.decodeWindow cs source o with
      | error e =>
        have hstop : decodeAllBody cs source (d, o) = .done (.error e) := by
          simp [decodeAllBody, hdw]
        rw [Loop.run_of_done m hstop] at hdec
        cases hdec
      | ok res =>
        obtain ⟨more, d1, o1⟩ := res
        obtain ⟨rfl, hf1, bytes, t1, hout, ho, hne, hwin⟩ := recodeBody_next hok hb hf hdw
        have hgo : decodeAllBody cs source (d, o) = .next (d1, o1) := by
          simp [decodeAllBody, hdw]
        rw [Loop.run_of_next m hgo] at hdec
        obtain ⟨ws, hws, hts, hall⟩ := ih s1 s' d1 o1 m d' t hrun hf1 hdec
        refine ⟨(bytes, t1) :: ws, ?_, ?_, ?_⟩
        · rw [hws, hout]
          simp
        · rw [hts, ho]
          simp
        · intro w hw
          rcases List.mem_cons.1 hw with rfl | hw
          · exact ⟨hwin, hne⟩
          · exact hall w hw

end Loop

/-! ## The whole delta -/

/-- A delta that decodes is one whose `decode_all` loop ended with the target. -/
theorem decodeMemory_eq_ok {cs : Codecs} {delta source target : List UInt8}
    (h : decodeMemory cs delta source = .ok target) :
    ∃ d', Loop.run (decodeAllBody cs source) (delta.length + 2) (StreamDecoder.new delta true, []) =
      some (.ok (d', target)) := by
  unfold decodeMemory StreamDecoder.decodeAll at h
  split at h
  · next d' o hr =>
    cases h
    split at hr
    · cases hr
    · next r hrun => exact ⟨d', hrun.trans (congrArg some hr)⟩
  · cases h

/-- **Recoding keeps the target.**  When `cmd_recode` succeeds on a delta that
decodes against a source, the delta it writes decodes against that source to
the same target; the new compressor, if any, must be one the decoder finds
again and whose compression it undoes, and an application header given on
the command line must fit a `u64` length. -/
theorem cmdRecode_decodes (cs : Codecs) (secondary : SecondaryCompression) (useAppheader : Bool)
    (appheader : Option (List UInt8)) (hok : ∀ b, secondary.backend cs = some b → b.Recoverable cs)
    (happ : ∀ ah, appheader = some ah → ah.length < 2 ^ 64) {input output : List UInt8}
    (hrec : cmdRecode cs secondary useAppheader appheader input = .ok output)
    {source target : List UInt8} (hdec : decodeMemory cs input source = .ok target) :
    decodeMemory cs output source = .ok target := by
  unfold cmdRecode at hrec
  obtain ⟨⟨inHdr, reader⟩, hhdr, hrec⟩ := bind_eq_ok hrec
  have hhdr := ReadM.liftErr_eq_ok hhdr
  dsimp only at hrec
  split at hrec
  · cases hrec
  · next r hrun =>
    obtain ⟨s', rfl, rfl⟩ : ∃ s', r = .ok s' ∧ output = s'.out := by
      cases r with
      | error e => cases hrec
      | ok s' => cases hrec; exact ⟨s', rfl, rfl⟩
    -- the decoder on the input reads the same file header, then goes on alongside the loop
    obtain ⟨d', hdec⟩ := decodeMemory_eq_ok hdec
    have hfirst := StreamDecoder.decodeWindow_first cs source (d := StreamDecoder.new input true) []
      rfl hhdr
    have hbody : decodeAllBody cs source (StreamDecoder.new input true, []) =
        decodeAllBody cs source ({ StreamDecoder.new input true with
          reader, secondaryId := inHdr.secondaryId, fileHeader := some inHdr }, []) := by
      simp only [decodeAllBody, hfirst]
    rw [Loop.run_of_body_eq hbody] at hdec
    obtain ⟨ws, hws, hts, hall⟩ := recodeRun_decodes hok _ _ s' _ [] _ d' target hrun
      ⟨rfl, rfl, rfl, rfl, rfl⟩ hdec
    rw [hws, hts, List.nil_append]
    exact decodeMemory_windows cs source _ (recodeFileHeader_valid _ _ happ (FileHeader.decode_valid hhdr))
      ws (fun w hw => by rw [recodeFileHeader_secondaryId]; exact (hall w hw).1) fun w hw => (hall w hw).2

/-- A window whose data section was stored under the LZMA flag (with codecs
that leave bytes as they are), recoded without secondary compression. -/
theorem cmdRecode_decodes_unpacked :
    decodeMemory ⟨Except.ok, Except.ok, fun _ => Except.ok, Except.ok⟩
      [0xD6, 0xC3, 0xC4, 0x00, 0x00, 0x00, 0x09, 0x03, 0x00, 0x03, 0x01, 0x00, 7, 8, 9, 0x04] [] =
      .ok [7, 8, 9] :=
  @cmdRecode_decodes _ .none false none (fun _ h => by cases h) (fun _ h => by cases h)
    [0xD6, 0xC3, 0xC4, 0x00, 0x01, 0x02, 0x00, 0x09, 0x03, 0x01, 0x03, 0x01, 0x00, 7, 8, 9, 0x04] _
    (by decide +kernel) _ _ (by decide +kernel)

/-! ## `cmd_merge` -/

/-- Why `cmd_merge` stops once its files are read: it prints the error after
`oxidelta: ` and returns `1`.  `DeltaEncoder::new` does not fail; the model's
can only panic, which passes through as the encoder's error would. -/
inductive MergeError where
  /-- `merge requires at least 2 patches (-m file1 ... fileN)` -/
  | tooFewPatches
  /-- `merge: patch {i + 1}: {path}: {e}` -/
  | patch (index : Nat) (e : DecodeError)
  /-- `merge: encode error: {e}` -/
  | encode (e : EncodeError)
  /-- `merge: encode finish error: {e}` -/
  | encodeFinish (e : EncodeError)
  deriving DecidableEq

/-- One turn of `cmd_merge`'s apply chain: the `i`-th patch decoded against
the source file's bytes when it is the first (against the empty `current`
when there is no source file), else against what the patch before rebuilt. -/
def mergeChainStep (cs : Codecs) (sourceFile : Option (List UInt8)) (current : List UInt8)
    (patch : List UInt8 × Nat) : Result MergeError (List UInt8) :=
  let sourceForDecode := if patch.2 = 0 then sourceFile.getD current else current
  mapErr (MergeError.patch (patch.2 + 1)) (decodeMemory cs patch.1 sourceForDecode)

/-- `cmd_merge` once its files are read: the patches (the `-m` files, then
the input) applied in turn, and the final target encoded against the
original source.  The options are the ones `build_compress_options` builds. -/
def cmdMerge (cs : Codecs) (opts : CompressOptions) (sourceFile : Option (List UInt8))
    (patches : List (List UInt8)) : Result MergeError (List UInt8) :=
  if patches.length < 2 then fail .tooFewPatches
  else do
    let finalTarget ← patches.zipIdx.foldlM (mergeChainStep cs sourceFile) []
    let originalSource := sourceFile.getD []
    let encoder ← mapErr MergeError.encode (DeltaEncoder.new cs originalSource opts)
    let encoder ← mapErr MergeError.encode (encoder.writeTarget cs finalTarget)
    let (deltaOutput, _) ← mapErr MergeError.encodeFinish (encoder.finish cs)
    pure deltaOutput

/-- What a merged delta should rebuild: the patches applied in turn to the
source. -/
def applyPatches (cs : Codecs) (source : List UInt8) (patches : List (List UInt8)) :
    Result DecodeError (List UInt8) :=
  patches.foldlM (fun current patch => decodeMemory cs patch current) source

/-- Past the first patch, the apply chain is `applyPatches`: it succeeds
exactly when that does, with the same target. -/
theorem mergeChain_eq_ok (cs : Codecs) (sourceFile : Option (List UInt8)) :
    ∀ (patches : List (List UInt8)) (k : Nat) (current target : List UInt8), 0 < k →
      ((patches.zipIdx k).foldlM (mergeChainStep cs sourceFile) current = .ok target ↔
        applyPatches cs current patches = .ok target) := by
  intro patches
  induction patches with
  | nil => intro k current target _; simp [applyPatches, pure, Except.pure]
  | cons p ps ih =>
    intro k current target hk
    have hstep : mergeChainStep cs sourceFile current (p, k) =
        mapErr (MergeError.patch (k + 1)) (decodeMemory cs p current) := by
      simp [mergeChainStep, Nat.pos_iff_ne_zero.1 hk]
    simp only [List.zipIdx_cons, List.foldlM_cons, applyPatches, hstep]
    cases hp : decodeMemory cs p current with
    | error e =>
      -- a patch that fails stops both chains
      cases e <;> simp [mapErr]
    | ok c => exact ih (k + 1) c target (Nat.succ_pos k)

/-- **`cmd_merge` applies the chain.**  The patches `cmd_merge` applies, from
the source file's bytes (or from nothing), rebuild what `applyPatches`
rebuilds, and fail exactly when it fails. -/
theorem cmdMerge_chain (cs : Codecs) (sourceFile : Option (List UInt8)) (p : List UInt8)
    (ps : List (List UInt8)) (target : List UInt8) :
    (p :: ps).zipIdx.foldlM (mergeChainStep cs sourceFile) [] = .ok target ↔
      applyPatches cs (sourceFile.getD []) (p :: ps) = .ok target := by
  have hfirst : mergeChainStep cs sourceFile [] (p, 0) =
      mapErr (MergeError.patch 1) (decodeMemory cs p (sourceFile.getD [])) := rfl
  simp only [List.zipIdx_cons, List.foldlM_cons, applyPatches, hfirst]
  cases hp : decodeMemory cs p (sourceFile.getD []) with
  | error e => cases e <;> simp [mapErr]
  | ok c => exact mergeChain_eq_ok cs sourceFile ps 1 c target Nat.one_pos

/-- **Merging keeps the target.**  At level 0, with a window size from one
byte to the hard limit and no secondary compression or one whose compression
does not fail and the decoder undoes, when the patches applied in turn to the
source file's bytes rebuild a target, `cmd_merge` succeeds and writes one
delta that rebuilds that target from the source file's bytes. -/
theorem cmdMerge_decodes (cs : Codecs) (opts : CompressOptions) (hlevel : opts.level = 0)
    (hok : opts.SecondaryOk cs) (hw : 0 < opts.windowSize) (hmax : opts.windowSize ≤ hardMaxWinsize)
    (sourceFile : Option (List UInt8)) (hS : (sourceFile.getD []).length < 2 ^ 63)
    {patches : List (List UInt8)} (hlen : 2 ≤ patches.length) {target : List UInt8}
    (happly : applyPatches cs (sourceFile.getD []) patches = .ok target) (hT : target.length < 2 ^ 63) :
    ∃ merged, cmdMerge cs opts sourceFile patches = .ok merged ∧
      decodeMemory cs merged (sourceFile.getD []) = .ok target := by
  obtain ⟨enc, hnew, -⟩ := DeltaEncoder.new_level0 cs (sourceFile.getD []) hlevel
  obtain ⟨delta, n, henc, hdec⟩ := DeltaEncoder.writeTarget_finish_level0 cs hlevel hok hw hmax hS hT hnew
  obtain ⟨enc', hwrite, hfinish⟩ := bind_eq_ok henc
  refine ⟨delta, ?_, hdec⟩
  obtain ⟨p, ps, rfl⟩ : ∃ p ps, patches = p :: ps := List.exists_cons_of_length_pos (by omega)
  unfold cmdMerge
  rw [if_neg (by omega), (cmdMerge_chain cs sourceFile p ps target).2 happly, bind_ok']
  dsimp only
  rw [hnew, mapErr_ok, bind_ok', hwrite, mapErr_ok, bind_ok', hfinish, mapErr_ok, bind_ok']
  rfl

/-- Two patches without secondary compression: the first adds `5`, the
second copies it from its source and adds `6`. -/
theorem cmdMerge_decodes_copy :
    ∃ merged, cmdMerge ⟨Except.ok, Except.ok, fun _ => Except.ok, Except.ok⟩ ⟨0, 64, true, .none⟩ none
        [[0xD6, 0xC3, 0xC4, 0x00, 0x00, 0x00, 0x07, 0x01, 0x00, 0x01, 0x01, 0x00, 0x05, 0x02],
         [0xD6, 0xC3, 0xC4, 0x00, 0x00, 0x01, 0x01, 0x00, 0x0A, 0x02, 0x00, 0x01, 0x03, 0x01, 0x06,
          0x13, 0x01, 0x02, 0x00]] = .ok merged ∧
      decodeMemory ⟨Except.ok, Except.ok, fun _ => Except.ok, Except.ok⟩ merged [] = .ok [5, 6] :=
  cmdMerge_decodes _ _ rfl (CompressOptions.secondaryOk_none rfl) (by decide) (by decide) none
    (by decide) (by decide) (by decide +kernel) (by decide)

end Oxidelta.Cli
