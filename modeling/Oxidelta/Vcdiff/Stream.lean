import Oxidelta.Vcdiff.RoundTrip
import Oxidelta.Vcdiff.Replay

/-!
# Streams of windows

A delta is the file header followed by windows, and `decode_all` decodes them
one after the other, each appending its target to the output.  The windows
share nothing but the address cache, which every window resets to the sizes
the stream started with (`windowInit`), so a window decodes alike wherever it
stands in the stream.

* `WindowDecodes` — a window that the stream decoder, positioned on it,
  decodes to a given target appended to its output;
* `assemble_decodes` — a window `assemble` writes is one, its sections stored
  as they are or compressed by the compressor the file header names, when
  `decode_window_with_cache` turns the sections into the target;
* `feedAll_decodes` — which it does for the sections the window encoder
  writes for a well-formed program, under any such header;
* `window_decodes` — every window the window encoder writes for a well-formed
  program (with or without a checksum) is one, decoding to the target the
  program builds;
* `emptyWindow_decodes` — and so is the window of an empty target without a
  copy window;
* `decodeMemory_windows` — **the stream**: the file header followed by windows
  that decode on their own decodes to the concatenation of their targets.
-/

namespace Oxidelta.Vcdiff

open Rust CopyProgram

/-- A window decodes alike from every cache of the same sizes. -/
theorem decodeWindowWithCache_of_init {header : WindowHeader} {data inst addr source output : List UInt8}
    {verify : Bool} {acache acache' : AddressCache} (h : acache.init = acache'.init) :
    decodeWindowWithCache header data inst addr source verify output acache =
      decodeWindowWithCache header data inst addr source verify output acache' := by
  simp only [decodeWindowWithCache, windowInit, h]

/-- `bytes` is a window that the stream decoder decodes to `t`: positioned on
it, with a file header read that names the secondary compressor `sid` and a
cache of the default sizes, the decoder appends `t` to any output and moves
past the window, keeping the cache's sizes. -/
def WindowDecodes (cs : Compress.Codecs) (sid : Option UInt8) (source bytes t : List UInt8) : Prop :=
  ∀ (d : StreamDecoder) (output rest : List UInt8), d.fileHeader.isSome → d.secondaryId = sid →
    d.acache.init = AddressCache.new → d.reader = bytes ++ rest →
    ∃ acache : AddressCache, acache.init = AddressCache.new ∧
      d.decodeWindow cs source output = .ok (true, { d with reader := rest, acache }, output ++ t)

/-! ## One window -/

section Window

variable (cs : Compress.Codecs) {sid : Option UInt8} {source : List UInt8}

/-- A window with secondary compression: its header, its three compressed
sections, the sections decompressed under the file header's compressor, and
`decode_window_with_cache` on them. -/
theorem StreamDecoder.decodeWindow_compressed {d : StreamDecoder} {output output' : List UInt8}
    {fh : FileHeader} {w : WindowHeader} {data inst addr data' inst' addr' rest : List UInt8}
    {acache' : AddressCache} (hd : d.fileHeader = some fh)
    (hwh : WindowHeader.decode d.reader = .ok (some w, data' ++ inst' ++ addr' ++ rest))
    (htgt : w.winInd &&& vcdTarget = 0) (hdata : w.dataLen = data'.length)
    (hinst : w.instLen = inst'.length) (haddr : w.addrLen = addr'.length) (hdel : w.delInd ≠ 0)
    (hsec : Compress.decompressSections cs data' inst' addr' w.delInd d.secondaryId = .ok (data, inst, addr))
    (hwin : decodeWindowWithCache w data inst addr source d.verifyChecksum output d.acache =
      .ok (output', acache')) :
    d.decodeWindow cs source output = .ok (true, { d with reader := rest, acache := acache' }, output') := by
  unfold StreamDecoder.decodeWindow
  simp only [hd, StreamDecoder.read_of_ok hwh, bind_ok', pure, Except.pure]
  simp only [htgt, ne_eq, not_true_eq_false, if_false, List.append_assoc]
  rw [hdata, StreamDecoder.read_of_ok (readExact_append _ _)]
  simp only [bind_ok']
  rw [hinst, StreamDecoder.read_of_ok (readExact_append _ _)]
  simp only [bind_ok']
  rw [haddr, StreamDecoder.read_of_ok (readExact_append _ _)]
  simp only [bind_ok', hdel, not_false_eq_true, if_true]
  rw [hsec]
  simp only [lift, bind_ok']
  rw [hwin]
  rfl

/-- A window the decoder accepts decodes as `decode_window_with_cache` does
with a new cache, on the sections that decompressing the stored ones under
the file header's compressor gives (the stored ones themselves when the delta
indicator is zero). -/
theorem windowDecodes_of_sections {w : WindowHeader} {data inst addr data' inst' addr' t : List UInt8}
    (hw : w.Valid) (htgt : w.winInd &&& vcdTarget = 0) (hdata : w.dataLen = data'.length)
    (hinst : w.instLen = inst'.length) (haddr : w.addrLen = addr'.length)
    (hsec : Compress.decompressSections cs data' inst' addr' w.delInd sid = .ok (data, inst, addr))
    (hwin : ∀ verify output, ∃ acache, decodeWindowWithCache w data inst addr source verify output
      AddressCache.new = .ok (output ++ t, acache)) :
    WindowDecodes cs sid source (w.encode ++ data' ++ inst' ++ addr') t := by
  intro d output rest hfh hsid hinit hreader
  obtain ⟨fh, hfh⟩ := Option.isSome_iff_exists.1 hfh
  obtain ⟨acache, hwin⟩ := hwin d.verifyChecksum output
  have hwh : WindowHeader.decode d.reader = .ok (some w, data' ++ inst' ++ addr' ++ rest) := by
    rw [hreader]
    simpa only [List.append_assoc] using WindowHeader.decode_encode w hw (data' ++ inst' ++ addr' ++ rest)
  -- the decoder's cache has the sizes of a new one
  rw [← @decodeWindowWithCache_of_init w data inst addr source output d.verifyChecksum d.acache
    AddressCache.new (by rw [hinit]; rfl)] at hwin
  refine ⟨acache, by rw [decodeWindowWithCache_init hwin, hinit], ?_⟩
  by_cases hdel : w.delInd = 0
  · -- the sections were stored as they are
    rw [hdel, Compress.decompressSections_zero] at hsec
    obtain ⟨rfl, rfl, rfl⟩ : data' = data ∧ inst' = inst ∧ addr' = addr := by
      simpa only [Except.ok.injEq, Prod.mk.injEq] using hsec
    exact StreamDecoder.decodeWindow_window cs source hfh hwh htgt hdata hinst haddr hdel hwin
  · rw [← hsid] at hsec
    exact StreamDecoder.decodeWindow_compressed cs hfh hwh htgt hdata hinst haddr hdel hsec hwin

theorem WindowHeader.encLenSum_le (w : WindowHeader) :
    w.encLenSum ≤ sizeofU64 w.targetWindowLen + 1 + sizeofU64 w.dataLen + sizeofU64 w.instLen +
      sizeofU64 w.addrLen + w.dataLen + w.instLen + w.addrLen + 4 := by
  unfold WindowHeader.encLenSum
  split <;> omega

/-- Sections below `2^63` bytes leave room in the header `assemble` writes
for its `enc_len`, whatever the delta indicator. -/
theorem WindowSections.encLenSum_lt (s : WindowSections) (delInd : UInt8)
    (hlen : s.dataSection.length + s.instSection.length + s.addrSection.length < 2 ^ 63) :
    (s.header delInd).encLenSum < 2 ^ 64 := by
  have hle := WindowHeader.encLenSum_le (s.header delInd)
  have h1 := sizeofU64_le (s.header delInd).targetWindowLen
  have h2 := sizeofU64_le (s.header delInd).dataLen
  have h3 := sizeofU64_le (s.header delInd).instLen
  have h4 := sizeofU64_le (s.header delInd).addrLen
  have hsec : (s.header delInd).dataLen + (s.header delInd).instLen + (s.header delInd).addrLen =
      s.dataSection.length + s.instSection.length + s.addrSection.length := rfl
  omega

/-- The sections of a program of fewer than `2^32` bytes take at most
seventeen bytes per target byte: its added bytes, at most six instruction
bytes and ten address bytes per operation, and every operation has a byte. -/
theorem feedAll_sections_length_le (sw : Option SourceWindow) (ck : Bool) {ops : List (Op UInt8)}
    (target : Option (List UInt8)) (hwf : WellFormed ((sw.map (·.len)).getD 0) 0 ops)
    (htotal : (ops.map Op.size).sum < 2 ^ 32)
    (hbound : (sw.map (·.len)).getD 0 + (ops.map Op.size).sum < 2 ^ 64) {S : WindowSections}
    (hS : ((WindowEncoder.new sw ck).feedAll ops).finishSections target = S) :
    S.dataSection.length + S.instSection.length + S.addrSection.length ≤ 17 * (ops.map Op.size).sum := by
  rw [← hS, WindowEncoder.finishSections_feedAll sw ck ops hwf.size_pos target]
  have hvalid := encodeHalves_info_valid (rfl : AddressCache.new.modeCount = 9) hwf htotal
    (by rw [Nat.zero_add]; exact hbound)
  rw [Nat.add_zero] at hvalid
  have hinfos := packUnits_infos ((encodeHalves AddressCache.new ((sw.map (·.len)).getD 0) ops).map Half.info) none
  rw [pendingInfos, List.nil_append] at hinfos
  have hdata := flatMap_data_length_le (rfl : AddressCache.new.modeCount = 9) hwf htotal
    (by rw [Nat.zero_add]; exact hbound)
  have haddr := flatMap_addr_length_le (rfl : AddressCache.new.modeCount = 9) hwf htotal
    (by rw [Nat.zero_add]; exact hbound)
  rw [Nat.add_zero] at hdata haddr
  have hinst := unitBytes_length_le
    (packUnits none ((encodeHalves AddressCache.new ((sw.map (·.len)).getD 0) ops).map Half.info))
    (fun u hu i hi => (hvalid i (hinfos ▸ List.mem_flatMap.2 ⟨u, hu, hi⟩)).2.2)
  rw [hinfos, List.length_map, ← List.length_map Half.op, encodeHalves_map_op] at hinst
  have hlen : ops.length ≤ (ops.map Op.size).sum := by
    have := List.length_le_sum_of_one_le (ops.map Op.size) fun n hn => by
      obtain ⟨op, hop, rfl⟩ := List.mem_map.1 hn
      exact hwf.size_pos op hop
    rwa [List.length_map] at this
  dsimp only
  omega

/-- **An assembled window decodes.**  Let the stored sections be sections
that, under a delta indicator of defined bits, decompress to those of a window
that `decode_window_with_cache` turns into `t`.  Then `assemble` writes, for a
target within the hard window limit and stored sections below `2^63` bytes, a
window that decodes to `t` wherever it stands in a stream. -/
theorem assemble_decodes {ε : Type} (S : WindowSections) (delInd : UInt8) {data inst addr t : List UInt8}
    (hdel : delInd.toNat < 8) (htgt : S.targetLen ≤ hardMaxWinsize)
    (hck : ∀ c, S.checksum = some c → c < 2 ^ 32)
    (hsrc : ∀ sw, S.sourceWindow = some sw → sw.len < 2 ^ 64 ∧ sw.offset < 2 ^ 64)
    (hlen : data.length + inst.length + addr.length < 2 ^ 63)
    (hsec : Compress.decompressSections cs data inst addr delInd sid =
      .ok (S.dataSection, S.instSection, S.addrSection))
    (hwin : ∀ verify output, ∃ acache, decodeWindowWithCache
      ({ S with dataSection := data, instSection := inst, addrSection := addr }.assembledHeader delInd)
      S.dataSection S.instSection S.addrSection source verify output AddressCache.new =
        .ok (output ++ t, acache)) :
    ∃ bytes, ({ S with dataSection := data, instSection := inst, addrSection := addr }.assemble delInd :
        Result ε (List UInt8)) = .ok bytes ∧ bytes ≠ [] ∧ WindowDecodes cs sid source bytes t := by
  have hsum := WindowSections.encLenSum_lt
    { S with dataSection := data, instSection := inst, addrSection := addr } delInd hlen
  have hheader := WindowSections.assembledHeader_valid
    { S with dataSection := data, instSection := inst, addrSection := addr } delInd hdel htgt hck hsrc hsum
  refine ⟨_, WindowSections.assemble_eq _ delInd hsum, by simp [WindowHeader.encode], ?_⟩
  exact windowDecodes_of_sections cs hheader (WindowSections.header_winInd _ delInd).2.2.1 rfl rfl rfl
    hsec hwin

/-- **The sections of a program decode to its target.**  For a well-formed
program against the source, the sections the window encoder writes for it,
with or without a checksum, are run by `decode_window_with_cache` under the
header `assemble` writes for them, stored as they are or compressed, to the
target the program builds. -/
theorem feedAll_decodes (ck : Bool) {ops : List (Op UInt8)} (hwf : WellFormed source.length 0 ops)
    (htotal : (ops.map Op.size).sum < 2 ^ 32) (hbound : source.length + (ops.map Op.size).sum < 2 ^ 64)
    {S : WindowSections} (hS : ((WindowEncoder.new (sourceWindowOf source) ck).feedAll ops).finishSections
      (some (exec source ops)) = S) (data inst addr : List UInt8) (delInd : UInt8)
    (verify : Bool) (output : List UInt8) :
    ∃ acache, decodeWindowWithCache
      ({ S with dataSection := data, instSection := inst, addrSection := addr }.assembledHeader delInd)
      S.dataSection S.instSection S.addrSection source verify output AddressCache.new =
        .ok (output ++ exec source ops, acache) := by
  have hsec := WindowEncoder.finishSections_feedAll (sourceWindowOf source) ck ops hwf.size_pos
    (some (exec source ops))
  rw [hS, sourceWindowOf_len] at hsec
  subst hsec
  have hvalid := encodeHalves_info_valid (rfl : AddressCache.new.modeCount = 9) hwf htotal (by omega)
  rw [Nat.add_zero] at hvalid
  have hinfos := packUnits_infos ((encodeHalves AddressCache.new source.length ops).map Half.info) none
  rw [pendingInfos, List.nil_append] at hinfos
  have hdec := packUnits_decodes _ (fun i hi => ⟨(hvalid i hi).1, (hvalid i hi).2.1⟩) none
    (fun _ h => by cases h)
  -- the header declares the source as copy window, the program's size and its checksum
  refine decodeWindowWithCache_encoded verify output (sourceWindowOf_len source)
    (sourceWindowOf_offset source) hinfos hdec hwf htotal hbound rfl fun c hc => ?_
  replace hc : (if ck then some (adler32 (exec source ops)) else none) = some c := hc
  cases ck <;> simp at hc
  exact hc.symm

/-- **A window of a program decodes to its target.**  For a well-formed
program against a source below `2^63` bytes, of a target within the hard
window limit, the window the window encoder writes, with or without a
checksum, decodes wherever it stands in a stream to the target the program
builds. -/
theorem window_decodes {ε : Type} (ck : Bool) (ops : List (Op UInt8))
    (hwf : WellFormed source.length 0 ops) (hmax : (ops.map Op.size).sum ≤ hardMaxWinsize)
    (hsrc : source.length < 2 ^ 63) :
    ∃ bytes, (((WindowEncoder.new (sourceWindowOf source) ck).feedAll ops).finish
        (some (exec source ops)) : Result ε (List UInt8)) = .ok bytes ∧
      bytes ≠ [] ∧ WindowDecodes cs sid source bytes (exec source ops) := by
  have hmax' : (ops.map Op.size).sum ≤ 2 ^ 24 := hmax
  obtain ⟨S, hS⟩ : ∃ S, ((WindowEncoder.new (sourceWindowOf source) ck).feedAll ops).finishSections
      (some (exec source ops)) = S := ⟨_, rfl⟩
  have hlen := feedAll_sections_length_le (sourceWindowOf source) ck (some (exec source ops))
    (by rw [sourceWindowOf_len]; exact hwf) (by omega) (by rw [sourceWindowOf_len]; omega) hS
  have hmeta := WindowEncoder.finishSections_feedAll (sourceWindowOf source) ck ops hwf.size_pos
    (some (exec source ops))
  rw [hS] at hmeta
  rw [WindowEncoder.finish, hS]
  -- stored as they are, under a zero delta indicator
  refine assemble_decodes cs S 0 (by decide) (by rw [hmeta]; exact hmax) (fun c hc => ?_)
    (fun sw hsw => ?_) (by omega) (Compress.decompressSections_zero ..)
    (feedAll_decodes ck hwf (by omega) (by omega) hS _ _ _ 0)
  · rw [hmeta] at hc
    cases ck <;> simp at hc
    exact hc ▸ adler32_lt _
  · rw [hmeta] at hsw
    unfold sourceWindowOf at hsw
    split at hsw
    · cases hsw
    · cases hsw
      exact ⟨show source.length < 2 ^ 64 by omega, show 0 < 2 ^ 64 by decide⟩

/-- The window of an empty target without a copy window, with or without a
checksum, decodes to nothing against any source. -/
theorem emptyWindow_decodes {ε : Type} (ck : Bool) :
    ∃ bytes, ((WindowEncoder.new none ck).finish (some []) : Result ε (List UInt8)) = .ok bytes ∧
      bytes ≠ [] ∧ WindowDecodes cs sid source bytes [] := by
  obtain ⟨S, hS⟩ : ∃ S, (WindowEncoder.new none ck).finishSections (some []) = S := ⟨_, rfl⟩
  rw [WindowEncoder.finish, hS]
  refine assemble_decodes cs S 0 (by decide) (by rw [← hS]; exact Nat.zero_le _)
    (fun c hc => ?_) (fun sw hsw => ?_) (by rw [← hS]; cases ck <;> decide)
    (Compress.decompressSections_zero ..) fun verify output => ?_
  · rw [← hS] at hc
    cases ck <;> cases hc
    exact adler32_lt _
  · rw [← hS] at hsw
    cases hsw
  -- no opcode to run: the loop stops at once, having written nothing
  show ∃ acache, decodeWindowWithCache (S.assembledHeader 0) S.dataSection S.instSection S.addrSection
    source verify output AddressCache.new = .ok (output ++ [], acache)
  have hrun : Loop.run (windowBody (windowCtx (S.assembledHeader 0) S.dataSection S.instSection
      S.addrSection source output)) (S.instSection.length + 1) (windowInit output AddressCache.new) =
      some (.ok (windowInit output AddressCache.new)) :=
    Loop.run_of_done _ (windowBody_of_drop_eq_nil (by rw [← hS]; rfl))
  refine ⟨(windowInit output AddressCache.new).acache, ?_⟩
  rw [decodeWindowWithCache]
  dsimp only
  rw [hrun]
  rw [← hS]
  cases ck <;> simp [windowInit, windowCtx, WindowSections.assembledHeader, WindowSections.header,
    WindowEncoder.finishSections, WindowEncoder.new, WindowEncoder.flushPending] <;> rfl

end Window

/-! ## The stream encoder -/

namespace StreamEncoder

variable {ε : Type} {s s' : StreamEncoder}

/-- What `finish` returns is what the stream holds once its file header is
written. -/
theorem finish_eq_writeHeader (s : StreamEncoder) : s.finish = s.writeHeader.writer := by
  unfold finish writeHeader
  cases s.headerWritten <;> rfl

theorem writeHeader_headerWritten (s : StreamEncoder) : s.writeHeader.headerWritten = true := by
  unfold writeHeader
  cases h : s.headerWritten <;> simp [h]

@[simp] theorem writeHeader_fileHeader (s : StreamEncoder) : s.writeHeader.fileHeader = s.fileHeader := by
  unfold writeHeader
  split <;> rfl

theorem writeHeader_of_headerWritten (h : s.headerWritten = true) : s.writeHeader = s := by
  simp [writeHeader, h]

/-- A window is written after the file header, which is written once. -/
theorem writeWindow_eq {window : WindowEncoder} {targetData : Option (List UInt8)} {encoded : List UInt8}
    (h : (window.finish targetData : Result ε (List UInt8)) = .ok encoded) :
    (s.writeWindow window targetData : Result ε StreamEncoder) =
      .ok { s.writeHeader with writer := s.writeHeader.writer ++ encoded } := by
  simp [writeWindow, h]

theorem writeHeader_append (s : StreamEncoder) (encoded : List UInt8) :
    ({ s.writeHeader with writer := s.writeHeader.writer ++ encoded } : StreamEncoder).writeHeader.writer =
      s.writeHeader.writer ++ encoded := by
  rw [writeHeader_of_headerWritten (s := { s.writeHeader with writer := s.writeHeader.writer ++ encoded })
    (writeHeader_headerWritten s)]

end StreamEncoder

/-! ## The stream -/

section Stream

variable (cs : Compress.Codecs) (sid : Option UInt8) (source : List UInt8)

/-- **The loop of `decode_all` over a run of windows.**  A decoder past the
file header, on windows each of which decodes on its own, decodes them all in
one iteration each and one more to find the end, appending their targets in
order. -/
theorem decodeAll_windows :
    ∀ (ws : List (List UInt8 × List UInt8)) (d : StreamDecoder) (output : List UInt8),
      (∀ w ∈ ws, WindowDecodes cs sid source w.1 w.2) → d.fileHeader.isSome → d.secondaryId = sid →
      d.acache.init = AddressCache.new → d.reader = (ws.map Prod.fst).flatten →
      ∃ d', Loop.run (decodeAllBody cs source) (ws.length + 1) (d, output) =
        some (.ok (d', output ++ (ws.map Prod.snd).flatten))
  | [], d, output, _, hfh, _, _, hreader => by
    obtain ⟨fh, hfh⟩ := Option.isSome_iff_exists.1 hfh
    have hend := StreamDecoder.decodeWindow_end cs source output hfh hreader
    refine ⟨d, Loop.run_of_done 0 ?_⟩
    simp [decodeAllBody, hend]
  | w :: ws, d, output, hdec, hfh, hsid, hinit, hreader => by
    obtain ⟨acache, hinit', hwin⟩ := hdec w (List.mem_cons_self ..) d output
      (ws.map Prod.fst).flatten hfh hsid hinit hreader
    have hbody : decodeAllBody cs source (d, output) =
        .next ({ d with reader := (ws.map Prod.fst).flatten, acache }, output ++ w.2) := by
      simp [decodeAllBody, hwin]
    obtain ⟨d', hrun⟩ := decodeAll_windows ws { d with reader := (ws.map Prod.fst).flatten, acache }
      (output ++ w.2) (fun w' hw' => hdec w' (List.mem_cons_of_mem _ hw')) hfh hsid hinit' rfl
    refine ⟨d', ?_⟩
    rw [List.length_cons, Loop.run_of_next _ hbody, hrun]
    simp

/-- **The stream round trip.**  `decode_memory` of a file header followed by
non-empty windows, each of which decodes on its own under the secondary
compressor the header names, returns the concatenation of their targets. -/
theorem decodeMemory_windows (fh : FileHeader) (hfh : fh.Valid) (ws : List (List UInt8 × List UInt8))
    (hdec : ∀ w ∈ ws, WindowDecodes cs fh.secondaryId source w.1 w.2) (hne : ∀ w ∈ ws, w.1 ≠ []) :
    decodeMemory cs (fh.encode ++ (ws.map Prod.fst).flatten) source = .ok (ws.map Prod.snd).flatten := by
  -- the first iteration reads the file header, then goes on as a later one
  have hfirst := StreamDecoder.decodeWindow_first cs source
    (d := StreamDecoder.new (fh.encode ++ (ws.map Prod.fst).flatten) true) [] rfl
    (FileHeader.decode_encode _ hfh _)
  have hbody : decodeAllBody cs source (StreamDecoder.new (fh.encode ++ (ws.map Prod.fst).flatten) true, []) =
      decodeAllBody cs source ({ StreamDecoder.new (fh.encode ++ (ws.map Prod.fst).flatten) true with
        reader := (ws.map Prod.fst).flatten, secondaryId := fh.secondaryId, fileHeader := some fh }, []) := by
    simp only [decodeAllBody, hfirst]
  obtain ⟨d', hrun⟩ := decodeAll_windows cs fh.secondaryId source ws
    { StreamDecoder.new (fh.encode ++ (ws.map Prod.fst).flatten) true with
      reader := (ws.map Prod.fst).flatten, secondaryId := fh.secondaryId, fileHeader := some fh } []
    hdec rfl rfl rfl rfl
  -- every window has a byte, so the decoder's bound covers them
  have hlen : ws.length ≤ (ws.map Prod.fst).flatten.length := by
    rw [List.length_flatten]
    have := List.length_le_sum_of_one_le ((ws.map Prod.fst).map List.length) fun n hn => by
      obtain ⟨b, hb, rfl⟩ := List.mem_map.1 hn
      obtain ⟨w, hw, rfl⟩ := List.mem_map.1 hb
      exact List.length_pos_iff.2 (hne w hw)
    simpa using this
  have hfuel := Loop.run_mono hrun (m := (fh.encode ++ (ws.map Prod.fst).flatten).length + 1 + 1)
    (by rw [List.length_append]; omega)
  unfold decodeMemory StreamDecoder.decodeAll
  rw [show (StreamDecoder.new (fh.encode ++ (ws.map Prod.fst).flatten) true).reader.length + 2 =
    (fh.encode ++ (ws.map Prod.fst).flatten).length + 1 + 1 from rfl,
    Loop.run_of_body_eq hbody, hfuel, List.nil_append]

end Stream

end Oxidelta.Vcdiff
