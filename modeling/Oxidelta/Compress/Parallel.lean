import Oxidelta.Compress.RoundTrip

/-!
# Encoding windows independently (`encode_all_parallel`)

With the `parallel` feature, `encode_all_parallel` cuts the target into
chunks of the window size and encodes each chunk on its own, with its own
match engine, then writes the windows in order.  The model maps over the
chunks in order: the windows do not depend on one another, and when several
chunks fail, the error returned is the first one's.

At level 0 a chunk is encoded exactly as `encode_window` encodes it
(`encodeWindow_eq_encodeChunk`), so the windows decode to the chunks and the
delta to the target.

Main results:

* `encodeChunk_level0` — a level-0 chunk is a window that decodes to it;
* `encodeAllParallel_level0_roundtrip` — **level-0 parallel encoding round
  trips**: `decode_memory` rebuilds the target from the delta.
-/

namespace Oxidelta.Compress

open Rust Oxidelta.Vcdiff Oxidelta.Hash Segments

/-! ## The model -/

/-- One chunk of `encode_all_parallel`: its instructions (one ADD at level 0,
otherwise the matches of a new engine through `pipeline::optimize`), emitted
into a new window encoder, and the window assembled, its sections compressed
when there is a secondary compressor. -/
def encodeChunk (cs : Codecs) (source : List UInt8) (opts : CompressOptions) (config : MatcherConfig)
    (sourceWin : Option SourceWindow) (chunk : List UInt8) : Result EncodeError (List UInt8) :=
  (if opts.level = 0 then pure (if chunk = [] then [] else [.add (chunk.length % 2 ^ 32)])
   else
    (if source ≠ [] then (MatchEngine.new config source.length (max chunk.length 64)).indexSource source
     else pure (MatchEngine.new config 0 (max chunk.length 64))) >>= fun engine =>
    engine.findMatches chunk (if source = [] then none else some source) >>= fun r =>
    optimize r.1 chunk) >>= fun instructions =>
  emitInstructions (WindowEncoder.new sourceWin opts.checksum) chunk instructions >>= fun we =>
  match opts.secondary.backend cs with
  | some backend =>
    let sections := we.finishSections (some chunk)
    lift EncodeError.io (compressSections backend sections.dataSection sections.instSection
        sections.addrSection) >>= fun comp =>
      ({ sections with dataSection := comp.1, instSection := comp.2.1, addrSection := comp.2.2.1 } :
        WindowSections).assemble comp.2.2.2
  | none => (we.finishSections (some chunk)).assemble 0

/-- `encode_all_parallel`: the window size capped as `encode_all` caps it, an
empty target handed to `encode_all`, otherwise the chunks encoded and their
windows written to a new stream in order. -/
def encodeAllParallel (cs : Codecs) (source target : List UInt8) (opts : CompressOptions) :
    Result EncodeError (List UInt8) :=
  let opts := if target.length < opts.windowSize then { opts with windowSize := max target.length 64 }
    else opts
  if target = [] then encodeAll cs source target opts
  else
    let windowSize := max opts.windowSize 64
    let config := configForLevel opts.level
    let sourceWin : Option SourceWindow := if source ≠ [] then some ⟨source.length, 0⟩ else none
    (chunks windowSize target).mapM (encodeChunk cs source opts config sourceWin) >>= fun windows =>
    let stream := StreamEncoder.new opts.checksum
    let stream := match opts.secondary.backend cs with
      | some backend => stream.setSecondaryId backend.id
      | none => stream
    pure (windows.foldl StreamEncoder.writeRawWindow stream).finish

/-! ## One chunk -/

/-- **A level-0 chunk is a window of `encode_window`.**  Whatever the matcher
configuration, `encode_chunk` returns the window that `encode_window` writes
to the stream of a core with the same options and source. -/
theorem encodeWindow_eq_encodeChunk (cs : Codecs) {c : EncoderCore} (hlevel : c.opts.level = 0)
    (config : MatcherConfig) (window : List UInt8) :
    c.encodeWindow cs window =
      (fun bytes => { c with stream := c.stream.writeRawWindow bytes, windowsWritten := c.windowsWritten + 1 }) <$>
        encodeChunk cs c.source c.opts config (if c.source ≠ [] then some ⟨c.source.length, 0⟩ else none)
          window := by
  have hadd : (if window = [] then [] else [Instruction.add (window.length % 2 ^ 32)]) = emitAddAll window := by
    cases window <;> rfl
  unfold EncoderCore.encodeWindow encodeChunk
  rw [EncoderCore.instructionsFor_level0 hlevel, bind_ok', if_pos hlevel, hadd, pure_bind, map_eq_pure_bind]
  exact (bind_assoc _ _ _).symm

/-- **A level-0 chunk.**  A chunk within the hard window limit, against a
source below `2^63` bytes, is encoded as a window that decodes on its own to
the chunk, its sections compressed by the secondary compressor, if any. -/
theorem encodeChunk_level0 (cs : Codecs) (source : List UInt8) {opts : CompressOptions}
    (config : MatcherConfig) (hlevel : opts.level = 0) (hok : opts.SecondaryOk cs) {chunk : List UInt8}
    (hmax : chunk.length ≤ hardMaxWinsize) (hS : source.length < 2 ^ 63) :
    ∃ bytes, encodeChunk cs source opts config (if source ≠ [] then some ⟨source.length, 0⟩ else none) chunk =
        .ok bytes ∧ bytes ≠ [] ∧
      WindowDecodes cs ((opts.secondary.backend cs).map CompressBackend.id) source bytes chunk := by
  -- a core with these options and source, over any stream: the chunk is its window
  let c : EncoderCore := ⟨StreamEncoder.new opts.checksum, opts, source, none, 0⟩
  obtain ⟨bytes, hwin, hne, hdec⟩ := EncoderCore.encodeWindow_level0 cs (c := c) hlevel hok hmax hS
  rw [encodeWindow_eq_encodeChunk cs hlevel config] at hwin
  refine ⟨bytes, ?_, hne, hdec⟩
  cases hchunk : encodeChunk cs source opts config (if source ≠ [] then some ⟨source.length, 0⟩ else none)
      chunk with
  | error e =>
    rw [hchunk] at hwin
    cases hwin
  | ok b =>
    rw [hchunk] at hwin
    -- the window is what the stream gains after its header
    have hw : (c.stream.writeRawWindow b).writer = (c.stream.writeRawWindow bytes).writer := by
      injection hwin with h
      exact congrArg (fun c : EncoderCore => c.stream.writer) h
    rw [List.append_cancel_left hw]

/-! ## The stream -/

/-- Raw windows written one after another follow the file header in order. -/
theorem foldl_writeRawWindow_writer (s : StreamEncoder) (ws : List (List UInt8)) :
    (ws.foldl StreamEncoder.writeRawWindow s).writeHeader.writer = s.writeHeader.writer ++ ws.flatten := by
  induction ws generalizing s with
  | nil => simp
  | cons w ws ih =>
    rw [List.foldl_cons, ih, List.flatten_cons, ← List.append_assoc]
    rw [StreamEncoder.writeRawWindow]
    exact congrArg (· ++ ws.flatten) (StreamEncoder.writeHeader_append s w)

/-! ## The round trip -/

/-- **Level-0 parallel encoding round trips.**  For every source and target
below `2^63` bytes, every window size from one byte to the hard window limit
and a secondary compressor, if any, that does not fail and that the decoder
undoes, `encode_all_parallel` returns a delta that `decode_memory` turns back
into the target: each chunk is a window that decodes to it, and the windows
follow one file header in the order of the chunks. -/
theorem encodeAllParallel_level0_roundtrip (cs : Codecs) (source target : List UInt8)
    (opts : CompressOptions) (hlevel : opts.level = 0) (hok : opts.SecondaryOk cs)
    (hw : 0 < opts.windowSize) (hmax : opts.windowSize ≤ hardMaxWinsize) (hS : source.length < 2 ^ 63)
    (hT : target.length < 2 ^ 63) :
    ∃ delta, encodeAllParallel cs source target opts = .ok delta ∧
      decodeMemory cs delta source = .ok target := by
  obtain ⟨opts', hcap, hw', hmax', hlv, hsec⟩ := capped_options target hw hmax
  have hlevel' : opts'.level = 0 := hlv.trans hlevel
  have hok' : opts'.SecondaryOk cs := hok.of_secondary hsec
  unfold encodeAllParallel
  dsimp only
  rw [hcap]
  by_cases hnil : target = []
  · -- an empty target is left to `encode_all`
    rw [if_pos hnil]
    obtain ⟨opts'', hcap', hw'', hmax'', hlv', hsec'⟩ := capped_options target hw' hmax'
    have hlevel'' : opts''.level = 0 := hlv'.trans hlevel'
    obtain ⟨enc, hnew, -⟩ := DeltaEncoder.new_level0 cs source hlevel''
    obtain ⟨delta, n, hrun, hdec⟩ := DeltaEncoder.writeTarget_finish_level0 cs hlevel''
      (hok'.of_secondary hsec') hw'' hmax'' hS hT hnew
    exact ⟨delta, encodeAll_of_run hcap' hnew hrun, hdec⟩
  rw [if_neg hnil]
  -- every chunk is a window that decodes to it
  have hw64 : 0 < max opts'.windowSize 64 := by omega
  have hchunk : ∀ v ∈ chunks (max opts'.windowSize 64) target, v.length ≤ hardMaxWinsize := by
    intro v hv
    have h64 : (64 : Nat) ≤ hardMaxWinsize := by decide
    have := (length_of_mem_chunks hw64 hv).2
    omega
  obtain ⟨ps, hmap, hsnd, hps⟩ := mapM_eq_ok_of_forall
    (encodeChunk cs source opts' (configForLevel opts'.level)
      (if source ≠ [] then some ⟨source.length, 0⟩ else none))
    (fun chunk bytes => bytes ≠ [] ∧
      WindowDecodes cs ((opts'.secondary.backend cs).map CompressBackend.id) source bytes chunk)
    (chunks (max opts'.windowSize 64) target)
    (fun v hv => encodeChunk_level0 cs source _ hlevel' hok' (hchunk v hv) hS)
  rw [hmap, bind_ok']
  -- the windows after the file header of a new stream, which names the secondary compressor
  have hstream : ∀ s : StreamEncoder, s.writeHeader.writer = s.fileHeader.encode → s.fileHeader.Valid →
      s.fileHeader.secondaryId = (opts'.secondary.backend cs).map CompressBackend.id →
      decodeMemory cs ((ps.map Prod.fst).foldl StreamEncoder.writeRawWindow s).finish source = .ok target := by
    intro s hhead hfh hsid
    have hall := decodeMemory_windows cs source s.fileHeader hfh ps
      (fun p hp => by rw [hsid]; exact (hps p hp).2) (fun p hp => (hps p hp).1)
    rw [StreamEncoder.finish_eq_writeHeader, foldl_writeRawWindow_writer, hhead, hall, hsnd,
      chunks_flatten hw64]
  cases hb : opts'.secondary.backend cs with
  | none => exact ⟨_, rfl, hstream _ rfl FileHeader.default_valid (by rw [hb]; rfl)⟩
  | some b => exact ⟨_, rfl, hstream _ rfl (setSecondaryId_valid _ _) (by rw [hb]; rfl)⟩

theorem encodeAllParallel_level0_roundtrip_lzma :
    ∃ delta, encodeAllParallel ⟨Except.ok, Except.ok, fun _ => Except.ok, Except.ok⟩ [1, 2, 3]
        (List.replicate 70 7) ⟨0, 64, true, .lzma⟩ = .ok delta ∧
      decodeMemory ⟨Except.ok, Except.ok, fun _ => Except.ok, Except.ok⟩ delta [1, 2, 3] =
        .ok (List.replicate 70 7) :=
  encodeAllParallel_level0_roundtrip _ _ _ _ rfl
    (CompressOptions.secondaryOk_lzma rfl ⟨fun _ _ h => by cases h; rfl, fun _ _ _ h => by cases h; rfl⟩
      fun d => ⟨d, rfl⟩)
    (by decide) (by decide) (by decide) (by simp)

end Oxidelta.Compress
