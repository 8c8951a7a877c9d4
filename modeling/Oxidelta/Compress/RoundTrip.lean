import Oxidelta.Compress.Encoder
import Oxidelta.Hash.Found
import Oxidelta.Vcdiff.Stream

/-!
# The streaming encoder's round trip at level 0 (`compress/encoder.rs`)

At level 0 `DeltaEncoder` matches nothing: `encode_window` writes each
window as one ADD of its bytes against a copy window of the whole source, and
compresses its sections with the secondary compressor the options name, if
any.  What the encoder writes then rests on the window layer alone: the
window codec (`Vcdiff.Stream`) and the secondary round trip
(`Compress.Secondary`).

`EncoderCore.Wrote c ps c'` says that the encoder core went from `c` to `c'`
by writing the windows `ps` (each its bytes and the target it decodes to).

Main results:

* `EncoderCore.encodeWindow_level0` — one window: `encode_window` appends a
  window that decodes on its own to the window's bytes;
* `EncoderCore.encodeWindows_level0` — windows one after another append
  windows that decode to them, in order;
* `DeltaEncoder.finish_level0` — `finish` writes the rest of the buffer as a
  last window, or an empty window when there was none;
* `deltaEncoder_roundtrip` — **the streaming round trip**: at level 0, for
  every window size from one byte to the hard window limit and every chunking
  of the target, `new`, `write_target` on each chunk and `finish` return a
  delta that `decode_memory` turns back into the concatenated chunks;
* `encodeAll_level0_roundtrip` — and so does `encode_all`, whose cap on the
  window size keeps it within those bounds.

At a positive level the windows go through `pipeline::optimize`, which can
merge two RUNs of different bytes into one, so no such result holds there.
-/

namespace Oxidelta.Compress

open Rust Oxidelta.Vcdiff Oxidelta.Hash CopyProgram Segments

/-! ## Secondary compressors the decoder undoes -/

/-- Options whose secondary compressor, if they name one, does not fail and
is one the decoder finds again from the file header and undoes. -/
def CompressOptions.SecondaryOk (cs : Codecs) (opts : CompressOptions) : Prop :=
  ∀ b, opts.secondary.backend cs = some b → b.Recoverable cs ∧ ∀ d, ∃ c, b.compress d = .ok c

namespace CompressOptions

variable {cs : Codecs} {opts : CompressOptions}

theorem secondaryOk_none (h : opts.secondary = .none) : opts.SecondaryOk cs := by
  intro b hb
  rw [h] at hb
  cases hb

theorem secondaryOk_lzma (h : opts.secondary = .lzma) (hcs : cs.Lossless)
    (htot : ∀ d, ∃ c, cs.lzmaCompress d = .ok c) : opts.SecondaryOk cs := by
  intro b hb
  rw [h] at hb
  cases hb
  exact ⟨lzmaBackend_recoverable hcs, htot⟩

theorem secondaryOk_zlib {level : Nat} (h : opts.secondary = .zlib level) (hcs : cs.Lossless)
    (htot : ∀ d, ∃ c, cs.zlibCompress level d = .ok c) : opts.SecondaryOk cs := by
  intro b hb
  rw [h] at hb
  cases hb
  exact ⟨zlibBackend_recoverable hcs level, htot⟩

/-- The condition reads only the secondary compressor. -/
theorem SecondaryOk.of_secondary {opts' : CompressOptions} (h : opts'.secondary = opts.secondary)
    (hok : opts.SecondaryOk cs) : opts'.SecondaryOk cs := by
  intro b hb
  rw [h] at hb
  exact hok b hb

end CompressOptions

/-! ## The stream `new` opens -/

/-- The file header of a new stream that records a secondary compressor is
one the decoder accepts. -/
theorem setSecondaryId_valid (ck : Bool) (id : UInt8) :
    ((StreamEncoder.new ck).setSecondaryId id).fileHeader.Valid := by
  -- the indicator of the default header with the secondary flag set
  exact ⟨show ((0 : UInt8) ||| vcdSecondary).toNat < 8 by decide,
    show ((0 : UInt8) ||| vcdSecondary) &&& vcdCodetable = 0 by decide,
    show ((0 : UInt8) ||| vcdSecondary) &&& vcdSecondary ≠ 0 ↔ (some id).isSome by
      simp only [Option.isSome_some, iff_true]; decide,
    show ((0 : UInt8) ||| vcdSecondary) &&& vcdAppheader ≠ 0 ↔ (none : Option (List UInt8)).isSome by decide,
    fun _ h => by cases h⟩

/-- **`DeltaEncoder::new` at level 0** buffers nothing, has written no
window, and opens a stream that has written nothing yet, whose file header is
valid and records the id of the secondary compressor, if any. -/
theorem DeltaEncoder.new_level0 (cs : Codecs) (source : List UInt8) {opts : CompressOptions}
    (h : opts.level = 0) :
    ∃ enc, DeltaEncoder.new cs source opts = .ok enc ∧ enc.buffer = [] ∧ enc.core.opts = opts ∧
      enc.core.source = source ∧ enc.core.windowsWritten = 0 ∧
      enc.core.stream.writeHeader.writer = enc.core.stream.fileHeader.encode ∧
      enc.core.stream.fileHeader.Valid ∧
      enc.core.stream.fileHeader.secondaryId = (opts.secondary.backend cs).map CompressBackend.id := by
  unfold DeltaEncoder.new
  simp only [h, Nat.lt_irrefl, false_and, if_false]
  refine ⟨_, rfl, rfl, rfl, rfl, rfl, ?_⟩
  cases opts.secondary.backend cs with
  | none => exact ⟨rfl, FileHeader.default_valid, rfl⟩
  | some b => exact ⟨rfl, setSecondaryId_valid _ _, rfl⟩

/-! ## One window -/

/-- The copy window `encode_window` declares is the whole source. -/
theorem encodeWindow_sourceWin (source : List UInt8) :
    (if source ≠ [] then some ⟨source.length, 0⟩ else none : Option SourceWindow) =
      sourceWindowOf source := by
  cases source <;> rfl

namespace EncoderCore

variable (cs : Codecs) {c : EncoderCore} {window : List UInt8}

/-- At level 0 the instructions of a window are one ADD of it, none for an
empty one, and the core is left as it is. -/
theorem instructionsFor_level0 (h : c.opts.level = 0) :
    c.instructionsFor window = .ok (emitAddAll window, c) := by
  rw [instructionsFor, if_pos h]
  cases window <;> rfl

/-- **One level-0 window.**  For a window within the hard window limit
against a source below `2^63` bytes, `encode_window` counts one more window
and appends to the stream, after the file header, a window that decodes on
its own to the window's bytes, its sections stored as they are or compressed
by the secondary compressor the file header names. -/
theorem encodeWindow_level0 (hlevel : c.opts.level = 0) (hok : c.opts.SecondaryOk cs)
    (hmax : window.length ≤ hardMaxWinsize) (hS : c.source.length < 2 ^ 63) :
    ∃ bytes, c.encodeWindow cs window =
        .ok { c with stream := c.stream.writeRawWindow bytes, windowsWritten := c.windowsWritten + 1 } ∧
      bytes ≠ [] ∧
      WindowDecodes cs ((c.opts.secondary.backend cs).map CompressBackend.id) c.source bytes window := by
  have hmax' : window.length ≤ 2 ^ 24 := hmax
  have hvalid := @emitAddAll_valid c.source window (by omega)
  -- the window's program: the ADD against the source
  have hprog := validFrom_toOps c.source window hvalid
  have hsum := hprog.sum_size
  rw [Nat.zero_add] at hsum
  obtain ⟨S, hS'⟩ : ∃ S, ((WindowEncoder.new (sourceWindowOf c.source) c.opts.checksum).feedAll
      (toOps window 0 (emitAddAll window))).finishSections
        (some (exec c.source (toOps window 0 (emitAddAll window)))) = S := ⟨_, rfl⟩
  have hlen := feedAll_sections_length_le (sourceWindowOf c.source) c.opts.checksum _
    (by rw [sourceWindowOf_len]; exact hprog.wellFormed) (by omega) (by rw [sourceWindowOf_len]; omega) hS'
  have hmeta := WindowEncoder.finishSections_feedAll (sourceWindowOf c.source) c.opts.checksum _
    hprog.wellFormed.size_pos (some (exec c.source (toOps window 0 (emitAddAll window))))
  rw [hS'] at hmeta
  have hdec := feedAll_decodes c.opts.checksum hprog.wellFormed (by omega) (by omega) hS'
  rw [exec_toOps hvalid] at hS' hdec hmeta
  -- what the assembled window needs of the sections, whatever the compressor
  have htgt : S.targetLen ≤ hardMaxWinsize := by
    rw [hmeta]
    dsimp only
    omega
  have hck : ∀ ck, S.checksum = some ck → ck < 2 ^ 32 := by
    intro ck hc
    rw [hmeta] at hc
    cases hck : c.opts.checksum <;> simp [hck] at hc
    exact hc ▸ adler32_lt _
  have hsrc : ∀ sw, S.sourceWindow = some sw → sw.len < 2 ^ 64 ∧ sw.offset < 2 ^ 64 := by
    intro sw hsw
    rw [hmeta] at hsw
    unfold sourceWindowOf at hsw
    split at hsw
    · cases hsw
    · cases hsw
      exact ⟨show c.source.length < 2 ^ 64 by omega, show 0 < 2 ^ 64 by decide⟩
  unfold encodeWindow
  rw [instructionsFor_level0 hlevel, bind_ok']
  dsimp only
  rw [encodeWindow_sourceWin, emitInstructions_eq _ hvalid, bind_ok', hS']
  cases hb : c.opts.secondary.backend cs with
  | none =>
    -- stored as they are, under a zero delta indicator
    obtain ⟨bytes, hasm, hne, hwd⟩ := assemble_decodes cs S 0 (by decide) htgt hck hsrc (by omega)
      (decompressSections_zero cs _ _ _ none) (hdec _ _ _ 0)
    refine ⟨bytes, ?_, hne, hwd⟩
    rw [hasm, bind_ok']
    rfl
  | some b =>
    -- each section compressed when that makes it shorter
    obtain ⟨hrec, htot⟩ := hok b hb
    obtain ⟨⟨cd, ci, ca, delInd⟩, hcomp⟩ := compressSections_ok htot S.dataSection S.instSection S.addrSection
    obtain ⟨hd, hi, ha⟩ := compressSections_length_le hcomp
    obtain ⟨bytes, hasm, hne, hwd⟩ := assemble_decodes cs S delInd (compressSections_delInd_lt hcomp)
      htgt hck hsrc (by omega) (decompressSections_compressSections hrec hcomp) (hdec cd ci ca delInd)
    refine ⟨bytes, ?_, hne, hwd⟩
    dsimp only
    rw [hcomp]
    simp only [lift, bind_ok']
    rw [hasm, bind_ok']
    rfl

/-! ## Windows one after another -/

/-- `c'` is `c` after writing the windows `ps`, each its bytes and the target
it decodes to: the same options, source and file header, one more window
counted for each, and their bytes after the file header. -/
structure Wrote (c : EncoderCore) (ps : List (List UInt8 × List UInt8)) (c' : EncoderCore) : Prop where
  opts : c'.opts = c.opts
  source : c'.source = c.source
  fileHeader : c'.stream.fileHeader = c.stream.fileHeader
  windowsWritten : c'.windowsWritten = c.windowsWritten + ps.length
  writer : c'.stream.writeHeader.writer = c.stream.writeHeader.writer ++ (ps.map Prod.fst).flatten

theorem Wrote.refl (c : EncoderCore) : c.Wrote [] c :=
  ⟨rfl, rfl, rfl, rfl, by simp⟩

theorem Wrote.trans {c₁ c₂ c₃ : EncoderCore} {ps qs : List (List UInt8 × List UInt8)}
    (h₁ : c₁.Wrote ps c₂) (h₂ : c₂.Wrote qs c₃) : c₁.Wrote (ps ++ qs) c₃ where
  opts := h₂.opts.trans h₁.opts
  source := h₂.source.trans h₁.source
  fileHeader := h₂.fileHeader.trans h₁.fileHeader
  windowsWritten := by rw [h₂.windowsWritten, h₁.windowsWritten, List.length_append, Nat.add_assoc]
  writer := by rw [h₂.writer, h₁.writer, List.map_append, List.flatten_append, List.append_assoc]

/-- Writing one raw window. -/
theorem wrote_writeRawWindow (c : EncoderCore) (bytes t : List UInt8) :
    c.Wrote [(bytes, t)]
      { c with stream := c.stream.writeRawWindow bytes, windowsWritten := c.windowsWritten + 1 } where
  opts := rfl
  source := rfl
  fileHeader := StreamEncoder.writeHeader_fileHeader c.stream
  windowsWritten := rfl
  writer := by
    rw [List.map_singleton, List.flatten_singleton]
    exact StreamEncoder.writeHeader_append c.stream bytes

/-- **Level-0 windows one after another.**  Each window within the hard
window limit is written as a window that decodes on its own to it: the
windows written decode to the windows given, in order. -/
theorem encodeWindows_level0 (hlevel : c.opts.level = 0) (hok : c.opts.SecondaryOk cs)
    (hS : c.source.length < 2 ^ 63) :
    ∀ (ws : List (List UInt8)), (∀ w ∈ ws, w.length ≤ hardMaxWinsize) →
      ∃ ps c', c.encodeWindows cs ws = .ok c' ∧ c.Wrote ps c' ∧ ps.map Prod.snd = ws ∧
        ∀ p ∈ ps, p.1 ≠ [] ∧
          WindowDecodes cs ((c.opts.secondary.backend cs).map CompressBackend.id) c.source p.1 p.2 := by
  intro ws
  induction ws generalizing c with
  | nil => intro _; exact ⟨[], c, rfl, .refl c, rfl, by simp⟩
  | cons w ws ih =>
    intro hws
    obtain ⟨bytes, hstep, hne, hdec⟩ := encodeWindow_level0 cs hlevel hok (hws w List.mem_cons_self) hS
    have hone := wrote_writeRawWindow c bytes w
    -- the rest of the windows from the core after this one, which keeps the options and source
    obtain ⟨ps, c', hrun, hwrote, hsnd, hps⟩ :=
      ih (c := { c with stream := c.stream.writeRawWindow bytes, windowsWritten := c.windowsWritten + 1 })
        hlevel hok hS fun v hv => hws v (List.mem_cons_of_mem _ hv)
    refine ⟨(bytes, w) :: ps, c', by rw [encodeWindows_cons, hstep, bind_ok', hrun], hone.trans hwrote,
      by rw [List.map_cons, hsnd], ?_⟩
    intro p hp
    rcases List.mem_cons.1 hp with rfl | hp
    · exact ⟨hne, hdec⟩
    · exact hps p hp

end EncoderCore

/-! ## Finishing -/

/-- **`finish` at level 0.**  With fewer bytes buffered than the hard window
limit, `finish` writes them as a last window, or an empty window when none
was written at all, and returns the stream's bytes: the file header, the
windows written before, and windows that decode to the buffered bytes. -/
theorem DeltaEncoder.finish_level0 (cs : Codecs) {d : DeltaEncoder} (hlevel : d.core.opts.level = 0)
    (hok : d.core.opts.SecondaryOk cs) (hbuf : d.buffer.length ≤ hardMaxWinsize)
    (hS : d.core.source.length < 2 ^ 63) :
    ∃ (ps : List (List UInt8 × List UInt8)) (n : Nat),
      d.finish cs = .ok (d.core.stream.writeHeader.writer ++ (ps.map Prod.fst).flatten, n) ∧
      (ps.map Prod.snd).flatten = d.buffer ∧
      ∀ p ∈ ps, p.1 ≠ [] ∧
        WindowDecodes cs ((d.core.opts.secondary.backend cs).map CompressBackend.id) d.core.source p.1 p.2 := by
  by_cases hne : d.buffer = []
  · -- nothing buffered: the stream as it is, with an empty window if it has none
    have hcore : (if d.buffer ≠ [] then d.core.encodeWindow cs d.buffer else pure d.core :
        Result EncodeError EncoderCore) = .ok d.core := by rw [if_neg (not_not.2 hne)]; rfl
    unfold DeltaEncoder.finish
    rw [hcore, bind_ok']
    by_cases hzero : d.core.windowsWritten = 0
    · obtain ⟨bytes, hfin, hbne, hdec⟩ := @emptyWindow_decodes cs
        ((d.core.opts.secondary.backend cs).map CompressBackend.id) d.core.source EncodeError d.core.opts.checksum
      refine ⟨[(bytes, [])], d.core.windowsWritten, ?_, by simp [hne], by simpa using ⟨hbne, hdec⟩⟩
      rw [if_pos hzero, StreamEncoder.writeWindow_eq hfin, bind_ok', StreamEncoder.finish_eq_writeHeader,
        StreamEncoder.writeHeader_append, List.map_singleton, List.flatten_singleton]
      rfl
    · refine ⟨[], d.core.windowsWritten, ?_, by simp [hne], by simp⟩
      rw [if_neg hzero, List.map_nil, List.flatten_nil, List.append_nil, ← StreamEncoder.finish_eq_writeHeader]
      rfl
  · -- the buffered bytes as the last window
    obtain ⟨bytes, hstep, hbne, hdec⟩ := EncoderCore.encodeWindow_level0 cs hlevel hok hbuf hS
    have hone := EncoderCore.wrote_writeRawWindow d.core bytes d.buffer
    refine ⟨[(bytes, d.buffer)], d.core.windowsWritten + 1, ?_, by simp, by simpa using ⟨hbne, hdec⟩⟩
    unfold DeltaEncoder.finish
    rw [if_pos hne, hstep, bind_ok']
    dsimp only
    rw [if_neg (Nat.succ_ne_zero _), ← hone.writer, ← StreamEncoder.finish_eq_writeHeader]
    rfl

/-! ## The round trip -/

/-- **Writing a target and finishing, at level 0.**  From the encoder `new`
makes at level 0, with a window size from one byte to the hard window limit,
writing a target below `2^63` bytes in one chunk and finishing returns a delta
that `decode_memory` turns back into the target. -/
theorem DeltaEncoder.writeTarget_finish_level0 (cs : Codecs) {source data : List UInt8}
    {opts : CompressOptions} (hlevel : opts.level = 0) (hok : opts.SecondaryOk cs)
    (hw : 0 < opts.windowSize) (hmax : opts.windowSize ≤ hardMaxWinsize)
    (hS : source.length < 2 ^ 63) (hT : data.length < 2 ^ 63) {enc : DeltaEncoder}
    (hnew : DeltaEncoder.new cs source opts = .ok enc) :
    ∃ delta n, (enc.writeTarget cs data >>= fun enc => enc.finish cs) = .ok (delta, n) ∧
      decodeMemory cs delta source = .ok data := by
  obtain ⟨enc', hnew', hbuf, hopts, hsrc, -, hhead, hfh, hsid⟩ := DeltaEncoder.new_level0 cs source hlevel
  rw [hnew] at hnew'
  cases hnew'
  have hw' : 0 < enc.core.opts.windowSize := by rw [hopts]; exact hw
  have hbuf' : enc.buffer.length < enc.core.opts.windowSize := by rw [hbuf]; exact hw'
  have hfit : data.length + enc.core.opts.windowSize < 2 ^ 64 := by
    rw [hopts]
    have : opts.windowSize ≤ 2 ^ 24 := hmax
    omega
  -- the full windows of the target, one after another
  obtain ⟨ps, c', hrun, hwrote, hsnd, hps⟩ := EncoderCore.encodeWindows_level0 cs
    (by rw [hopts]; exact hlevel) (by rw [hopts]; exact hok) (by rw [hsrc]; exact hS)
    (windows enc.core.opts.windowSize data)
    (fun v hv => by rw [length_of_mem_windows hv, hopts]; exact hmax)
  -- the rest, after the full windows, as the last window
  obtain ⟨qs, n, hfin, hsnd', hqs⟩ := DeltaEncoder.finish_level0 cs
    (d := ⟨c', windowRest enc.core.opts.windowSize data⟩)
    (by rw [hwrote.opts, hopts]; exact hlevel) (by rw [hwrote.opts, hopts]; exact hok)
    (le_trans (length_windowRest_lt hw' _).le (by rw [hopts]; exact hmax))
    (by rw [hwrote.source, hsrc]; exact hS)
  refine ⟨c'.stream.writeHeader.writer ++ (qs.map Prod.fst).flatten, n, ?_, ?_⟩
  · rw [DeltaEncoder.writeTarget_windows hw' hbuf' hfit, hbuf, List.nil_append, hrun]
    exact hfin
  -- the delta is the file header, then windows that decode to the target cut in order
  have hall := decodeMemory_windows cs source enc.core.stream.fileHeader hfh (ps ++ qs)
    (fun p hp => by
      rcases List.mem_append.1 hp with hp | hp
      · rw [hsid, ← hopts, ← hsrc]
        exact (hps p hp).2
      · have := (hqs p hp).2
        rwa [hwrote.opts, hwrote.source, hopts, ← hsid, hsrc] at this)
    (fun p hp => by
      rcases List.mem_append.1 hp with hp | hp
      · exact (hps p hp).1
      · exact (hqs p hp).1)
  rw [hwrote.writer, hhead, List.append_assoc, ← List.flatten_append, ← List.map_append, hall,
    List.map_append, List.flatten_append, hsnd, hsnd', windows_flatten hw']

/-- **The streaming round trip at level 0.**  For every source and every
chunking of a target (each below `2^63` bytes), every window size from one
byte to the hard window limit and a secondary compressor, if any, that does
not fail and that the decoder undoes, `DeltaEncoder::new`, `write_target` on
each chunk in turn and `finish` return a delta that `decode_memory` turns back
into the concatenated chunks. -/
theorem deltaEncoder_roundtrip (cs : Codecs) (source : List UInt8) (chunks : List (List UInt8))
    (opts : CompressOptions) (hlevel : opts.level = 0) (hok : opts.SecondaryOk cs)
    (hw : 0 < opts.windowSize) (hmax : opts.windowSize ≤ hardMaxWinsize)
    (hS : source.length < 2 ^ 63) (hT : chunks.flatten.length < 2 ^ 63) :
    ∃ delta n, (DeltaEncoder.new cs source opts >>= fun enc =>
        chunks.foldlM (fun d x => d.writeTarget cs x) enc >>= fun enc => enc.finish cs) = .ok (delta, n) ∧
      decodeMemory cs delta source = .ok chunks.flatten := by
  obtain ⟨enc, hnew, hbuf, hopts, -⟩ := DeltaEncoder.new_level0 cs source hlevel
  obtain ⟨delta, n, hrun, hdec⟩ := DeltaEncoder.writeTarget_finish_level0 cs hlevel hok hw hmax hS hT hnew
  -- every chunking leaves the encoder that writing the concatenation at once does
  have hchunks : chunks.foldlM (fun d x => d.writeTarget cs x) enc = enc.writeTarget cs chunks.flatten :=
    DeltaEncoder.writeTarget_chunks chunks (by rw [hopts]; exact hw) (by rw [hbuf, hopts]; exact hw)
      (by rw [hopts]; have : opts.windowSize ≤ 2 ^ 24 := hmax; omega)
  refine ⟨delta, n, ?_, hdec⟩
  rw [hnew, bind_ok', hchunks]
  exact hrun

theorem deltaEncoder_roundtrip_lzma :
    ∃ delta n, (DeltaEncoder.new ⟨Except.ok, Except.ok, fun _ => Except.ok, Except.ok⟩ [1, 2, 3]
        ⟨0, 2, true, .lzma⟩ >>= fun enc =>
        [[1, 2, 3], [4], []].foldlM
          (fun d x => d.writeTarget ⟨Except.ok, Except.ok, fun _ => Except.ok, Except.ok⟩ x) enc >>= fun enc =>
        enc.finish ⟨Except.ok, Except.ok, fun _ => Except.ok, Except.ok⟩) = .ok (delta, n) ∧
      decodeMemory ⟨Except.ok, Except.ok, fun _ => Except.ok, Except.ok⟩ delta [1, 2, 3] =
        .ok [[1, 2, 3], [4], []].flatten :=
  deltaEncoder_roundtrip _ _ _ _ rfl
    (CompressOptions.secondaryOk_lzma rfl ⟨fun _ _ h => by cases h; rfl, fun _ _ _ h => by cases h; rfl⟩
      fun d => ⟨d, rfl⟩)
    (by decide) (by decide) (by decide) (by decide)

/-- The window size `encode_all` caps to the target's length, but not below
64 bytes, stays positive and within the hard window limit, and the cap leaves
the level and the secondary compressor as they are. -/
theorem capped_options (target : List UInt8) {opts : CompressOptions} (hw : 0 < opts.windowSize)
    (hmax : opts.windowSize ≤ hardMaxWinsize) :
    ∃ opts' : CompressOptions,
      (if target.length < opts.windowSize then { opts with windowSize := max target.length 64 }
        else opts) = opts' ∧ 0 < opts'.windowSize ∧ opts'.windowSize ≤ hardMaxWinsize ∧
      opts'.level = opts.level ∧ opts'.secondary = opts.secondary := by
  split
  · refine ⟨_, rfl, by simp, ?_, rfl, rfl⟩
    show max target.length 64 ≤ hardMaxWinsize
    have : (64 : Nat) ≤ hardMaxWinsize := by decide
    omega
  · exact ⟨opts, rfl, hw, hmax, rfl, rfl⟩

/-- `encode_all` returns the delta that `new`, `write_target` and `finish`
return over the capped options. -/
theorem encodeAll_of_run {cs : Codecs} {source target : List UInt8} {opts opts' : CompressOptions}
    (hcap : (if target.length < opts.windowSize then { opts with windowSize := max target.length 64 }
      else opts) = opts') {enc : DeltaEncoder} (hnew : DeltaEncoder.new cs source opts' = .ok enc)
    {delta : List UInt8} {n : Nat}
    (hrun : (enc.writeTarget cs target >>= fun enc => enc.finish cs) = .ok (delta, n)) :
    encodeAll cs source target opts = .ok delta := by
  obtain ⟨enc', hwrite, hfin⟩ := bind_eq_ok hrun
  unfold encodeAll
  dsimp only
  rw [hcap, hnew, bind_ok', hwrite, bind_ok', hfin, bind_ok']
  rfl

/-- **`encode_all` at level 0.**  For every source and target below `2^63`
bytes, every window size from one byte to the hard window limit and a
secondary compressor, if any, that does not fail and that the decoder undoes,
`encode_all`, which caps the window size to the target's length (but not
below 64 bytes), returns a delta that `decode_memory` turns back into the
target. -/
theorem encodeAll_level0_roundtrip (cs : Codecs) (source target : List UInt8) (opts : CompressOptions)
    (hlevel : opts.level = 0) (hok : opts.SecondaryOk cs) (hw : 0 < opts.windowSize)
    (hmax : opts.windowSize ≤ hardMaxWinsize) (hS : source.length < 2 ^ 63)
    (hT : target.length < 2 ^ 63) :
    ∃ delta, encodeAll cs source target opts = .ok delta ∧ decodeMemory cs delta source = .ok target := by
  obtain ⟨opts', hcap, hw', hmax', hlv, hsec⟩ := capped_options target hw hmax
  have hlevel' : opts'.level = 0 := hlv.trans hlevel
  obtain ⟨enc, hnew, -⟩ := DeltaEncoder.new_level0 cs source hlevel'
  obtain ⟨delta, n, hrun, hdec⟩ := DeltaEncoder.writeTarget_finish_level0 cs hlevel'
    (hok.of_secondary hsec) hw' hmax' hS hT hnew
  exact ⟨delta, encodeAll_of_run hcap hnew hrun, hdec⟩

theorem encodeAll_level0_roundtrip_capped :
    ∃ delta, encodeAll ⟨Except.ok, Except.ok, fun _ => Except.ok, Except.ok⟩ [1, 2, 3] [4, 5, 6]
        ⟨0, 2 ^ 23, true, .none⟩ = .ok delta ∧
      decodeMemory ⟨Except.ok, Except.ok, fun _ => Except.ok, Except.ok⟩ delta [1, 2, 3] = .ok [4, 5, 6] :=
  encodeAll_level0_roundtrip _ _ _ _ rfl (CompressOptions.secondaryOk_none rfl) (by decide) (by decide)
    (by decide) (by decide)

end Oxidelta.Compress
