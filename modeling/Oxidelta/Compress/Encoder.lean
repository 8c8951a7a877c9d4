import Oxidelta.Hash.Scan
import Oxidelta.Compress.Pipeline
import Oxidelta.Compress.Secondary
import Oxidelta.Vcdiff.Encoder
import Oxidelta.Vcdiff.Decoder
import Oxidelta.Vcdiff.Packing
import Oxidelta.Lib.Segments

/-!
# The streaming delta encoder (`compress/encoder.rs`)

`DeltaEncoder` indexes the source once, buffers the target it is given in
chunks, and hands every full window to `encode_window`: the match engine (or
one ADD at level 0), `pipeline::optimize`, the window encoder, secondary
compression, and the stream.  `encode_all` is one chunk and `finish`.

The writer is a `Vec<u8>` (the stream's bytes).  The fields `bytes_in` and
`last_*_size` only count and size allocations, and are left out.

Main results:

* `writeTarget_windows` — for a positive window size, a chunk written to the
  encoder encodes exactly the full windows of the buffer and the chunk, and
  buffers what is left;
* `writeTarget_chunks` — any two chunkings of one target encode the same
  windows and leave the same encoder;
* `writeTarget_windowSize_zero` — with a window size of `0` (which the command
  line admits) `write_target` never returns;
* `encodeAll_codecs` — without secondary compression the encoder never calls
  a compression library;
* `encodeAll_adjacent_runs_corrupt` — a target of two runs of different bytes
  is encoded into a delta that does not decode to it.
-/

namespace Oxidelta.Compress

open Rust Oxidelta.Vcdiff Oxidelta.Hash Segments

/-! ## The model -/

/-- `CompressOptions`. -/
structure CompressOptions where
  level : Nat
  windowSize : Nat
  checksum : Bool
  secondary : SecondaryCompression

/-- `CompressOptions::default`: level 6, windows of 8 MiB, checksums, no
secondary compression. -/
def CompressOptions.default : CompressOptions := ⟨6, 2 ^ 23, true, .none⟩

/-- `EncodeError`. -/
inductive EncodeError where
  | io (e : IoError)
  deriving DecidableEq, Repr

/-- The fields of `DeltaEncoder` that `encode_window` reads and writes. -/
structure EncoderCore where
  stream : StreamEncoder
  opts : CompressOptions
  source : List UInt8
  engine : Option MatchEngine
  windowsWritten : Nat

/-- `DeltaEncoder`: the core and the partial window. -/
structure DeltaEncoder where
  core : EncoderCore
  buffer : List UInt8

/-- `DeltaEncoder::new`: the stream with the secondary compressor's id, and
an engine (with the source indexed) unless the level is `0`. -/
def DeltaEncoder.new (cs : Codecs) (source : List UInt8) (opts : CompressOptions) :
    Result EncodeError DeltaEncoder :=
  let config := configForLevel opts.level
  let stream := StreamEncoder.new opts.checksum
  let stream := match opts.secondary.backend cs with
    | some backend => stream.setSecondaryId backend.id
    | none => stream
  (if 0 < opts.level ∧ source ≠ [] then
      (MatchEngine.new config source.length (max opts.windowSize 64)).indexSource source >>= fun e =>
        pure (some e)
    else if 0 < opts.level then pure (some (MatchEngine.new config 0 (max opts.windowSize 64)))
    else pure none) >>= fun engine =>
  pure ⟨⟨stream, opts, source, engine, 0⟩, []⟩

/-- One instruction of `emit_instructions`, with the target position. -/
def emitInstructionStep (target : List UInt8) (s : WindowEncoder × Nat) :
    Instruction → Result EncodeError (WindowEncoder × Nat)
  | .add len => slice target s.2 (s.2 + len) >>= fun bytes => pure (s.1.add bytes, s.2 + len)
  | .copy len addr _ => pure (s.1.copyWithAutoMode len addr, s.2 + len)
  | .run len => index target s.2 >>= fun byte => pure (s.1.run len byte, s.2 + len)

/-- `emit_instructions`: a RUN writes the target byte where it starts. -/
def emitInstructions (we : WindowEncoder) (target : List UInt8) (instructions : List Instruction) :
    Result EncodeError WindowEncoder :=
  instructions.foldlM (emitInstructionStep target) (we, 0) >>= fun s => pure s.1

/-- `DeltaEncoder::find_matches`. -/
def EncoderCore.findMatches (c : EncoderCore) (target : List UInt8) :
    Result EncodeError (List Instruction × EncoderCore) :=
  match c.engine with
  | none => panic "engine required for level > 0"
  | some engine =>
    engine.findMatches target (if c.source = [] then none else some c.source) >>= fun r =>
      pure (r.1, { c with engine := some r.2 })

/-- The instructions of `encode_window`: one ADD at level `0`, otherwise the
engine's matches through `pipeline::optimize`. -/
def EncoderCore.instructionsFor (c : EncoderCore) (window : List UInt8) :
    Result EncodeError (List Instruction × EncoderCore) :=
  if c.opts.level = 0 then
    pure (if window = [] then [] else [.add (window.length % 2 ^ 32)], c)
  else
    c.findMatches window >>= fun r =>
      optimize r.1 window >>= fun insts => pure (insts, r.2)

/-- `DeltaEncoder::encode_window`. -/
def EncoderCore.encodeWindow (cs : Codecs) (c : EncoderCore) (window : List UInt8) :
    Result EncodeError EncoderCore :=
  let sourceWin : Option SourceWindow := if c.source ≠ [] then some ⟨c.source.length, 0⟩ else none
  c.instructionsFor window >>= fun r =>
  let c := r.2
  emitInstructions (WindowEncoder.new sourceWin c.opts.checksum) window r.1 >>= fun we =>
  let sections := we.finishSections (some window)
  (match c.opts.secondary.backend cs with
    | some backend =>
      lift EncodeError.io (compressSections backend sections.dataSection sections.instSection
          sections.addrSection) >>= fun comp =>
        ({ sections with dataSection := comp.1, instSection := comp.2.1, addrSection := comp.2.2.1 } :
          WindowSections).assemble comp.2.2.2
    | none => sections.assemble 0) >>= fun encoded =>
  pure { c with stream := c.stream.writeRawWindow encoded, windowsWritten := c.windowsWritten + 1 }

/-- One iteration of the fast path of `write_target`,
`while offset + window_size <= data.len()`: a full window straight from the
chunk. -/
def fastPathBody (cs : Codecs) (windowSize : Nat) (data : List UInt8) (s : EncoderCore × Nat) :
    Loop.Step (EncoderCore × Nat) (Result EncodeError (EncoderCore × Nat)) :=
  match (addChecked 64 s.2 windowSize : Result EncodeError Nat) with
  | .error e => .done (.error e)
  | .ok stop =>
    if stop ≤ data.length then
      match s.1.encodeWindow cs ((data.drop s.2).take windowSize) with
      | .ok c => .next (c, stop)
      | .error e => .done (.error e)
    else .done (.ok s)

/-- The first phase of `write_target`: a partial window completed from the
chunk, and encoded when full; the encoder and the chunk's offset. -/
def DeltaEncoder.completeBuffer (cs : Codecs) (d : DeltaEncoder) (data : List UInt8) :
    Result EncodeError (DeltaEncoder × Nat) :=
  if d.buffer ≠ [] then
    subChecked d.core.opts.windowSize d.buffer.length >>= fun need =>
    let take := min need data.length
    let buffer := d.buffer ++ data.take take
    if buffer.length = d.core.opts.windowSize then
      d.core.encodeWindow cs buffer >>= fun core => pure (⟨core, []⟩, take)
    else pure (⟨d.core, buffer⟩, take)
  else pure (d, 0)

/-- `DeltaEncoder::write_target`: complete the partial window, encode the full
windows of the chunk, and buffer the rest.  The fast path runs at most once
per byte of the chunk when the window size is positive. -/
def DeltaEncoder.writeTarget (cs : Codecs) (d : DeltaEncoder) (data : List UInt8) :
    Result EncodeError DeltaEncoder :=
  d.completeBuffer cs data >>= fun p =>
  match Loop.run (fastPathBody cs p.1.core.opts.windowSize data) (data.length + 1) (p.1.core, p.2) with
  | none => .error .diverge
  | some (.error e) => .error e
  | some (.ok (core, offset)) =>
    pure ⟨core, if offset < data.length then p.1.buffer ++ data.drop offset else p.1.buffer⟩

/-- `DeltaEncoder::finish`: the rest as a last window, an empty window when
none was written, and the stream's bytes with the number of windows. -/
def DeltaEncoder.finish (cs : Codecs) (d : DeltaEncoder) : Result EncodeError (List UInt8 × Nat) :=
  (if d.buffer ≠ [] then d.core.encodeWindow cs d.buffer else pure d.core) >>= fun core =>
  (if core.windowsWritten = 0 then
      core.stream.writeWindow (WindowEncoder.new none core.opts.checksum) (some [])
    else pure core.stream) >>= fun stream =>
  pure (stream.finish, core.windowsWritten)

/-- `encode_all`: the window size capped to the target (at least 64), one
chunk, and `finish`. -/
def encodeAll (cs : Codecs) (source target : List UInt8) (opts : CompressOptions) :
    Result EncodeError (List UInt8) :=
  let opts := if target.length < opts.windowSize then { opts with windowSize := max target.length 64 }
    else opts
  DeltaEncoder.new cs source opts >>= fun enc =>
  enc.writeTarget cs target >>= fun enc =>
  enc.finish cs >>= fun r => pure r.1

/-! ## What emission feeds the window encoder -/

/-- **Emission is the instructions' copy program.**  Over a list that covers
the target from `p`, `emit_instructions` never panics: it feeds the window
encoder the program `toOps` reads off the list, and stops at the end of the
target. -/
theorem emitInstructionStep_foldlM {source target : List UInt8} :
    ∀ {p : Nat} {insts : List Instruction} (we : WindowEncoder),
      Covers source target p target.length insts →
      insts.foldlM (emitInstructionStep target) (we, p) =
        .ok (we.feedAll (toOps target p insts), target.length)
  | p, [], we, (h : p = target.length) => by
    subst h
    rfl
  | p, inst :: insts, we, ⟨hpos, hrep, hrest⟩ => by
    have hend := hrep.end_le
    rw [List.foldlM_cons]
    cases inst with
    | add len =>
      have hslice : (slice target p (p + len) : Result EncodeError _) = .ok ((target.drop p).take len) := by
        rw [slice_of_le (Nat.le_add_right p len) hend, Nat.add_sub_cancel_left]
      simp only [emitInstructionStep, hslice, bind_ok']
      exact emitInstructionStep_foldlM _ hrest
    | copy len addr mode =>
      exact emitInstructionStep_foldlM _ hrest
    | run len =>
      -- the RUN's byte is read where it starts, inside the target
      have hlt : p < target.length := by
        simp only [instLen_run] at hpos hend
        omega
      simp only [emitInstructionStep, index_of_lt hlt, bind_ok']
      have hbyte : target[p]?.getD 0 = target[p] := by rw [List.getElem?_eq_getElem hlt]; rfl
      rw [← hbyte]
      exact emitInstructionStep_foldlM _ hrest

theorem emitInstructions_eq {source target : List UInt8} {insts : List Instruction}
    (we : WindowEncoder) (h : Valid source target insts) :
    emitInstructions we target insts = .ok (we.feedAll (toOps target 0 insts)) := by
  rw [emitInstructions, emitInstructionStep_foldlM we h, bind_ok']
  rfl

/-! ## What encoding a window keeps -/

theorem MatchEngine.indexSource_config {ε : Type} {e e' : MatchEngine} {src : List UInt8}
    (h : (e.indexSource src : Result ε MatchEngine) = .ok e') : e'.config = e.config := by
  unfold MatchEngine.indexSource at h
  split at h
  · cases h; rfl
  · split at h
    · simp at h
    · cases h; rfl
    · simp at h

theorem MatchEngine.findMatches_config {ε : Type} {e e' : MatchEngine} {target : List UInt8}
    {source : Option (List UInt8)} {insts : List Instruction}
    (h : (e.findMatches target source : Result ε _) = .ok (insts, e')) : e'.config = e.config := by
  unfold MatchEngine.findMatches at h
  split at h
  · cases h; rfl
  · obtain ⟨start, -, h⟩ := bind_eq_ok h
    split at h
    · simp at h
    · simp at h
    · obtain ⟨_, -, h⟩ := bind_eq_ok h
      cases h; rfl

/-- What encoding a window leaves as it was: the options, the source, and the
profile of the engine. -/
structure EncoderCore.Keeps (c c' : EncoderCore) : Prop where
  opts : c'.opts = c.opts
  source : c'.source = c.source
  config : c'.engine.map MatchEngine.config = c.engine.map MatchEngine.config

namespace EncoderCore

variable {cs : Codecs} {c c' : EncoderCore} {window : List UInt8}

theorem Keeps.refl (c : EncoderCore) : c.Keeps c := ⟨rfl, rfl, rfl⟩

theorem Keeps.trans {c₁ c₂ c₃ : EncoderCore} (h₁ : c₁.Keeps c₂) (h₂ : c₂.Keeps c₃) : c₁.Keeps c₃ :=
  ⟨h₂.opts.trans h₁.opts, h₂.source.trans h₁.source, h₂.config.trans h₁.config⟩

theorem findMatches_keeps {insts : List Instruction} (h : c.findMatches window = .ok (insts, c')) :
    c.Keeps c' := by
  unfold findMatches at h
  split at h
  · simp [Rust.panic] at h
  · next e he =>
    obtain ⟨r, hr, h⟩ := bind_eq_ok h
    cases h
    exact ⟨rfl, rfl, by simp [he, MatchEngine.findMatches_config hr]⟩

theorem instructionsFor_keeps {insts : List Instruction}
    (h : c.instructionsFor window = .ok (insts, c')) : c.Keeps c' := by
  unfold instructionsFor at h
  split at h
  · cases h; exact .refl c
  · obtain ⟨r, hr, h⟩ := bind_eq_ok h
    obtain ⟨_, -, h⟩ := bind_eq_ok h
    cases h
    exact findMatches_keeps hr

theorem encodeWindow_keeps (h : c.encodeWindow cs window = .ok c') : c.Keeps c' := by
  dsimp only [encodeWindow] at h
  obtain ⟨r, hr, h⟩ := bind_eq_ok h
  obtain ⟨_, -, h⟩ := bind_eq_ok h
  obtain ⟨_, -, h⟩ := bind_eq_ok h
  cases h
  exact (instructionsFor_keeps hr).trans ⟨rfl, rfl, rfl⟩

/-- Windows encoded one after another, as `write_target` and `finish` hand
them to `encode_window`. -/
def encodeWindows (cs : Codecs) (c : EncoderCore) (windows : List (List UInt8)) :
    Result EncodeError EncoderCore :=
  windows.foldlM (fun c w => c.encodeWindow cs w) c

@[simp] theorem encodeWindows_nil : c.encodeWindows cs [] = .ok c := rfl

@[simp] theorem encodeWindows_cons (w : List UInt8) (ws : List (List UInt8)) :
    c.encodeWindows cs (w :: ws) = c.encodeWindow cs w >>= fun c' => c'.encodeWindows cs ws := rfl

theorem encodeWindows_append (ws ws' : List (List UInt8)) :
    c.encodeWindows cs (ws ++ ws') = c.encodeWindows cs ws >>= fun c' => c'.encodeWindows cs ws' :=
  List.foldlM_append

theorem encodeWindows_keeps {ws : List (List UInt8)} :
    c.encodeWindows cs ws = .ok c' → c.Keeps c' := by
  induction ws generalizing c with
  | nil => intro h; cases h; exact .refl _
  | cons w ws ih =>
    intro h
    obtain ⟨c₁, h₁, h⟩ := bind_eq_ok h
    exact (encodeWindow_keeps h₁).trans (ih h)

end EncoderCore

/-- The engine `DeltaEncoder::new` builds: one of a profile whenever the
level asks for matching. -/
def EncoderCore.HasEngine (c : EncoderCore) : Prop :=
  0 < c.opts.level → ∃ e, c.engine = some e ∧ e.config.Profile

theorem EncoderCore.Keeps.hasEngine {c c' : EncoderCore} (hk : c.Keeps c') (h : c.HasEngine) :
    c'.HasEngine := by
  intro hlevel
  obtain ⟨e, he, hprof⟩ := h (hk.opts ▸ hlevel)
  have hcfg := hk.config
  rw [he] at hcfg
  cases he' : c'.engine with
  | none => rw [he'] at hcfg; cases hcfg
  | some e' =>
    rw [he', Option.map_some, Option.map_some, Option.some_inj] at hcfg
    exact ⟨e', rfl, hcfg ▸ hprof⟩

/-- **`DeltaEncoder::new`** keeps the options and the source, buffers
nothing, and builds an engine of the level's profile unless the level is `0`. -/
theorem DeltaEncoder.new_spec {cs : Codecs} {source : List UInt8} {opts : CompressOptions}
    {d : DeltaEncoder} (h : DeltaEncoder.new cs source opts = .ok d) :
    d.core.opts = opts ∧ d.core.source = source ∧ d.buffer = [] ∧ d.core.HasEngine := by
  dsimp only [DeltaEncoder.new] at h
  obtain ⟨engine, hengine, h⟩ := bind_eq_ok h
  cases h
  refine ⟨rfl, rfl, rfl, fun hlevel => ?_⟩
  have hprof := MatcherConfig.profile_of_mem (configForLevel_mem opts.level)
  have hlevel : 0 < opts.level := hlevel
  simp only [hlevel, true_and, if_true] at hengine
  split at hengine
  · -- a source to index: the engine indexing returns has the profile it was made with
    obtain ⟨e, he, hengine⟩ := bind_eq_ok hengine
    cases hengine
    exact ⟨e, rfl, (MatchEngine.indexSource_config he) ▸ hprof⟩
  · cases hengine
    exact ⟨_, rfl, hprof⟩

theorem fastPathBody_keeps {cs : Codecs} {w : Nat} {data : List UInt8} {s s' : EncoderCore × Nat}
    (h : fastPathBody cs w data s = .next s') : s.1.Keeps s'.1 := by
  unfold fastPathBody at h
  split at h
  · cases h
  · split at h
    · split at h
      · next c hc =>
        cases h
        exact EncoderCore.encodeWindow_keeps hc
      · cases h
    · cases h

theorem fastPathBody_done {cs : Codecs} {w : Nat} {data : List UInt8} {s s' : EncoderCore × Nat}
    (h : fastPathBody cs w data s = .done (.ok s')) : s' = s := by
  unfold fastPathBody at h
  split at h
  · cases h
  · split at h
    · split at h <;> cases h
    · cases h; rfl

theorem DeltaEncoder.completeBuffer_keeps {cs : Codecs} {d p : DeltaEncoder} {data : List UInt8}
    {off : Nat} (h : d.completeBuffer cs data = .ok (p, off)) : d.core.Keeps p.core := by
  unfold completeBuffer at h
  split at h
  · obtain ⟨need, -, h⟩ := bind_eq_ok h
    dsimp only at h
    split at h
    · obtain ⟨core, hc, h⟩ := bind_eq_ok h
      cases h
      exact EncoderCore.encodeWindow_keeps hc
    · cases h
      exact .refl _
  · cases h
    exact .refl _

/-- Every encoder core `write_target` passes through keeps the options, the
source and the engine's profile. -/
theorem DeltaEncoder.writeTarget_keeps {cs : Codecs} {d d' : DeltaEncoder} {data : List UInt8}
    (h : d.writeTarget cs data = .ok d') : d.core.Keeps d'.core := by
  obtain ⟨p, hp, h⟩ := bind_eq_ok h
  split at h
  · cases h
  · cases h
  · next core offset hrun =>
    cases h
    refine (completeBuffer_keeps hp).trans ?_
    exact Loop.run_invariant (fun s => p.1.core.Keeps s.1)
      (fun r => ∀ s', r = .ok s' → p.1.core.Keeps s'.1)
      (fun s s' hs hnext => hs.trans (fastPathBody_keeps hnext))
      (fun s r hs hdone s' hr => by rw [hr] at hdone; rw [fastPathBody_done hdone]; exact hs)
      _ _ _ (.refl _) hrun _ rfl

/-! ## Windows of a positive size -/

/-- **The fast path encodes the full windows of the chunk from `off`.**  Each
iteration hands one window to `encode_window` and moves the offset by the
window size; the loop stops at the first offset without a full window. -/
theorem fastPath_run (cs : Codecs) {w : Nat} {data : List UInt8} (hw : 0 < w)
    (hfit : data.length + w < 2 ^ 64) :
    ∀ n (c : EncoderCore) off, off ≤ data.length → (data.length - off) / w < n →
      Loop.run (fastPathBody cs w data) n (c, off) =
        some ((c.encodeWindows cs (windows w (data.drop off))).map
          fun c' => (c', off + (data.length - off) / w * w)) := by
  intro n
  induction n with
  | zero => intro c off _ hn; exact absurd hn (Nat.not_lt_zero _)
  | succ n ih =>
    intro c off hoff hn
    have hstop : (addChecked 64 off w : Result EncodeError Nat) = .ok (off + w) :=
      addChecked_of_lt (by omega)
    by_cases hfull : off + w ≤ data.length
    · have hlen : w ≤ (data.drop off).length := by simp; omega
      have hdiv : (data.length - off) / w = (data.length - (off + w)) / w + 1 := by
        rw [Nat.div_eq_sub_div hw (by omega), Nat.sub_sub]
      rw [windows_of_le hw hlen, EncoderCore.encodeWindows_cons, List.drop_drop]
      cases hc : c.encodeWindow cs ((data.drop off).take w) with
      | error e =>
        have hdone : fastPathBody cs w data (c, off) = .done (.error e) := by
          simp [fastPathBody, hstop, hfull, hc]
        rw [Loop.run_of_done n hdone]
        rfl
      | ok c' =>
        have hnext : fastPathBody cs w data (c, off) = .next (c', off + w) := by
          simp [fastPathBody, hstop, hfull, hc]
        have hoff' : off + w + (data.length - (off + w)) / w * w =
            off + (data.length - off) / w * w := by
          rw [hdiv, Nat.succ_mul]; omega
        rw [Loop.run_of_next n hnext, ih c' (off + w) hfull (by omega), hoff', bind_ok']
    · -- no full window is left: the loop stops where it is
      have hlt : (data.drop off).length < w := by simp; omega
      have hdiv : (data.length - off) / w = 0 := Nat.div_eq_of_lt (by omega)
      have hdone : fastPathBody cs w data (c, off) = .done (.ok (c, off)) := by
        simp [fastPathBody, hstop, hfull]
      rw [Loop.run_of_done n hdone, windows_of_lt hlt, hdiv, Nat.zero_mul, Nat.add_zero]
      rfl

namespace DeltaEncoder

variable {cs : Codecs} {d : DeltaEncoder} {data : List UInt8}

theorem completeBuffer_empty (hbuf : d.buffer = []) : d.completeBuffer cs data = .ok (d, 0) := by
  rw [completeBuffer, if_neg (by simp [hbuf])]
  rfl

theorem completeBuffer_full (hne : d.buffer ≠ []) (hbuf : d.buffer.length < d.core.opts.windowSize)
    (hfull : d.core.opts.windowSize ≤ d.buffer.length + data.length) :
    d.completeBuffer cs data =
      d.core.encodeWindow cs (d.buffer ++ data.take (d.core.opts.windowSize - d.buffer.length)) >>=
        fun core => pure (⟨core, []⟩, d.core.opts.windowSize - d.buffer.length) := by
  have hmin : min (d.core.opts.windowSize - d.buffer.length) data.length =
      d.core.opts.windowSize - d.buffer.length := by omega
  have hlen : (d.buffer ++ data.take (d.core.opts.windowSize - d.buffer.length)).length =
      d.core.opts.windowSize := by simp; omega
  simp only [completeBuffer, if_pos hne, subChecked_of_le hbuf.le, bind_ok', hmin, if_pos hlen]

theorem completeBuffer_short (hne : d.buffer ≠ [])
    (hlt : d.buffer.length + data.length < d.core.opts.windowSize) :
    d.completeBuffer cs data = .ok (⟨d.core, d.buffer ++ data⟩, data.length) := by
  have hmin : min (d.core.opts.windowSize - d.buffer.length) data.length = data.length := by omega
  have hlen : (d.buffer ++ data).length ≠ d.core.opts.windowSize := by simp; omega
  simp only [completeBuffer, if_pos hne, subChecked_of_le (Nat.le_of_lt (by omega : d.buffer.length <
    d.core.opts.windowSize)), bind_ok', hmin, List.take_length, if_neg hlen]
  rfl

/-- What follows the first phase: the fast path over the chunk from `off`,
and the rest of the chunk after the buffer. -/
theorem writeTarget_of_completeBuffer {p : DeltaEncoder} {off : Nat}
    (hp : d.completeBuffer cs data = .ok (p, off)) (hw : 0 < p.core.opts.windowSize)
    (hoff : off ≤ data.length) (hfit : data.length + p.core.opts.windowSize < 2 ^ 64) :
    d.writeTarget cs data =
      (p.core.encodeWindows cs (windows p.core.opts.windowSize (data.drop off))).map
        fun core => ⟨core, p.buffer ++ windowRest p.core.opts.windowSize (data.drop off)⟩ := by
  have hrest : ∀ o, o ≤ data.length →
      (if o < data.length then p.buffer ++ data.drop o else p.buffer) = p.buffer ++ data.drop o := by
    intro o ho
    split
    · rfl
    · rw [List.drop_of_length_le (by omega), List.append_nil]
  have hdrop : data.drop (off + (data.length - off) / p.core.opts.windowSize * p.core.opts.windowSize) =
      windowRest p.core.opts.windowSize (data.drop off) := by
    rw [windowRest, List.drop_drop, List.length_drop]
  rw [writeTarget, hp, bind_ok', fastPath_run cs hw hfit _ _ _ hoff (by
    have := Nat.div_le_self (data.length - off) p.core.opts.windowSize
    omega)]
  cases p.core.encodeWindows cs (windows p.core.opts.windowSize (data.drop off)) with
  | error e => rfl
  | ok core =>
    have hle : off + (data.length - off) / p.core.opts.windowSize * p.core.opts.windowSize ≤
        data.length := by
      have := Nat.div_mul_le_self (data.length - off) p.core.opts.windowSize
      omega
    simp only [Except.map]
    rw [hrest _ hle, hdrop]
    rfl

/-- **`write_target` over a positive window size.**  With fewer than a
window's bytes buffered, writing a chunk encodes the full windows of the
buffer followed by the chunk, in order, and buffers what is left. -/
theorem writeTarget_windows (hw : 0 < d.core.opts.windowSize)
    (hbuf : d.buffer.length < d.core.opts.windowSize)
    (hfit : data.length + d.core.opts.windowSize < 2 ^ 64) :
    d.writeTarget cs data =
      (d.core.encodeWindows cs (windows d.core.opts.windowSize (d.buffer ++ data))).map
        fun core => ⟨core, windowRest d.core.opts.windowSize (d.buffer ++ data)⟩ := by
  by_cases hne : d.buffer = []
  · -- nothing buffered: the fast path starts at the chunk's first byte
    rw [writeTarget_of_completeBuffer (completeBuffer_empty hne) hw (Nat.zero_le _) hfit, hne]
    rfl
  by_cases hfull : d.core.opts.windowSize ≤ d.buffer.length + data.length
  · -- the buffered window is completed from the chunk and encoded first
    have hlen : d.core.opts.windowSize ≤ (d.buffer ++ data).length := by simp; omega
    have htake : (d.buffer ++ data).take d.core.opts.windowSize =
        d.buffer ++ data.take (d.core.opts.windowSize - d.buffer.length) := by
      rw [List.take_append, List.take_of_length_le hbuf.le]
    have hdrop : (d.buffer ++ data).drop d.core.opts.windowSize =
        data.drop (d.core.opts.windowSize - d.buffer.length) := by
      rw [List.drop_append, List.drop_of_length_le hbuf.le, List.nil_append]
    rw [windows_of_le hw hlen, windowRest_of_le hw hlen, htake, hdrop,
      EncoderCore.encodeWindows_cons]
    cases hc : d.core.encodeWindow cs
        (d.buffer ++ data.take (d.core.opts.windowSize - d.buffer.length)) with
    | error e =>
      rw [writeTarget, completeBuffer_full hne hbuf hfull, hc]
      rfl
    | ok core =>
      have hopts := (EncoderCore.encodeWindow_keeps hc).opts
      have hp : d.completeBuffer cs data =
          .ok (⟨core, []⟩, d.core.opts.windowSize - d.buffer.length) := by
        rw [completeBuffer_full hne hbuf hfull, hc]
        rfl
      rw [writeTarget_of_completeBuffer hp (by rw [hopts]; exact hw) (by omega)
        (by rw [hopts]; exact hfit)]
      simp only [hopts, bind_ok', List.nil_append]
  · -- the chunk only adds to the buffered window
    have hlt : (d.buffer ++ data).length < d.core.opts.windowSize := by simp; omega
    have hnil : ([] : List UInt8).length < d.core.opts.windowSize := hw
    rw [writeTarget_of_completeBuffer (completeBuffer_short hne (by omega)) hw le_rfl hfit,
      windows_of_lt hlt, windowRest_of_lt hlt, List.drop_length, windows_of_lt hnil,
      windowRest_of_lt hnil, List.append_nil]

/-- After a write to a positive window size the options are the same and the
buffer holds what is left after the full windows. -/
theorem writeTarget_inv {d' : DeltaEncoder} (hw : 0 < d.core.opts.windowSize)
    (hbuf : d.buffer.length < d.core.opts.windowSize)
    (hfit : data.length + d.core.opts.windowSize < 2 ^ 64) (h : d.writeTarget cs data = .ok d') :
    d'.core.opts = d.core.opts ∧
      d'.buffer = windowRest d.core.opts.windowSize (d.buffer ++ data) := by
  rw [writeTarget_windows hw hbuf hfit] at h
  cases hc : d.core.encodeWindows cs (windows d.core.opts.windowSize (d.buffer ++ data)) with
  | error e => rw [hc] at h; cases h
  | ok core =>
    rw [hc] at h
    cases h
    exact ⟨(EncoderCore.encodeWindows_keeps hc).opts, rfl⟩

/-- **Writing in two chunks is writing their concatenation.** -/
theorem writeTarget_append (xs ys : List UInt8) (hw : 0 < d.core.opts.windowSize)
    (hbuf : d.buffer.length < d.core.opts.windowSize)
    (hfit : xs.length + ys.length + d.core.opts.windowSize < 2 ^ 64) :
    d.writeTarget cs (xs ++ ys) = d.writeTarget cs xs >>= fun d' => d'.writeTarget cs ys := by
  rw [writeTarget_windows hw hbuf (by simp; omega), writeTarget_windows hw hbuf (by omega),
    ← List.append_assoc, windows_append hw, windowRest_append hw, EncoderCore.encodeWindows_append]
  cases hc : d.core.encodeWindows cs (windows d.core.opts.windowSize (d.buffer ++ xs)) with
  | error e => rfl
  | ok core =>
    have hopts := (EncoderCore.encodeWindows_keeps hc).opts
    have hrest := length_windowRest_lt hw (d.buffer ++ xs)
    simp only [bind_ok', Except.map]
    rw [writeTarget_windows (by rw [hopts]; exact hw) (by rw [hopts]; exact hrest)
      (by rw [hopts]; omega)]
    simp only [hopts]
    rfl

/-- **Any chunking of a target leaves the encoder that writing it at once
does**: the same windows were encoded, in the same order, and the same bytes
are buffered. -/
theorem writeTarget_chunks (chunks : List (List UInt8)) (hw : 0 < d.core.opts.windowSize)
    (hbuf : d.buffer.length < d.core.opts.windowSize)
    (hfit : chunks.flatten.length + d.core.opts.windowSize < 2 ^ 64) :
    chunks.foldlM (fun d x => d.writeTarget cs x) d = d.writeTarget cs chunks.flatten := by
  induction chunks generalizing d with
  | nil =>
    have hlt : (d.buffer ++ []).length < d.core.opts.windowSize := by simpa using hbuf
    rw [List.foldlM_nil, List.flatten_nil, writeTarget_windows hw hbuf (by simpa using hfit),
      windows_of_lt hlt, windowRest_of_lt hlt, List.append_nil]
    rfl
  | cons x xs ih =>
    have hlen : x.length + xs.flatten.length + d.core.opts.windowSize < 2 ^ 64 := by
      simpa using hfit
    rw [List.foldlM_cons, List.flatten_cons, writeTarget_append x xs.flatten hw hbuf hlen]
    cases hx : d.writeTarget cs x with
    | error e => rfl
    | ok d' =>
      obtain ⟨hopts, hbuf'⟩ := writeTarget_inv hw hbuf (by omega) hx
      exact ih (by rw [hopts]; exact hw)
        (by rw [hbuf', hopts]; exact length_windowRest_lt hw _) (by rw [hopts]; omega)

end DeltaEncoder

/-! ## Without secondary compression -/

section Codecs

variable {source target data : List UInt8} {opts : CompressOptions}

theorem DeltaEncoder.new_codecs (h : opts.secondary = .none) (cs cs' : Codecs) :
    DeltaEncoder.new cs source opts = DeltaEncoder.new cs' source opts := by
  simp only [DeltaEncoder.new, h, SecondaryCompression.backend]

theorem EncoderCore.encodeWindow_codecs {c : EncoderCore} {window : List UInt8}
    (h : c.opts.secondary = .none) (cs cs' : Codecs) :
    c.encodeWindow cs window = c.encodeWindow cs' window := by
  dsimp only [EncoderCore.encodeWindow]
  cases hr : c.instructionsFor window with
  | error e => rfl
  | ok r =>
    obtain ⟨insts, c₁⟩ := r
    have hsec : c₁.opts.secondary = .none := by rw [(instructionsFor_keeps hr).opts, h]
    simp only [bind_ok', hsec, SecondaryCompression.backend]

theorem fastPathBody_codecs {w : Nat} {s : EncoderCore × Nat} (h : s.1.opts.secondary = .none)
    (cs cs' : Codecs) : fastPathBody cs w data s = fastPathBody cs' w data s := by
  simp only [fastPathBody, EncoderCore.encodeWindow_codecs h cs cs']

theorem DeltaEncoder.completeBuffer_codecs {d : DeltaEncoder} (h : d.core.opts.secondary = .none)
    (cs cs' : Codecs) : d.completeBuffer cs data = d.completeBuffer cs' data := by
  simp only [completeBuffer, EncoderCore.encodeWindow_codecs h cs cs']

theorem DeltaEncoder.writeTarget_codecs {d : DeltaEncoder} (h : d.core.opts.secondary = .none)
    (cs cs' : Codecs) : d.writeTarget cs data = d.writeTarget cs' data := by
  unfold writeTarget
  rw [completeBuffer_codecs h cs cs']
  cases hp : d.completeBuffer cs' data with
  | error e => rfl
  | ok p =>
    have hsec : p.1.core.opts.secondary = .none := by rw [(completeBuffer_keeps hp).opts, h]
    simp only [bind_ok']
    -- the fast path keeps the options, so the two bodies agree at every iteration
    rw [Loop.run_congr (fun s => s.1.opts.secondary = .none)
      (fun s s' hs hnext => by rw [(fastPathBody_keeps hnext).opts]; exact hs)
      (fun s hs => fastPathBody_codecs hs cs cs') _ _ hsec]

theorem DeltaEncoder.finish_codecs {d : DeltaEncoder} (h : d.core.opts.secondary = .none)
    (cs cs' : Codecs) : d.finish cs = d.finish cs' := by
  simp only [finish, EncoderCore.encodeWindow_codecs h cs cs']

/-- **Without secondary compression the encoder never calls a compression
library**: its output is the same whatever the libraries do. -/
theorem encodeAll_codecs (h : opts.secondary = .none) (cs cs' : Codecs) :
    encodeAll cs source target opts = encodeAll cs' source target opts := by
  have hcap : (if target.length < opts.windowSize then { opts with windowSize := max target.length 64 }
      else opts).secondary = .none := by
    split <;> exact h
  unfold encodeAll
  dsimp only
  rw [DeltaEncoder.new_codecs hcap cs cs']
  cases hnew : DeltaEncoder.new cs' source _ with
  | error e => rfl
  | ok d =>
    have hd : d.core.opts.secondary = .none := by rw [(DeltaEncoder.new_spec hnew).1]; exact hcap
    simp only [bind_ok']
    rw [DeltaEncoder.writeTarget_codecs hd cs cs']
    cases hw : d.writeTarget cs' target with
    | error e => rfl
    | ok d' =>
      simp only [bind_ok']
      rw [DeltaEncoder.finish_codecs (by rw [(DeltaEncoder.writeTarget_keeps hw).opts]; exact hd)
        cs cs']

end Codecs

/-! ## A window size of zero -/

/-- An empty window has no instructions: level `0` adds nothing, and the
engine emits no ADD for fewer bytes than `MIN_MATCH`. -/
theorem EncoderCore.instructionsFor_nil {c : EncoderCore} (he : c.HasEngine) :
    ∃ c', c.instructionsFor [] = .ok ([], c') := by
  unfold instructionsFor
  split
  · exact ⟨c, rfl⟩
  · next hlevel =>
    obtain ⟨e, he, hprof⟩ := he (Nat.pos_of_ne_zero hlevel)
    have hlook : 0 < e.config.smallLook := by rw [hprof.smallLook]; decide
    exact ⟨_, by simp [findMatches, he, MatchEngine.findMatches, hlook, emitAddAll, optimize]; rfl⟩

/-- Without secondary compression an empty window is always encoded. -/
theorem EncoderCore.encodeWindow_nil (cs : Codecs) {c : EncoderCore}
    (hsec : c.opts.secondary = .none) (he : c.HasEngine) : ∃ c', c.encodeWindow cs [] = .ok c' := by
  obtain ⟨c₁, h₁⟩ := instructionsFor_nil he
  have hsec₁ : c₁.opts.secondary = .none := by rw [(instructionsFor_keeps h₁).opts, hsec]
  dsimp only [encodeWindow]
  rw [h₁, bind_ok']
  simp only [emitInstructions, List.foldlM_nil, hsec₁, SecondaryCompression.backend, pure_bind]
  -- the header of an empty window is a few bytes long, whatever the source and checksum
  have hempty : ∀ wh : WindowHeader, wh.targetWindowLen = 0 → wh.dataLen = 0 → wh.instLen = 0 →
      wh.addrLen = 0 → wh.encLenSum < 2 ^ 64 := by
    intro wh h₁ h₂ h₃ h₄
    unfold WindowHeader.encLenSum
    rw [h₁, h₂, h₃, h₄]
    cases wh.hasChecksum <;> decide
  rw [WindowSections.assemble_eq _ _ (hempty _ rfl rfl rfl rfl)]
  exact ⟨_, rfl⟩

/-- **With a window size of `0`, `write_target` never returns.**  The fast
path's condition `offset + 0 <= data.len()` always holds and its offset never
moves: it encodes an empty window again and again, for any chunk, even an
empty one. -/
theorem writeTarget_windowSize_zero {cs : Codecs} {source : List UInt8} {opts : CompressOptions}
    {d : DeltaEncoder} (hnew : DeltaEncoder.new cs source opts = .ok d) (hw : opts.windowSize = 0)
    (hsec : opts.secondary = .none) (data : List UInt8) :
    d.writeTarget cs data = .error .diverge := by
  obtain ⟨hopts, -, hbuf, he⟩ := DeltaEncoder.new_spec hnew
  have hforever : ∀ s : EncoderCore × Nat, s.2 = 0 ∧ s.1.opts = opts ∧ s.1.HasEngine →
      ∃ s', fastPathBody cs 0 data s = .next s' ∧ s'.2 = 0 ∧ s'.1.opts = opts ∧ s'.1.HasEngine := by
    rintro ⟨c, off⟩ ⟨hoff, hc, hec⟩
    dsimp only at hoff hc hec
    subst hoff
    obtain ⟨c', hc'⟩ := EncoderCore.encodeWindow_nil cs (by rw [hc]; exact hsec) hec
    have hk := EncoderCore.encodeWindow_keeps hc'
    refine ⟨(c', 0), ?_, rfl, hk.opts.trans hc, hk.hasEngine hec⟩
    simp [fastPathBody, addChecked, hc']
  have hrun := Loop.run_eq_none_of_forever _ hforever (data.length + 1) (d.core, 0) ⟨rfl, hopts, he⟩
  rw [DeltaEncoder.writeTarget, DeltaEncoder.completeBuffer_empty hbuf, bind_ok']
  simp only [hopts, hw, hrun]

theorem writeTarget_windowSize_zero_empty :
    ∃ d, DeltaEncoder.new ⟨Except.ok, Except.ok, fun _ => Except.ok, Except.ok⟩ []
        ⟨6, 0, true, .none⟩ = .ok d ∧
      d.writeTarget ⟨Except.ok, Except.ok, fun _ => Except.ok, Except.ok⟩ [] = .error .diverge := by
  obtain ⟨d, hnew⟩ : ∃ d, DeltaEncoder.new ⟨Except.ok, Except.ok, fun _ => Except.ok, Except.ok⟩ []
      ⟨6, 0, true, .none⟩ = .ok d := ⟨_, rfl⟩
  exact ⟨d, hnew, writeTarget_windowSize_zero hnew rfl rfl []⟩

/-! ## Adjacent runs -/

/-- **Two runs of different bytes are encoded into a delta that does not
decode to the target.**  On `0^8 1^8` with no source and the default options
the engine finds a RUN of eight `0`s and a RUN of eight `1`s, `optimize`
merges them into one RUN of sixteen, and `emit_instructions` writes that RUN
with the byte where it starts.  The decoder rebuilds sixteen `0`s: it rejects
the window's Adler-32 checksum, and without the checksum it returns them. -/
theorem encodeAll_adjacent_runs_corrupt (cs : Codecs) :
    encodeAll cs [] (List.replicate 8 0 ++ List.replicate 8 1) CompressOptions.default =
        .ok [214, 195, 196, 0, 0, 4, 12, 16, 0, 1, 2, 0, 0, 52, 0, 9, 0, 0, 16] ∧
      decodeMemory cs [214, 195, 196, 0, 0, 4, 12, 16, 0, 1, 2, 0, 0, 52, 0, 9, 0, 0, 16] [] =
        .error (.err (.checksumMismatch 3407881 1048577)) ∧
      encodeAll cs [] (List.replicate 8 0 ++ List.replicate 8 1)
          { CompressOptions.default with checksum := false } =
        .ok [214, 195, 196, 0, 0, 0, 8, 16, 0, 1, 2, 0, 0, 0, 16] ∧
      decodeMemory cs [214, 195, 196, 0, 0, 0, 8, 16, 0, 1, 2, 0, 0, 0, 16] [] =
        .ok (List.replicate 16 0) := by
  -- no secondary compression, so the libraries are never called: run the
  -- encoder with ones that return their input
  refine ⟨?_, rfl, ?_, rfl⟩
  · rw [encodeAll_codecs rfl cs ⟨Except.ok, Except.ok, fun _ => Except.ok, Except.ok⟩]
    decide +kernel
  · rw [encodeAll_codecs rfl cs ⟨Except.ok, Except.ok, fun _ => Except.ok, Except.ok⟩]
    decide +kernel

end Oxidelta.Compress
