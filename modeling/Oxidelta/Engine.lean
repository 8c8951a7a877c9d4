import Oxidelta.Hash.Found
import Oxidelta.Compress.Encoder
import Oxidelta.Vcdiff.Stream

/-!
# The one-shot delta engine (`engine.rs`)

`encode_with_options` cuts the target into windows of `window_size` bytes
and, for each, builds a new match engine for the level's profile, indexes the
whole source, finds the window's matches, and feeds the instructions to a
window encoder whose copy window is the whole source, without
`pipeline::optimize`.  An empty target is one empty window.  `decode` is
`decode_memory`.

The writer is the `Vec<u8>` the caller passes: the model starts from its
bytes and returns them with the delta appended.

Main results:

* `encodeWindowAt_spec` — one iteration writes a window that decodes, on its
  own, to its slice of the target;
* `encodeRun_spec` — the window loop writes, for a positive window size,
  windows whose targets are the target cut in order;
* `encodeWithOptions_roundtrip` — **the engine's round trip**: for every
  source and target, every level and every window size from one byte to the
  hard window limit, `encode_with_options` returns a delta that `decode`
  turns back into the target.
-/

namespace Oxidelta.Engine

open Rust Oxidelta.Vcdiff Oxidelta.Hash CopyProgram

/-! ## The model -/

/-- `EncodeOptions`. -/
structure EncodeOptions where
  level : Nat
  windowSize : Nat
  checksum : Bool

/-- `EncodeOptions::default`: level 6, windows of 8 MiB, checksums. -/
def EncodeOptions.default : EncodeOptions := ⟨6, 2 ^ 23, true⟩

/-- `EncodeError`. -/
inductive EncodeError where
  | io (e : IoError)

/-- `find_matches_no_source`: a new engine without a source. -/
def findMatchesNoSource (config : MatcherConfig) (target : List UInt8) :
    Result EncodeError (List Instruction) :=
  (MatchEngine.new config 0 (max target.length 64)).findMatches target none >>= fun r => pure r.1

/-- `find_matches_with_source`: a new engine with the whole source indexed. -/
def findMatchesWithSource (config : MatcherConfig) (source target : List UInt8) :
    Result EncodeError (List Instruction) :=
  (MatchEngine.new config source.length (max target.length 64)).indexSource source >>= fun e =>
  e.findMatches target (some source) >>= fun r => pure r.1

/-- `emit_instructions`: the body of the function of the same name in
`compress/encoder.rs`, whose only failures are panics; `_source_len` is
unused. -/
def emitInstructions (we : WindowEncoder) (target : List UInt8) (_sourceLen : Nat)
    (instructions : List Instruction) : Result EncodeError WindowEncoder :=
  mapErr (fun e : Compress.EncodeError => match e with | .io e => EncodeError.io e)
    (Compress.emitInstructions we target instructions)

/-- One iteration of the window loop of `encode_with_options`: the window at
`target_offset`, matched and emitted, written to the stream; the stream and
the offset after it. -/
def encodeWindowAt (config : MatcherConfig) (source target : List UInt8) (opts : EncodeOptions)
    (stream : StreamEncoder) (targetOffset : Nat) : Result EncodeError (StreamEncoder × Nat) := do
  let winEnd := min (← addChecked 64 targetOffset opts.windowSize) target.length
  let winTarget ← slice target targetOffset winEnd
  let instructions ← if source.isEmpty then findMatchesNoSource config winTarget
    else findMatchesWithSource config source winTarget
  let sourceWin : Option SourceWindow := if !source.isEmpty then some ⟨source.length, 0⟩ else none
  let we ← emitInstructions (WindowEncoder.new sourceWin opts.checksum) winTarget source.length
    instructions
  let stream ← stream.writeWindow we (some winTarget)
  pure (stream, winEnd)

/-- `while target_offset < target.len()`. -/
def encodeBody (config : MatcherConfig) (source target : List UInt8) (opts : EncodeOptions)
    (s : StreamEncoder × Nat) : Loop.Step (StreamEncoder × Nat) (Result EncodeError StreamEncoder) :=
  if s.2 < target.length then
    match encodeWindowAt config source target opts s.1 s.2 with
    | .ok r => .next r
    | .error e => .done (.error e)
  else .done (.ok s.1)

/-- `encode_with_options`: the bytes of `output` with the delta appended.  With
a positive window size the loop runs once per window, at most once per byte;
a window size of `0` never moves past the first window, which the model
reports as `diverge`. -/
def encodeWithOptions (source target output : List UInt8) (opts : EncodeOptions) :
    Result EncodeError (List UInt8) := do
  let config := configForLevel opts.level
  let stream : StreamEncoder := { StreamEncoder.new opts.checksum with writer := output }
  let stream ← match Loop.run (encodeBody config source target opts) (target.length + 1) (stream, 0) with
    | none => .error .diverge
    | some r => r
  let stream ← if target.isEmpty then
      stream.writeWindow (WindowEncoder.new none opts.checksum) (some [])
    else pure stream
  pure stream.finish

/-- `encode`: the default options. -/
def encode (source target output : List UInt8) : Result EncodeError (List UInt8) :=
  encodeWithOptions source target output EncodeOptions.default

/-- `decode`. -/
def decode (cs : Compress.Codecs) (source delta : List UInt8) : Result DecodeError (List UInt8) :=
  decodeMemory cs delta source

/-! ## The engine of one window -/

section Window

variable {config : MatcherConfig}

/-- One iteration of `index_source` from a position where a whole large
window of the source remains: it stops, or steps back by `large_step`. -/
theorem indexSourceBody_step {ε : Type} {e : MatchEngine} {src : List UInt8} {s : LargeTable × Nat}
    (hs : s.2 + e.config.largeLook ≤ src.length) :
    ∃ t, indexSourceBody (ε := ε) e src s = .done (.ok t) ∨
      e.config.largeStep ≤ s.2 ∧ indexSourceBody (ε := ε) e src s = .next (t, s.2 - e.config.largeStep) := by
  have hlook : e.largeHash.look ≤ (src.drop s.2).length := by
    rw [e.largeHash_look, List.length_drop]
    omega
  unfold indexSourceBody
  rw [LargeHash.checksum_eq _ hlook]
  dsimp only
  split
  · exact ⟨_, .inl rfl⟩
  · exact ⟨_, .inr ⟨by omega, rfl⟩⟩

/-- `index_source` returns, for a positive source step: the position steps
back from the last whole large window and stops at the first. -/
theorem indexSource_ok {ε : Type} (e : MatchEngine) (hstep : 0 < e.config.largeStep) (src : List UInt8) :
    ∃ e', (e.indexSource src : Result ε MatchEngine) = .ok e' := by
  unfold MatchEngine.indexSource
  split
  · exact ⟨e, rfl⟩
  · next hlen =>
    have hnext : ∀ s s', s.2 + e.config.largeLook ≤ src.length →
        indexSourceBody (ε := ε) e src s = .next s' →
        s'.2 + e.config.largeLook ≤ src.length ∧ s'.2 < s.2 := by
      intro s s' hs hb
      obtain ⟨t, h | ⟨hle, h⟩⟩ := indexSourceBody_step (ε := ε) hs
      · rw [h] at hb
        cases hb
      · rw [h] at hb
        cases hb
        exact ⟨by omega, by omega⟩
    have h0 : src.length - e.config.largeLook + e.config.largeLook ≤ src.length := by omega
    obtain ⟨r, hr⟩ := Option.isSome_iff_exists.1 (Loop.run_isSome_of_measure
      (fun s => s.2 + e.config.largeLook ≤ src.length) (fun s => s.2) hnext
      (e.largeTable, src.length - e.config.largeLook) h0 (src.length + 1) (by dsimp only; omega))
    -- the iteration that stops has inserted its checksum
    obtain ⟨t, rfl⟩ := Loop.run_invariant (fun s => s.2 + e.config.largeLook ≤ src.length)
      (fun r => ∃ t, r = .ok t) (fun s s' hs hb => (hnext s s' hs hb).1)
      (fun s b hs hb => by
        obtain ⟨t, h | ⟨-, h⟩⟩ := indexSourceBody_step (ε := ε) hs
        · rw [h] at hb
          cases hb
          exact ⟨t, rfl⟩
        · rw [h] at hb
          cases hb) _ _ _ h0 hr
    rw [hr]
    exact ⟨_, rfl⟩

/-- **The instructions of a window are valid.**  For every profile, the
engine `encode_with_options` builds for a window (new, with the source indexed
when there is one) finds instructions that rebuild the window from the
source. -/
theorem windowInstructions_valid (hprof : config.Profile) (source target : List UInt8)
    (hT : target.length < 2 ^ 32) (hL : source.length + target.length ≤ 2 ^ 64) :
    ∃ insts, (if source.isEmpty then findMatchesNoSource config target
        else findMatchesWithSource config source target) = .ok insts ∧ Valid source target insts := by
  split
  · next hS =>
    obtain rfl : source = [] := List.isEmpty_iff.1 hS
    obtain ⟨insts, e', h, hv, -⟩ := findMatches_valid (ε := EncodeError)
      (MatchEngine.new config 0 (max target.length 64)) hprof target none hT hL
    exact ⟨insts, by rw [findMatchesNoSource, h, bind_ok']; rfl, hv⟩
  · obtain ⟨e, he⟩ := indexSource_ok (ε := EncodeError)
      (MatchEngine.new config source.length (max target.length 64)) hprof.largeStep source
    have hconf : e.config = config := Compress.MatchEngine.indexSource_config he
    obtain ⟨insts, e', h, hv, -⟩ := findMatches_valid (ε := EncodeError) e (hconf ▸ hprof) target
      (some source) hT hL
    exact ⟨insts, by rw [findMatchesWithSource, he, bind_ok', h, bind_ok']; rfl, hv⟩

/-- The copy window `encode_with_options` declares is the whole source. -/
theorem sourceWin_eq (source : List UInt8) :
    (if !source.isEmpty then some ⟨source.length, 0⟩ else none : Option SourceWindow) =
      sourceWindowOf source := by
  unfold sourceWindowOf
  cases source.isEmpty <;> rfl

/-- **One window.**  From an offset inside the target, an iteration of the
window loop matches the next window of at most `window_size` bytes, and
appends to the stream, after the file header, a window that decodes on its
own to that slice of the target. -/
theorem encodeWindowAt_spec (cs : Compress.Codecs) (hprof : config.Profile) {source target : List UInt8}
    {opts : EncodeOptions} (stream : StreamEncoder) {off : Nat} (hoff : off < target.length)
    (hmax : opts.windowSize ≤ hardMaxWinsize) (hS : source.length < 2 ^ 63)
    (hT : target.length < 2 ^ 63) :
    ∃ bytes, encodeWindowAt config source target opts stream off =
        .ok ({ stream.writeHeader with writer := stream.writeHeader.writer ++ bytes },
          min (off + opts.windowSize) target.length) ∧
      bytes ≠ [] ∧
      WindowDecodes cs FileHeader.default.secondaryId source bytes
        ((target.drop off).take (min (off + opts.windowSize) target.length - off)) := by
  have hmax' : opts.windowSize ≤ 2 ^ 24 := hmax
  have hwin : ((target.drop off).take (min (off + opts.windowSize) target.length - off)).length ≤
      opts.windowSize := by
    simp only [List.length_take, List.length_drop]
    omega
  obtain ⟨insts, hinsts, hvalid⟩ := windowInstructions_valid hprof source
    ((target.drop off).take (min (off + opts.windowSize) target.length - off)) (by omega) (by omega)
  -- the program of the instructions is one the window encoder writes faithfully
  have hprog := validFrom_toOps source _ hvalid
  have hsum := hprog.sum_size
  obtain ⟨bytes, hfin, hne, hdec⟩ := window_decodes cs (ε := EncodeError) opts.checksum _
    hprog.wellFormed (by omega) hS
  rw [exec_toOps hvalid] at hfin hdec
  refine ⟨bytes, ?_, hne, hdec⟩
  unfold encodeWindowAt
  rw [addChecked_of_lt (by omega), bind_ok']
  dsimp only
  rw [slice_of_le (by omega) (by omega), bind_ok']
  -- the two arms differ only in the engine that finds the instructions
  split
  all_goals
    rename_i hE
    simp only [hE, if_true, if_false, Bool.false_eq_true] at hinsts
    rw [hinsts, bind_ok', sourceWin_eq, emitInstructions, Compress.emitInstructions_eq _ hvalid, mapErr_ok,
      bind_ok', StreamEncoder.writeWindow_eq hfin, bind_ok']
    rfl

end Window

/-! ## The window loop -/

section Run

variable (cs : Compress.Codecs) {config : MatcherConfig} {source target : List UInt8}
  {opts : EncodeOptions}

/-- **The window loop.**  For a positive window size, the loop from an offset
in the target writes, after the file header, windows that each decode on
their own, and whose targets cut the rest of the target in order; it stops
within one iteration per remaining byte. -/
theorem encodeRun_spec (hprof : config.Profile) (hw : 0 < opts.windowSize)
    (hmax : opts.windowSize ≤ hardMaxWinsize) (hS : source.length < 2 ^ 63) (hT : target.length < 2 ^ 63) :
    ∀ n off (stream : StreamEncoder), target.length - off < n → off ≤ target.length →
      ∃ (ws : List (List UInt8 × List UInt8)) (stream' : StreamEncoder),
        Loop.run (encodeBody config source target opts) n (stream, off) = some (.ok stream') ∧
        stream'.writeHeader.writer = stream.writeHeader.writer ++ (ws.map Prod.fst).flatten ∧
        (ws.map Prod.snd).flatten = target.drop off ∧
        ∀ w ∈ ws, w.1 ≠ [] ∧ WindowDecodes cs FileHeader.default.secondaryId source w.1 w.2 := by
  intro n
  induction n with
  | zero => intro off stream hlt; omega
  | succ n ih =>
    intro off stream hlt hle
    by_cases hoff : off < target.length
    · obtain ⟨bytes, hstep, hne, hdec⟩ := encodeWindowAt_spec cs hprof stream hoff hmax hS hT
      have hbody : encodeBody config source target opts (stream, off) =
          .next ({ stream.writeHeader with writer := stream.writeHeader.writer ++ bytes },
            min (off + opts.windowSize) target.length) := by
        simp only [encodeBody, hoff, if_true, hstep]
      -- the rest of the target after this window, from the next offset
      obtain ⟨ws, stream', hrun, hwriter, hcut, hws⟩ := ih (min (off + opts.windowSize) target.length)
        { stream.writeHeader with writer := stream.writeHeader.writer ++ bytes } (by omega) (by omega)
      refine ⟨(bytes, (target.drop off).take (min (off + opts.windowSize) target.length - off)) :: ws,
        stream', by rw [Loop.run_of_next _ hbody, hrun], ?_, ?_, ?_⟩
      · rw [hwriter, StreamEncoder.writeHeader_append, List.map_cons, List.flatten_cons, List.append_assoc]
      · rw [List.map_cons, List.flatten_cons, hcut, show min (off + opts.windowSize) target.length =
          off + (min (off + opts.windowSize) target.length - off) by omega, ← List.drop_drop,
          Nat.add_sub_cancel_left, List.take_append_drop]
      · intro w hw'
        rcases List.mem_cons.1 hw' with rfl | hw'
        · exact ⟨hne, hdec⟩
        · exact hws w hw'
    · have hend : off = target.length := by omega
      have hbody : encodeBody config source target opts (stream, off) = .done (.ok stream) := by
        simp only [encodeBody, hoff, if_false]
      exact ⟨[], stream, Loop.run_of_done _ hbody, by simp, by simp [hend], by simp⟩

end Run

/-! ## The round trip -/

/-- **The engine's round trip.**  For every source and target (each below
`2^63` bytes, as every Rust slice is), every level and every window size from
one byte to the hard window limit, `encode_with_options` into an empty vector
returns a delta that `decode` turns back into the target. -/
theorem encodeWithOptions_roundtrip (cs : Compress.Codecs) (source target : List UInt8)
    (opts : EncodeOptions) (hw : 0 < opts.windowSize) (hmax : opts.windowSize ≤ hardMaxWinsize)
    (hS : source.length < 2 ^ 63) (hT : target.length < 2 ^ 63) :
    ∃ delta, encodeWithOptions source target [] opts = .ok delta ∧ decode cs source delta = .ok target := by
  have hprof := MatcherConfig.profile_of_mem (configForLevel_mem opts.level)
  -- the stream `encode_with_options` starts: the file header is written with the first window
  have hhead : ({ StreamEncoder.new opts.checksum with writer := [] } : StreamEncoder).writeHeader.writer =
      FileHeader.default.encode := rfl
  obtain ⟨ws, stream', hrun, hwriter, hcut, hws⟩ := encodeRun_spec cs hprof hw hmax hS hT
    (target.length + 1) 0 { StreamEncoder.new opts.checksum with writer := [] } (by omega) (Nat.zero_le _)
  rw [hhead] at hwriter
  rw [List.drop_zero] at hcut
  unfold encodeWithOptions decode
  dsimp only
  rw [hrun]
  dsimp only
  by_cases hnil : target = []
  · -- an empty target is then one empty window
    subst hnil
    obtain ⟨bytes, hfin, hne, hdec⟩ := @emptyWindow_decodes cs
      FileHeader.default.secondaryId source EncodeError opts.checksum
    rw [bind_ok', if_pos List.isEmpty_nil, StreamEncoder.writeWindow_eq hfin, bind_ok']
    refine ⟨_, rfl, ?_⟩
    have hall := decodeMemory_windows cs source FileHeader.default FileHeader.default_valid
      (ws ++ [(bytes, [])])
      (fun w hw => by
        rcases List.mem_append.1 hw with hw | hw
        · exact (hws w hw).2
        · rw [List.mem_singleton.1 hw]
          exact hdec)
      (fun w hw => by
        rcases List.mem_append.1 hw with hw | hw
        · exact (hws w hw).1
        · rw [List.mem_singleton.1 hw]
          exact hne)
    rw [StreamEncoder.finish_eq_writeHeader, StreamEncoder.writeHeader_append, hwriter, List.append_assoc]
    simpa [hcut] using hall
  · rw [bind_ok', if_neg (by simpa using hnil)]
    refine ⟨_, rfl, ?_⟩
    rw [StreamEncoder.finish_eq_writeHeader, hwriter, ← hcut]
    exact decodeMemory_windows cs source FileHeader.default FileHeader.default_valid ws
      (fun w hw => (hws w hw).2) (fun w hw => (hws w hw).1)

/-- Three windows of two bytes, against a source, without checksums, decoded
by codecs that are never called. -/
theorem encodeWithOptions_roundtrip_windows :
    ∃ delta, encodeWithOptions [1, 2, 3] [1, 2, 3, 3, 9] [] ⟨6, 2, false⟩ = .ok delta ∧
      decode ⟨Except.ok, Except.ok, fun _ => Except.ok, Except.ok⟩ [1, 2, 3] delta = .ok [1, 2, 3, 3, 9] :=
  encodeWithOptions_roundtrip _ _ _ _ (by decide) (by decide) (by decide) (by decide)

end Oxidelta.Engine
