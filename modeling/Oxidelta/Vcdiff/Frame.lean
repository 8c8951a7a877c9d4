import Oxidelta.Vcdiff.Replay

/-!
# What a window's decoding reads of the output

`decode_window_with_cache` appends a window's target to `output`, which may
hold earlier windows, and addresses target copies from `base_offset =
output.len()`.  It never reads below `base_offset`: decoding after any bytes
`pre` is decoding alone with `pre` in front, errors and panics included.
So `StreamDecoder::decode_window` decodes a window into a cleared buffer or
after the whole output alike, which the streaming `DeltaDecoder` relies on.

`WindowState.shift pre` and `WindowCtx.shift pre` put `pre` in front of the
output and move `base_offset` past it.

* `executeHalfInstruction_shift` — a half-instruction, as decoding
  (`decodeHalf`, which reads no output) then replay;
* `windowBody_shift` — an iteration of the instruction loop;
* `decodeWindowWithCache_shift` — a window, through `Loop.run_map`;
* `decodeWindow_shift`, `decodeAllBody_shift` — the stream decoder's step,
  and an iteration of `decode_all`.

Of the window header it reads only the copy window, the target length and the
checksum (`decodeWindowWithCache_header`), and a window that passes its
checksum decodes alike whether it is verified or not
(`decodeWindowWithCache_verify`).

What it writes: a window it accepts appends exactly its header's target
length, with the header's checksum when that is verified
(`decodeWindowWithCache_appends`); so does every window the stream decoder
decodes, with the window header at the head of its input
(`StreamDecoder.decodeWindow_appends`).
-/

namespace Oxidelta.Vcdiff

open Rust

/-- The state with `pre` in front of its output. -/
def WindowState.shift (pre : List UInt8) (st : WindowState) : WindowState :=
  { st with output := pre ++ st.output }

/-- The context of the same window when `pre` stands before the output. -/
def WindowCtx.shift (pre : List UInt8) (ctx : WindowCtx) : WindowCtx :=
  { ctx with baseOffset := pre.length + ctx.baseOffset }

section Shift

variable (pre : List UInt8)

/-! ## Copies -/

theorem pushFromWithin_shift (tgtOffset : Nat) :
    ∀ n i (output : List UInt8), pushFromWithin (pre.length + tgtOffset) i n (pre ++ output) =
      (pre ++ ·) <$> pushFromWithin tgtOffset i n output := by
  intro n
  induction n with
  | zero => intro i output; rfl
  | succ n ih =>
    intro i output
    have hidx : (index (pre ++ output) (pre.length + tgtOffset + i) : Result DecodeError UInt8) =
        index output (tgtOffset + i) := by
      rw [index, index, Nat.add_assoc, List.getElem?_append_right (Nat.le_add_right _ _),
        Nat.add_sub_cancel_left]
    rw [pushFromWithin, pushFromWithin, hidx]
    cases index output (tgtOffset + i) with
    | error e => rfl
    | ok byte => rw [bind_ok', bind_ok', List.append_assoc, ih]

theorem targetCopy_shift (tgtOffset size : Nat) (output : List UInt8) :
    targetCopy (pre.length + tgtOffset) size (pre ++ output) = (pre ++ ·) <$> targetCopy tgtOffset size output := by
  unfold targetCopy
  by_cases hfast : tgtOffset + size ≤ output.length
  · rw [if_pos (by simp only [List.length_append]; omega), if_pos hfast, List.drop_length_add_append,
      List.append_assoc]
    rfl
  · rw [if_neg (by simp only [List.length_append]; omega), if_neg hfast]
    exact pushFromWithin_shift pre tgtOffset size 0 output

theorem sourceCopy_shift (src : List UInt8) (srcOffset size : Nat) (output : List UInt8) :
    sourceCopy src srcOffset size (pre ++ output) = (pre ++ ·) <$> sourceCopy src srcOffset size output := by
  unfold sourceCopy
  cases sourceSlice src srcOffset size with
  | error e => rfl
  | ok r =>
    cases r with
    | some slice => simp [List.append_assoc]
    | none =>
      simp only [bind_ok']
      split <;> simp [fail, List.append_assoc]

/-! ## Half-instructions -/

/-- Decoding a half-instruction reads no output and leaves it as it is. -/
theorem decodeHalf_shift (ctx : WindowCtx) (itype tableSize : UInt8) (st : WindowState) :
    decodeHalf (ctx.shift pre) itype tableSize (st.shift pre) =
      (fun p => (p.1, p.2.shift pre)) <$> decodeHalf ctx itype tableSize st := by
  simp only [decodeHalf, map_bind]
  congr 1
  funext p
  by_cases hrun : itype = xd3Run
  · simp only [if_pos hrun]
    rfl
  · by_cases hadd : itype = xd3Add
    · simp only [if_neg hrun, if_pos hadd]
      rfl
    · simp only [if_neg hrun, if_neg hadd, map_bind]
      rfl

/-- Replaying reads the output only from `base_offset` on. -/
theorem replayInstruction_shift (ctx : WindowCtx) (inst : Instruction) (st : WindowState) :
    replayInstruction (ctx.shift pre) inst (st.shift pre) =
      WindowState.shift pre <$> replayInstruction ctx inst st := by
  cases inst with
  | run size =>
    simp only [replayInstruction, WindowState.shift, WindowCtx.shift]
    by_cases h : ctx.dataSection.length ≤ st.dataPos <;>
      simp [h, fail, map_bind, List.append_assoc, WindowState.shift]
  | add size =>
    simp only [replayInstruction, WindowState.shift, WindowCtx.shift]
    by_cases h : ctx.dataSection.length < st.dataPos + size <;>
      simp [h, fail, map_bind, List.append_assoc, WindowState.shift]
  | copy size addr mode =>
    simp only [replayInstruction, WindowCtx.shift, map_bind]
    refine bind_congr fun spans => ?_
    cases spans
    · -- the bytes are copied from the source, or from the output past `base_offset`
      by_cases hsrc : addr < ctx.copyWindowLen
      · simp [hsrc, map_bind, WindowState.shift, sourceCopy_shift, bind_map_left]
      · simp [hsrc, map_bind, WindowState.shift, Nat.add_assoc, targetCopy_shift, bind_map_left]
    · rfl

theorem executeHalfInstruction_shift (ctx : WindowCtx) (itype tableSize : UInt8) (st : WindowState) :
    executeHalfInstruction (ctx.shift pre) itype tableSize (st.shift pre) =
      WindowState.shift pre <$> executeHalfInstruction ctx itype tableSize st := by
  rw [executeHalfInstruction_eq, executeHalfInstruction_eq, decodeHalf_shift, bind_map_left, map_bind]
  simp only [replayInstruction_shift]

/-! ## The instruction loop -/

theorem executeOpcode_shift (ctx : WindowCtx) (entry : CodeTableEntry) (st : WindowState) :
    executeOpcode (ctx.shift pre) entry (st.shift pre) = WindowState.shift pre <$> executeOpcode ctx entry st := by
  unfold executeOpcode
  by_cases h1 : entry.type1 ≠ xd3Noop <;> by_cases h2 : entry.type2 ≠ xd3Noop <;>
    simp [h1, h2, map_bind, executeHalfInstruction_shift, bind_map_left]

/-- An iteration of the instruction loop, `pre` in front or not. -/
theorem windowBody_shift (ctx : WindowCtx) (st : WindowState) :
    (windowBody ctx st).map (WindowState.shift pre) (WindowState.shift pre <$> ·) =
      windowBody (ctx.shift pre) (st.shift pre) := by
  cases hop : ctx.instSection[st.instPos]? with
  | none =>
    -- past the end of the instruction section the loop stops where it is
    have hge : ctx.instSection.length ≤ st.instPos := List.getElem?_eq_none_iff.1 hop
    have hge' : ¬(st.shift pre).instPos < (ctx.shift pre).instSection.length := Nat.not_lt.2 hge
    simp only [windowBody, dif_neg (Nat.not_lt.2 hge), dif_neg hge']
    rfl
  | some opcode =>
    have hst : ({ st.shift pre with instPos := (st.shift pre).instPos + 1 } : WindowState) =
        WindowState.shift pre { st with instPos := st.instPos + 1 } := rfl
    rw [windowBody_of_getElem? hop, @windowBody_of_getElem? (ctx.shift pre) (st.shift pre) opcode hop, hst,
      executeOpcode_shift]
    cases executeOpcode ctx (codeEntry opcode) { st with instPos := st.instPos + 1 } <;> rfl

/-- **A window decodes alike after any output.**  With `pre` in front of the
output, `decode_window_with_cache` returns what it returns without, `pre` in
front, and fails exactly when it fails, with the same error. -/
theorem decodeWindowWithCache_shift (header : WindowHeader) (data inst addr source : List UInt8)
    (verify : Bool) (output : List UInt8) (acache : AddressCache) :
    decodeWindowWithCache header data inst addr source verify (pre ++ output) acache =
      (fun r => (pre ++ r.1, r.2)) <$> decodeWindowWithCache header data inst addr source verify output acache := by
  have hctx : windowCtx header data inst addr source (pre ++ output) =
      (windowCtx header data inst addr source output).shift pre := by
    simp [windowCtx, WindowCtx.shift]
  have hinit : windowInit (pre ++ output) acache = (windowInit output acache).shift pre := rfl
  -- the loop with `pre` in front is the loop without, shifted
  have hrun := Loop.run_map (WindowState.shift pre) (WindowState.shift pre <$> ·)
    (windowBody_shift pre (windowCtx header data inst addr source output)) (inst.length + 1)
    (windowInit output acache)
  unfold decodeWindowWithCache
  dsimp only
  rw [hctx, hinit, ← hrun]
  cases Loop.run (windowBody (windowCtx header data inst addr source output)) (inst.length + 1)
      (windowInit output acache) with
  | none => rfl
  | some r =>
    cases r with
    | error e => rfl
    | ok st =>
      -- the window's bytes are those past `base_offset`, with `pre` in front or not
      have hwritten : (pre ++ st.output).length - (pre.length + output.length) =
          st.output.length - output.length := by
        simp only [List.length_append]
        omega
      have hdrop : (pre ++ st.output).drop (pre.length + output.length) = st.output.drop output.length :=
        List.drop_length_add_append ..
      simp only [Option.map_some, Functor.map, Except.map, WindowState.shift, WindowCtx.shift, windowCtx,
        hwritten, hdrop]
      by_cases hlen : st.output.length - output.length = header.targetWindowLen
      · simp only [ne_eq, hlen, not_true_eq_false, if_false]
        cases header.adler32 with
        | none => rfl
        | some expected =>
          by_cases hc : verify = true ∧ adler32 (st.output.drop output.length) ≠ expected
          · simp only [hc]
            rfl
          · simp only [hc, if_false]
            rfl
      · simp only [ne_eq, hlen, not_false_eq_true, if_true]
        rfl

/-- **The stream decoder's step after any output.**  `decode_window` with
`pre` in front of the output returns what it returns without, `pre` in front,
and fails exactly when it fails. -/
theorem StreamDecoder.decodeWindow_shift (cs : Compress.Codecs) (source : List UInt8) (d : StreamDecoder)
    (output : List UInt8) :
    d.decodeWindow cs source (pre ++ output) =
      (fun r => (r.1, r.2.1, pre ++ r.2.2)) <$> d.decodeWindow cs source output := by
  simp only [StreamDecoder.decodeWindow]
  -- the file header, when still to read, does not depend on the output
  cases d.fileHeader <;> simp only [pure_bind, map_bind]
  on_goal 1 => refine bind_congr fun y => ?_
  -- nor do the window header and the sections, read the same way in both
  all_goals
    refine bind_congr fun x => ?_
    obtain ⟨wh, d'⟩ := x
    cases wh with
    | none => rfl
    | some wh =>
      dsimp only
      split
      · rfl
      · simp only [map_bind]
        refine bind_congr fun xd => bind_congr fun xi => bind_congr fun xa => ?_
        -- the sections, decompressed or not, then the window after `pre` or not
        split
        · simp only [map_bind]
          refine bind_congr fun xs => ?_
          simp only [decodeWindowWithCache_shift, bind_map_left, map_pure]
        · simp only [decodeWindowWithCache_shift, bind_map_left, map_bind, map_pure]

/-- An iteration of `decode_all`, with `pre` in front of the output or not. -/
theorem decodeAllBody_shift (cs : Compress.Codecs) (source : List UInt8) (s : StreamDecoder × List UInt8) :
    (decodeAllBody cs source s).map (fun t => (t.1, pre ++ t.2)) ((fun t => (t.1, pre ++ t.2)) <$> ·) =
      decodeAllBody cs source (s.1, pre ++ s.2) := by
  unfold decodeAllBody
  rw [StreamDecoder.decodeWindow_shift]
  rcases s.1.decodeWindow cs source s.2 with e | ⟨_ | _, d, out⟩ <;> rfl

end Shift

/-- `decode_window` reports the end of the stream only with the output as it
was. -/
theorem StreamDecoder.decodeWindow_false {cs : Compress.Codecs} {source : List UInt8} {d d' : StreamDecoder}
    {output out : List UInt8} (h : d.decodeWindow cs source output = .ok (false, d', out)) : out = output := by
  simp only [StreamDecoder.decodeWindow] at h
  split at h <;> simp only [pure_bind] at h
  on_goal 2 => obtain ⟨y, -, h⟩ := bind_eq_ok h
  all_goals
    obtain ⟨⟨wh, d''⟩, -, h⟩ := bind_eq_ok h
    cases wh with
    | none => cases h; rfl
    | some wh =>
      -- every window that is there decodes to `true` or fails
      dsimp only at h
      split at h
      · cases h
      · obtain ⟨_, -, h⟩ := bind_eq_ok h
        obtain ⟨_, -, h⟩ := bind_eq_ok h
        obtain ⟨_, -, h⟩ := bind_eq_ok h
        split at h
        · obtain ⟨_, -, h⟩ := bind_eq_ok h
          obtain ⟨_, -, h⟩ := bind_eq_ok h
          cases h
        · obtain ⟨_, -, h⟩ := bind_eq_ok h
          cases h

/-! ## The header fields and the checksum flag -/

/-- `decode_window_with_cache` reads of the window header only the copy
window, the target length and the checksum. -/
theorem decodeWindowWithCache_header {w w' : WindowHeader} (data inst addr source : List UInt8)
    (verify : Bool) (output : List UInt8) (acache : AddressCache)
    (hlen : w'.copyWindowLen = w.copyWindowLen) (hoff : w'.copyWindowOffset = w.copyWindowOffset)
    (htgt : w'.targetWindowLen = w.targetWindowLen) (hck : w'.adler32 = w.adler32) :
    decodeWindowWithCache w' data inst addr source verify output acache =
      decodeWindowWithCache w data inst addr source verify output acache := by
  unfold decodeWindowWithCache windowCtx
  rw [hlen, hoff, htgt, hck]

/-- A window that decodes with its checksum verified decodes alike without. -/
theorem decodeWindowWithCache_verify {w : WindowHeader} {data inst addr source output : List UInt8}
    {acache : AddressCache} {r : List UInt8 × AddressCache} (verify : Bool)
    (h : decodeWindowWithCache w data inst addr source true output acache = .ok r) :
    decodeWindowWithCache w data inst addr source verify output acache = .ok r := by
  unfold decodeWindowWithCache at h ⊢
  dsimp only at h ⊢
  split at h
  · cases h
  · cases h
  · split at h
    · cases h
    · next hlen =>
      rw [if_neg hlen]
      split at h
      · split at h
        · cases h
        · next hmatch =>
          -- a checksum that was verified is one that matches
          rw [if_neg (fun hv => hmatch ⟨rfl, hv.2⟩)]
          exact h
      · exact h

/-! ## What an accepted window appends -/

/-- The instruction loop only appends to the output it starts from. -/
theorem windowLoop_appends {ctx : WindowCtx} {output : List UInt8} {n : Nat} {st₀ st : WindowState}
    (h₀ : st₀.output = output) (hrun : Loop.run (windowBody ctx) n st₀ = some (.ok st)) :
    ∃ window, st.output = output ++ window :=
  Loop.run_invariant (fun st : WindowState => ∃ w, st.output = output ++ w)
    (fun r => ∀ st, r = .ok st → ∃ w, st.output = output ++ w)
    (fun s s' ⟨w, hw⟩ hb => by
      obtain ⟨-, -, bytes, ho, -⟩ := windowBody_next hb
      exact ⟨w ++ bytes, by rw [ho, hw, List.append_assoc]⟩)
    (fun s r hs hb st hr => by
      -- the loop stops without an error only at the end of the instructions, as it was
      unfold windowBody at hb
      split at hb
      · dsimp only at hb
        split at hb
        · cases hb
        · cases hb; cases hr
      · cases hb; cases hr; exact hs)
    n st₀ _ ⟨[], by rw [h₀, List.append_nil]⟩ hrun st rfl

/-- **An accepted window is its header's target.**  A window that
`decode_window_with_cache` accepts leaves the output before it as it was and
appends exactly `target_window_len` bytes; when checksums are verified and the
header carries an Adler-32, the bytes appended have that checksum. -/
theorem decodeWindowWithCache_appends {header : WindowHeader} {data inst addr source : List UInt8}
    {verify : Bool} {output : List UInt8} {acache : AddressCache} {out : List UInt8}
    {acache' : AddressCache}
    (h : decodeWindowWithCache header data inst addr source verify output acache = .ok (out, acache')) :
    ∃ window, out = output ++ window ∧ window.length = header.targetWindowLen ∧
      ∀ expected, verify = true → header.adler32 = some expected → adler32 window = expected := by
  unfold decodeWindowWithCache at h
  dsimp only at h
  split at h
  · cases h
  · cases h
  · next st hrun =>
    obtain ⟨window, hout⟩ := @windowLoop_appends _ output _ _ _ rfl hrun
    have hbase : (windowCtx header data inst addr source output).baseOffset = output.length := rfl
    have hwritten : st.output.length - output.length = window.length := by
      rw [hout, List.length_append, Nat.add_sub_cancel_left]
    have hdrop : st.output.drop output.length = window := by
      rw [hout, List.drop_left]
    rw [hbase, hwritten, hdrop] at h
    split at h
    · cases h
    · next hlen =>
      split at h
      · next expected hexp =>
        split at h
        · cases h
        · next hck =>
          -- a verified checksum is one that matches
          cases h
          refine ⟨window, hout, not_not.1 hlen, fun e hv he => ?_⟩
          rw [hexp] at he
          cases he
          exact not_not.1 fun hne => hck ⟨hv, hne⟩
      · next hnone =>
        cases h
        exact ⟨window, hout, not_not.1 hlen, fun e _ he => by rw [hnone] at he; cases he⟩

theorem decodeWindowWithCache_appends_checked :
    ∃ r, decodeWindowWithCache ⟨vcdAdler32, 0, 0, 0, 3, 0, 3, 1, 0, some 3211289⟩ [7, 8, 9] [4] [] []
        true [1] AddressCache.new = .ok r ∧
      ∃ window, r.1 = [1] ++ window ∧ window.length = 3 ∧
        ∀ expected, true = true → some 3211289 = some expected → adler32 window = expected := by
  have hout : Prod.fst <$> decodeWindowWithCache ⟨vcdAdler32, 0, 0, 0, 3, 0, 3, 1, 0, some 3211289⟩
      [7, 8, 9] [4] [] [] true [1] AddressCache.new = .ok [1, 7, 8, 9] := by decide +kernel
  cases h : decodeWindowWithCache ⟨vcdAdler32, 0, 0, 0, 3, 0, 3, 1, 0, some 3211289⟩ [7, 8, 9] [4] [] []
      true [1] AddressCache.new with
  | error e => rw [h] at hout; cases hout
  | ok r => exact ⟨r, rfl, decodeWindowWithCache_appends h⟩

/-- A read of the stream decoder's input is the read of its reader, and keeps
the checksum flag. -/
theorem StreamDecoder.read_eq_ok {α : Type} {d d' : StreamDecoder} {m : ReadM IoError α} {a : α}
    (h : d.read m = .ok (a, d')) : m d.reader = .ok (a, d'.reader) ∧ d'.verifyChecksum = d.verifyChecksum := by
  unfold StreamDecoder.read at h
  split at h
  · next a' reader hm =>
    cases h
    exact ⟨ReadM.liftErr_eq_ok hm, rfl⟩
  · cases h

/-- **Every window the stream decoder decodes is its header's target.**  When
`decode_window` decodes a window, it has read a window header at the head of
its input (after the file header, on the first call) and appended to the
output exactly that header's target length, with the header's checksum when
checksums are verified. -/
theorem StreamDecoder.decodeWindow_appends {cs : Compress.Codecs} {source output out : List UInt8}
    {d d' : StreamDecoder} (h : d.decodeWindow cs source output = .ok (true, d', out)) :
    ∃ (w : WindowHeader) (window : List UInt8), out = output ++ window ∧ window.length = w.targetWindowLen ∧
      (∀ expected, d.verifyChecksum = true → w.adler32 = some expected → adler32 window = expected) ∧
      ∃ r rest, ((d.fileHeader ≠ none ∧ r = d.reader) ∨
          (d.fileHeader = none ∧ ∃ fh, FileHeader.decode d.reader = .ok (fh, r))) ∧
        WindowHeader.decode r = .ok (some w, rest) := by
  unfold StreamDecoder.decodeWindow at h
  extract_lets jp at h
  -- after the file header: the window header, the sections, and the window
  have hjp : ∀ d₁ : StreamDecoder, d₁.verifyChecksum = d.verifyChecksum → jp d₁ = .ok (true, d', out) →
      ∃ (w : WindowHeader) (window : List UInt8), out = output ++ window ∧
        window.length = w.targetWindowLen ∧
        (∀ expected, d.verifyChecksum = true → w.adler32 = some expected → adler32 window = expected) ∧
        ∃ rest, WindowHeader.decode d₁.reader = .ok (some w, rest) := by
    intro d₁ hv hj
    simp only [jp] at hj
    obtain ⟨⟨wh, d₂⟩, hread₂, hj⟩ := bind_eq_ok hj
    obtain ⟨hwh, hv₂⟩ := read_eq_ok hread₂
    split at hj
    · cases hj
    · next w hw =>
      have hw' : wh = some w := hw
      rw [hw'] at hwh
      split at hj
      · simp [fail] at hj
      · obtain ⟨⟨data, d₃⟩, hread₃, hj⟩ := bind_eq_ok hj
        obtain ⟨⟨inst, d₄⟩, hread₄, hj⟩ := bind_eq_ok hj
        obtain ⟨⟨addr, d₅⟩, hread₅, hj⟩ := bind_eq_ok hj
        have hv₅ : d₅.verifyChecksum = d.verifyChecksum :=
          (read_eq_ok hread₅).2.trans ((read_eq_ok hread₄).2.trans ((read_eq_ok hread₃).2.trans (hv₂.trans hv)))
        split at hj <;>
        · obtain ⟨sections, -, hj⟩ := bind_eq_ok hj
          obtain ⟨⟨out', acache⟩, hwin, hj⟩ := bind_eq_ok hj
          cases hj
          obtain ⟨window, hout, hlen, hck⟩ := decodeWindowWithCache_appends hwin
          exact ⟨w, window, hout, hlen, fun e hv' he => hck e (hv₅.trans hv') he, _, hwh⟩
  split at h
  · next fh hfh =>
    obtain ⟨w, window, hout, hlen, hck, rest, hwh⟩ := hjp d rfl h
    exact ⟨w, window, hout, hlen, hck, d.reader, rest, Or.inl ⟨by rw [hfh]; simp, rfl⟩, hwh⟩
  · next hnone =>
    obtain ⟨⟨hdr, d₀⟩, hread, h⟩ := bind_eq_ok h
    obtain ⟨hfd, hv₀⟩ := read_eq_ok hread
    simp only [pure_bind] at h
    obtain ⟨w, window, hout, hlen, hck, rest, hwh⟩ :=
      hjp { d₀ with fileHeader := some hdr, secondaryId := hdr.secondaryId } hv₀ h
    exact ⟨w, window, hout, hlen, hck, d₀.reader, rest, Or.inr ⟨hnone, hdr, hfd⟩, hwh⟩

theorem StreamDecoder.decodeWindow_appends_first :
    ∃ (d₀ d' : StreamDecoder) (out : List UInt8),
      d₀ = StreamDecoder.new [0xD6, 0xC3, 0xC4, 0x00, 0x00, 0x00, 0x09, 0x03, 0x00, 0x03, 0x01, 0x00, 7, 8, 9,
        0x04] true ∧
      d₀.decodeWindow ⟨Except.ok, Except.ok, fun _ => Except.ok, Except.ok⟩ [] [] = .ok (true, d', out) ∧
      ∃ (w : WindowHeader) (window : List UInt8), out = [] ++ window ∧ window.length = w.targetWindowLen ∧
        (∀ expected, d₀.verifyChecksum = true → w.adler32 = some expected → adler32 window = expected) ∧
        ∃ r rest, ((d₀.fileHeader ≠ none ∧ r = d₀.reader) ∨
            (d₀.fileHeader = none ∧ ∃ fh, FileHeader.decode d₀.reader = .ok (fh, r))) ∧
          WindowHeader.decode r = .ok (some w, rest) := by
  have hout : (fun r => (r.1, r.2.2)) <$>
      (StreamDecoder.new [0xD6, 0xC3, 0xC4, 0x00, 0x00, 0x00, 0x09, 0x03, 0x00, 0x03, 0x01, 0x00, 7, 8, 9, 0x04]
        true).decodeWindow ⟨Except.ok, Except.ok, fun _ => Except.ok, Except.ok⟩ [] [] =
      .ok (true, [7, 8, 9]) := by decide +kernel
  cases h : (StreamDecoder.new [0xD6, 0xC3, 0xC4, 0x00, 0x00, 0x00, 0x09, 0x03, 0x00, 0x03, 0x01, 0x00, 7, 8, 9,
      0x04] true).decodeWindow ⟨Except.ok, Except.ok, fun _ => Except.ok, Except.ok⟩ [] [] with
  | error e => rw [h] at hout; cases hout
  | ok r =>
    obtain ⟨b, d', out⟩ := r
    rw [h] at hout
    cases hout
    exact ⟨_, d', _, rfl, h, StreamDecoder.decodeWindow_appends h⟩

end Oxidelta.Vcdiff
