import Oxidelta.Vcdiff.Frame

/-!
# The streaming decoder (`compress/decoder.rs`)

`DeltaDecoder` decodes a delta one window at a time: each window into a
cleared buffer, which it then writes out, counting the bytes and the windows
decoded.  `decode_all` is `decode_memory`.

The writer is a `Vec<u8>`, whose `write_all` does not fail: the model keeps
its bytes.  The counters are `u64`s that the bytes of an in-memory delta
cannot take past `2^64`; the model counts in `Nat`.  `decode_to` loops
`while self.decode_window_to(..)?.is_some()`; the model bounds it as
`decode_all` is bounded, and the two loops take the same iterations.

Main results:

* `decodeToBody_map` — an iteration of `decode_to`, without the counters, is
  an iteration of `decode_all`: a window decoded into a cleared buffer and
  written out is the window decoded after the output (`decodeWindow_shift`);
* `decodeTo_bytesDecoded` — the bytes counted are the bytes written;
* `decodeTo_eq_decodeMemory` — **streaming decoding is decoding**: from a new
  decoder over a delta, `decode_to` appends to the writer exactly the target
  `decode_memory` rebuilds and returns its length, and fails exactly when
  `decode_memory` fails, with the same error.
-/

namespace Oxidelta.Compress

open Rust Oxidelta.Vcdiff

/-! ## The model -/

/-- `DeltaDecoder` over an in-memory delta; the window buffer is scratch
space, cleared before each window. -/
structure DeltaDecoder where
  inner : StreamDecoder
  bytesDecoded : Nat
  windowsDecoded : Nat

/-- `DeltaDecoder::new`: checksums verified. -/
def DeltaDecoder.new (reader : List UInt8) : DeltaDecoder :=
  ⟨StreamDecoder.new reader true, 0, 0⟩

/-- `DeltaDecoder::with_checksum`. -/
def DeltaDecoder.withChecksum (reader : List UInt8) (verify : Bool) : DeltaDecoder :=
  ⟨StreamDecoder.new reader verify, 0, 0⟩

/-- `decode_window_to`: the next window decoded into a cleared buffer and
written out; its size, or none at the end of the stream, with the decoder and
the writer after it. -/
def DeltaDecoder.decodeWindowTo (cs : Codecs) (source : List UInt8) (dd : DeltaDecoder)
    (writer : List UInt8) : Result DecodeError (Option Nat × DeltaDecoder × List UInt8) :=
  dd.inner.decodeWindow cs source [] >>= fun (hasMore, inner, windowBuf) =>
  if !hasMore then pure (none, { dd with inner }, writer)
  else
    let windowSize := windowBuf.length
    pure (some windowSize, ⟨inner, dd.bytesDecoded + windowSize, dd.windowsDecoded + 1⟩,
      writer ++ windowBuf)

/-- One iteration of `decode_to`'s `while self.decode_window_to(..)?.is_some() {}`. -/
def decodeToBody (cs : Codecs) (source : List UInt8) (s : DeltaDecoder × List UInt8) :
    Loop.Step (DeltaDecoder × List UInt8) (Result DecodeError (DeltaDecoder × List UInt8)) :=
  match s.1.decodeWindowTo cs source s.2 with
  | .ok (some _, dd, writer) => .next (dd, writer)
  | .ok (none, dd, writer) => .done (.ok (dd, writer))
  | .error e => .done (.error e)

/-- `DeltaDecoder::decode_to`: the bytes decoded so far, with the decoder and
the writer after the last window. -/
def DeltaDecoder.decodeTo (cs : Codecs) (source : List UInt8) (dd : DeltaDecoder) (writer : List UInt8) :
    Result DecodeError (Nat × DeltaDecoder × List UInt8) :=
  match Loop.run (decodeToBody cs source) (dd.inner.reader.length + 2) (dd, writer) with
  | none => .error .diverge
  | some (.error e) => .error e
  | some (.ok (dd, writer)) => pure (dd.bytesDecoded, dd, writer)

/-- `decode_all`: `decode_memory`. -/
def decodeAll (cs : Codecs) (source delta : List UInt8) : Result DecodeError (List UInt8) :=
  decodeMemory cs delta source

/-! ## One window -/

/-- **A window written out is a window decoded after the output.**  An
iteration of `decode_to`, forgetting the counters, is the iteration of
`decode_all` from the same decoder, with the writer as its output. -/
theorem decodeToBody_map (cs : Codecs) (source : List UInt8) (s : DeltaDecoder × List UInt8) :
    (decodeToBody cs source s).map (fun t => (t.1.inner, t.2)) ((fun t => (t.1.inner, t.2)) <$> ·) =
      decodeAllBody cs source (s.1.inner, s.2) := by
  have hshift := StreamDecoder.decodeWindow_shift s.2 cs source s.1.inner []
  rw [List.append_nil] at hshift
  unfold decodeToBody decodeAllBody DeltaDecoder.decodeWindowTo
  rw [hshift]
  rcases hw : s.1.inner.decodeWindow cs source [] with e | ⟨_ | _, inner, buf⟩
  · rfl
  · -- the end of the stream leaves the output as it was
    obtain rfl : buf = [] := StreamDecoder.decodeWindow_false hw
    show _ = Loop.Step.done (Except.ok (inner, s.2 ++ []))
    rw [List.append_nil]
    rfl
  · rfl

/-- The bytes counted are the bytes written after the writer's first ones. -/
def BytesWritten (writer : List UInt8) (s : DeltaDecoder × List UInt8) : Prop :=
  s.1.bytesDecoded + writer.length = s.2.length

theorem decodeToBody_bytesWritten {cs : Codecs} {source writer : List UInt8}
    {s s' : DeltaDecoder × List UInt8} (hs : BytesWritten writer s) (h : decodeToBody cs source s = .next s') :
    BytesWritten writer s' := by
  unfold decodeToBody DeltaDecoder.decodeWindowTo at h
  rcases hw : s.1.inner.decodeWindow cs source [] with e | ⟨_ | _, inner, buf⟩ <;> rw [hw] at h
  · cases h
  · cases h
  · cases h
    unfold BytesWritten at hs ⊢
    simp only [List.length_append]
    omega

/-! ## The whole stream -/

/-- **`decode_to` counts what it writes.** -/
theorem decodeTo_bytesDecoded {cs : Codecs} {source writer : List UInt8} {dd : DeltaDecoder} {n : Nat}
    {dd' : DeltaDecoder} {writer' : List UInt8} (hdd : dd.bytesDecoded = 0)
    (h : dd.decodeTo cs source writer = .ok (n, dd', writer')) :
    n + writer.length = writer'.length := by
  unfold DeltaDecoder.decodeTo at h
  split at h
  · cases h
  · cases h
  · next r dd'' w hrun =>
    cases h
    refine Loop.run_invariant (BytesWritten writer)
      (fun r => ∀ t, r = .ok t → BytesWritten writer t) (fun _ _ hs hb => decodeToBody_bytesWritten hs hb)
      (fun s r hs hb t hr => ?_) _ _ _ (by simp [BytesWritten, hdd]) hrun _ rfl
    -- the end of the stream writes nothing more
    unfold decodeToBody DeltaDecoder.decodeWindowTo at hb
    rcases hw : s.1.inner.decodeWindow cs source [] with e | ⟨_ | _, inner, buf⟩ <;> rw [hw] at hb
    · cases hb; cases hr
    · cases hb; cases hr; exact hs
    · cases hb

/-- **Streaming decoding is decoding.**  From a new decoder over any delta,
`decode_to` appends to the writer exactly the target `decode_memory` rebuilds
from the delta and the source, and returns its length as the bytes decoded;
it fails exactly when `decode_memory` fails, with the same error. -/
theorem decodeTo_eq_decodeMemory (cs : Codecs) (delta source writer : List UInt8) :
    (fun r => (r.1, r.2.2)) <$> (DeltaDecoder.new delta).decodeTo cs source writer =
      (fun t => (t.length, writer ++ t)) <$> decodeMemory cs delta source := by
  -- `decode_to`'s loop, without the counters, is `decode_all`'s from the writer
  have hproj := Loop.run_map (fun t : DeltaDecoder × List UInt8 => (t.1.inner, t.2))
    (fun r : Result DecodeError (DeltaDecoder × List UInt8) => (fun t => (t.1.inner, t.2)) <$> r)
    (decodeToBody_map cs source) (delta.length + 2) (DeltaDecoder.new delta, writer)
  -- which is `decode_all`'s from an empty output, with the writer in front
  have hshift := Loop.run_map (fun t : StreamDecoder × List UInt8 => (t.1, writer ++ t.2))
    (fun r : Result DecodeError (StreamDecoder × List UInt8) => (fun t => (t.1, writer ++ t.2)) <$> r)
    (decodeAllBody_shift writer cs source) (delta.length + 2) (StreamDecoder.new delta true, [])
  have hinner : (DeltaDecoder.new delta).inner = StreamDecoder.new delta true := rfl
  dsimp only at hproj hshift
  rw [List.append_nil] at hshift
  rw [hinner, ← hshift] at hproj
  have hcount : ∀ n dd w, (DeltaDecoder.new delta).decodeTo cs source writer = .ok (n, dd, w) →
      n + writer.length = w.length :=
    fun _ _ _ h => decodeTo_bytesDecoded rfl h
  unfold DeltaDecoder.decodeTo at hcount ⊢
  unfold decodeMemory StreamDecoder.decodeAll
  have hlen : (DeltaDecoder.new delta).inner.reader.length = delta.length := rfl
  have hlen' : (StreamDecoder.new delta true).reader.length = delta.length := rfl
  rw [hlen] at hcount ⊢
  rw [hlen']
  generalize Loop.run (decodeToBody cs source) (delta.length + 2) (DeltaDecoder.new delta, writer) = R
    at hproj hcount ⊢
  generalize Loop.run (decodeAllBody cs source) (delta.length + 2) (StreamDecoder.new delta true, []) = A
    at hproj ⊢
  -- the two runs end alike; only the counter is left to compare
  rcases R with _ | (e | ⟨dd, w⟩) <;> rcases A with _ | (e' | ⟨d', o⟩) <;> simp at hproj ⊢
  · exact hproj
  · obtain ⟨-, rfl⟩ := hproj
    have hn := hcount dd.bytesDecoded dd (writer ++ o) rfl
    rw [List.length_append] at hn
    rw [show dd.bytesDecoded = o.length by omega]
    rfl

end Oxidelta.Compress
