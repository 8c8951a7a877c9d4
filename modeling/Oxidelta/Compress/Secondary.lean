import Oxidelta.Vcdiff.Header

/-!
# Secondary compression of sections (`compress/secondary.rs`)

A window's three sections can each be compressed by a general-purpose
compressor, LZMA (`lzma-rs`) or zlib (`flate2`); the delta indicator flags the
sections that were, and the file header names the compressor.  The
compressors are libraries outside the repository: the model takes them as
parameters (`Codecs`), and the results that need them to be lossless say so
as a hypothesis (`Codecs.Lossless`).

Main results:

* `decompressSections_compressSections` — with lossless codecs, decompressing
  the sections `compress_sections` produced, under the delta indicator it
  returned, gives back the sections;
* `compressSections_delInd_lt` — the delta indicator has only the three
  section bits.
-/

namespace Oxidelta.Compress

open Rust Oxidelta.Vcdiff

/-- `VCD_LZMA_ID`. -/
def vcdLzmaId : UInt8 := 2
/-- `VCD_ZLIB_ID`. -/
def vcdZlibId : UInt8 := 3
/-- `MIN_COMPRESS_SIZE`. -/
def minCompressSize : Nat := 32

/-- The library calls the backends make: compressing (an I/O error on
failure) and decompressing (the library's error text on failure). -/
structure Codecs where
  lzmaCompress : List UInt8 → Except IoError (List UInt8)
  lzmaDecompress : List UInt8 → Except String (List UInt8)
  zlibCompress : Nat → List UInt8 → Except IoError (List UInt8)
  zlibDecompress : List UInt8 → Except String (List UInt8)

/-- The libraries decompress exactly what they compress. -/
structure Codecs.Lossless (cs : Codecs) : Prop where
  lzma : ∀ d c, cs.lzmaCompress d = .ok c → cs.lzmaDecompress c = .ok d
  zlib : ∀ level d c, cs.zlibCompress level d = .ok c → cs.zlibDecompress c = .ok d

/-- `CompressBackend`: an id, and the three methods. -/
structure CompressBackend where
  id : UInt8
  compress : List UInt8 → Except IoError (List UInt8)
  decompress : List UInt8 → Except DecodeError (List UInt8)
  shouldCompress : List UInt8 → Bool

/-- The default `should_compress`: sections of at least `MIN_COMPRESS_SIZE` bytes. -/
def defaultShouldCompress (data : List UInt8) : Bool := decide (minCompressSize ≤ data.length)

/-- `LzmaBackend`. -/
def lzmaBackend (cs : Codecs) : CompressBackend where
  id := vcdLzmaId
  compress := cs.lzmaCompress
  decompress d := match cs.lzmaDecompress d with
    | .ok out => .ok out
    | .error e => .error (.invalidInput ("LZMA decompression failed: " ++ e))
  shouldCompress := defaultShouldCompress

/-- `ZlibBackend` of a compression level. -/
def zlibBackend (cs : Codecs) (level : Nat) : CompressBackend where
  id := vcdZlibId
  compress := cs.zlibCompress level
  decompress d := match cs.zlibDecompress d with
    | .ok out => .ok out
    | .error e => .error (.invalidInput ("Zlib decompression failed: " ++ e))
  shouldCompress := defaultShouldCompress

/-- `NoCompression`. -/
def noCompression : CompressBackend where
  id := 0
  compress d := .ok d
  decompress d := .ok d
  shouldCompress _ := false

/-- `SecondaryCompression`, with both library features on. -/
inductive SecondaryCompression where
  | none
  | lzma
  | zlib (level : Nat)
  | custom (backend : CompressBackend)

/-- `SecondaryCompression::backend`: the backend, or none for no compression. -/
def SecondaryCompression.backend (cs : Codecs) : SecondaryCompression → Option CompressBackend
  | .none => Option.none
  | .lzma => some (lzmaBackend cs)
  | .zlib level => some (zlibBackend cs level)
  | .custom b => some b

/-- `compress_section`: the compressed bytes when they are shorter. -/
def compressSection (backend : CompressBackend) (data : List UInt8) : Except IoError (List UInt8) :=
  if !backend.shouldCompress data then .ok data
  else
    match backend.compress data with
    | .error e => .error e
    | .ok compressed => .ok (if compressed.length < data.length then compressed else data)

/-- `compress_sections`: each section compressed when that makes it shorter,
and the delta indicator of those that were. -/
def compressSections (backend : CompressBackend) (data inst addr : List UInt8) :
    Except IoError (List UInt8 × List UInt8 × List UInt8 × UInt8) := do
  let compData ← compressSection backend data
  let compInst ← compressSection backend inst
  let compAddr ← compressSection backend addr
  let delInd : UInt8 :=
    (if compData.length < data.length then vcdDatacomp else 0) |||
      (if compInst.length < inst.length then vcdInstcomp else 0) |||
      (if compAddr.length < addr.length then vcdAddrcomp else 0)
  pure (if delInd &&& vcdDatacomp ≠ 0 then compData else data,
    if delInd &&& vcdInstcomp ≠ 0 then compInst else inst,
    if delInd &&& vcdAddrcomp ≠ 0 then compAddr else addr, delInd)

/-- `backend_for_id`, with both library features on. -/
def backendForId (cs : Codecs) (secondaryId : Option UInt8) : Except DecodeError CompressBackend :=
  match secondaryId with
  | some id =>
    if id = vcdLzmaId then .ok (lzmaBackend cs)
    else if id = vcdZlibId then .ok (zlibBackend cs 6)
    else .error (.unsupported ("unsupported secondary compressor ID: " ++ toString id.toNat))
  | none => .error (.invalidInput
      "del_ind indicates secondary compression but no compressor ID in file header")

/-- `decompress_sections`: each flagged section decompressed. -/
def decompressSections (cs : Codecs) (data inst addr : List UInt8) (delInd : UInt8)
    (secondaryId : Option UInt8) : Except DecodeError (List UInt8 × List UInt8 × List UInt8) :=
  if delInd = 0 then .ok (data, inst, addr)
  else do
    let backend ← backendForId cs secondaryId
    let decData ← if delInd &&& vcdDatacomp ≠ 0 then backend.decompress data else pure data
    let decInst ← if delInd &&& vcdInstcomp ≠ 0 then backend.decompress inst else pure inst
    let decAddr ← if delInd &&& vcdAddrcomp ≠ 0 then backend.decompress addr else pure addr
    pure (decData, decInst, decAddr)

@[simp] theorem decompressSections_zero (cs : Codecs) (data inst addr : List UInt8)
    (secondaryId : Option UInt8) : decompressSections cs data inst addr 0 secondaryId = .ok (data, inst, addr) :=
  if_pos rfl

/-! ## Round trip -/

section RoundTrip

variable {cs : Codecs}

/-- A backend that the decoder finds again from the id the file header
records, and whose compression the backend found undoes. -/
def CompressBackend.Recoverable (cs : Codecs) (b : CompressBackend) : Prop :=
  ∃ b', backendForId cs (some b.id) = .ok b' ∧ ∀ d c, b.compress d = .ok c → b'.decompress c = .ok d

theorem lzmaBackend_recoverable (h : cs.Lossless) : (lzmaBackend cs).Recoverable cs := by
  refine ⟨lzmaBackend cs, ?_, fun d c hc => ?_⟩
  · show backendForId cs (some vcdLzmaId) = _
    rw [backendForId, if_pos rfl]
  simp only [lzmaBackend, h.lzma d c hc]

/-- The decoder undoes zlib at any level with its default level: zlib's
decompression does not depend on the level the data was compressed at. -/
theorem zlibBackend_recoverable (h : cs.Lossless) (level : Nat) : (zlibBackend cs level).Recoverable cs := by
  refine ⟨zlibBackend cs 6, ?_, fun d c hc => ?_⟩
  · show backendForId cs (some vcdZlibId) = _
    rw [backendForId, if_neg (by decide), if_pos rfl]
  simp only [zlibBackend, h.zlib level d c hc]

/-- What `compress_section` returns: the section itself, or a shorter form
the backend compressed it to. -/
theorem compressSection_cases {b : CompressBackend} {d c : List UInt8} (h : compressSection b d = .ok c) :
    c = d ∨ c.length < d.length ∧ b.compress d = .ok c := by
  unfold compressSection at h
  split at h
  · cases h
    exact .inl rfl
  · split at h
    · cases h
    · next comp hcomp =>
      cases h
      split
      · next hlt => exact .inr ⟨hlt, hcomp⟩
      · exact .inl rfl

/-- The delta indicator `compress_sections` builds has a bit for each
section that shrank, and no other. -/
theorem delInd_bits (p q r : Prop) [Decidable p] [Decidable q] [Decidable r] :
    let delInd : UInt8 := (if p then vcdDatacomp else 0) ||| (if q then vcdInstcomp else 0) |||
      (if r then vcdAddrcomp else 0)
    (delInd &&& vcdDatacomp ≠ 0 ↔ p) ∧ (delInd &&& vcdInstcomp ≠ 0 ↔ q) ∧
      (delInd &&& vcdAddrcomp ≠ 0 ↔ r) ∧ (delInd = 0 ↔ ¬p ∧ ¬q ∧ ¬r) ∧ delInd.toNat < 8 := by
  by_cases hp : p <;> by_cases hq : q <;> by_cases hr : r <;>
    simp only [hp, hq, hr, if_true, if_false] <;> decide

/-- One section through the round trip: flagged exactly when it shrank, it
comes back from the flagged form. -/
theorem decompress_compressSection {b b' : CompressBackend}
    (hundo : ∀ d c, b.compress d = .ok c → b'.decompress c = .ok d) {d c : List UInt8}
    (hc : compressSection b d = .ok c) (bit : Prop) [Decidable bit] (hbit : bit ↔ c.length < d.length) :
    (if bit then b'.decompress (if bit then c else d) else pure (if bit then c else d)) =
      (.ok d : Except DecodeError (List UInt8)) := by
  rcases compressSection_cases hc with rfl | ⟨hlt, hcomp⟩
  · rw [if_neg (by rw [hbit]; exact Nat.lt_irrefl _), if_neg (by rw [hbit]; exact Nat.lt_irrefl _)]
    rfl
  · rw [if_pos (hbit.2 hlt), if_pos (hbit.2 hlt)]
    exact hundo d c hcomp

/-- What `compress_sections` returns: each section, or its compressed form
exactly when that is shorter, and the indicator of the shorter ones. -/
theorem compressSections_cases {b : CompressBackend} {data inst addr : List UInt8}
    {r : List UInt8 × List UInt8 × List UInt8 × UInt8} (h : compressSections b data inst addr = .ok r) :
    ∃ cd ci ca delInd, compressSection b data = .ok cd ∧ compressSection b inst = .ok ci ∧
      compressSection b addr = .ok ca ∧
      (delInd &&& vcdDatacomp ≠ 0 ↔ cd.length < data.length) ∧
      (delInd &&& vcdInstcomp ≠ 0 ↔ ci.length < inst.length) ∧
      (delInd &&& vcdAddrcomp ≠ 0 ↔ ca.length < addr.length) ∧
      (delInd = 0 ↔ ¬cd.length < data.length ∧ ¬ci.length < inst.length ∧ ¬ca.length < addr.length) ∧
      delInd.toNat < 8 ∧
      r = (if delInd &&& vcdDatacomp ≠ 0 then cd else data, if delInd &&& vcdInstcomp ≠ 0 then ci else inst,
        if delInd &&& vcdAddrcomp ≠ 0 then ca else addr, delInd) := by
  unfold compressSections at h
  cases hd : compressSection b data with
  | error e => rw [hd] at h; cases h
  | ok cd =>
  cases hi : compressSection b inst with
  | error e => rw [hd, hi] at h; cases h
  | ok ci =>
  cases ha : compressSection b addr with
  | error e => rw [hd, hi, ha] at h; cases h
  | ok ca =>
  rw [hd, hi, ha] at h
  cases h
  obtain ⟨hbd, hbi, hba, hzero, hlt⟩ :=
    delInd_bits (cd.length < data.length) (ci.length < inst.length) (ca.length < addr.length)
  exact ⟨cd, ci, ca, _, rfl, rfl, rfl, hbd, hbi, hba, hzero, hlt, rfl⟩

/-- The delta indicator `compress_sections` returns has only the three
section bits. -/
theorem compressSections_delInd_lt {b : CompressBackend} {data inst addr data' inst' addr' : List UInt8}
    {delInd : UInt8} (h : compressSections b data inst addr = .ok (data', inst', addr', delInd)) :
    delInd.toNat < 8 := by
  obtain ⟨_, _, _, _, -, -, -, -, -, -, -, hlt, hr⟩ := compressSections_cases h
  cases hr
  exact hlt

/-- A backend whose compression does not fail compresses any three
sections. -/
theorem compressSections_ok {b : CompressBackend} (htot : ∀ d, ∃ c, b.compress d = .ok c)
    (data inst addr : List UInt8) : ∃ r, compressSections b data inst addr = .ok r := by
  have hsec : ∀ d, ∃ c, compressSection b d = .ok c := by
    intro d
    unfold compressSection
    split
    · exact ⟨d, rfl⟩
    · obtain ⟨c, hc⟩ := htot d
      rw [hc]
      exact ⟨_, rfl⟩
  obtain ⟨cd, hd⟩ := hsec data
  obtain ⟨ci, hi⟩ := hsec inst
  obtain ⟨ca, ha⟩ := hsec addr
  exact ⟨_, by rw [compressSections, hd, bind_ok', hi, bind_ok', ha, bind_ok']; rfl⟩

/-- `compress_sections` never lengthens a section. -/
theorem compressSections_length_le {b : CompressBackend} {data inst addr data' inst' addr' : List UInt8}
    {delInd : UInt8} (h : compressSections b data inst addr = .ok (data', inst', addr', delInd)) :
    data'.length ≤ data.length ∧ inst'.length ≤ inst.length ∧ addr'.length ≤ addr.length := by
  obtain ⟨cd, ci, ca, _, -, -, -, hbd, hbi, hba, -, -, hr⟩ := compressSections_cases h
  cases hr
  -- a section is replaced only by a shorter one
  have hle : ∀ {p : Prop} [Decidable p] {c d : List UInt8}, (p ↔ c.length < d.length) →
      (if p then c else d).length ≤ d.length := by
    intro p _ c d hp
    split
    · next hc => exact (hp.1 hc).le
    · exact le_rfl
  exact ⟨hle hbd, hle hbi, hle hba⟩

/-- **Secondary compression round-trips.**  For a backend the decoder finds
again from its id, decompressing the sections `compress_sections` returned,
under the delta indicator it returned, gives back the sections. -/
theorem decompressSections_compressSections {b : CompressBackend} (hb : b.Recoverable cs)
    {data inst addr data' inst' addr' : List UInt8} {delInd : UInt8}
    (h : compressSections b data inst addr = .ok (data', inst', addr', delInd)) :
    decompressSections cs data' inst' addr' delInd (some b.id) = .ok (data, inst, addr) := by
  obtain ⟨b', hfind, hundo⟩ := hb
  obtain ⟨cd, ci, ca, _, hd, hi, ha, hbd, hbi, hba, hzero, -, hr⟩ := compressSections_cases h
  cases hr
  unfold decompressSections
  split
  · -- no section shrank: they were written as they are
    next h0 =>
    obtain ⟨hnd, hni, hna⟩ := hzero.1 h0
    rw [if_neg (fun h => hnd (hbd.1 h)), if_neg (fun h => hni (hbi.1 h)), if_neg (fun h => hna (hba.1 h))]
  · -- each flagged section is decompressed by the backend the id names
    have ed := decompress_compressSection hundo hd _ hbd
    have ei := decompress_compressSection hundo hi _ hbi
    have ea := decompress_compressSection hundo ha _ hba
    rw [hfind]
    by_cases bd : delInd &&& vcdDatacomp = 0 <;> by_cases bi : delInd &&& vcdInstcomp = 0 <;>
      by_cases ba : delInd &&& vcdAddrcomp = 0 <;>
      simp only [bd, bi, ba, ne_eq, not_true_eq_false, not_false_eq_true, ↓reduceIte] at ed ei ea ⊢ <;>
      simp [bind, Except.bind, pure, Except.pure, ed, ei, ea]

end RoundTrip

end Oxidelta.Compress
