import Oxidelta.Lib.Loop
import Oxidelta.Lib.Runs
import Oxidelta.Hash.Matching

/-!
# The scan of the match engine (`hash/matching.rs`)

`MatchEngine` holds a profile, the large hash and its table of source
positions, the small table of target positions and `match_srcpos`.
`index_source` fills the large table; `find_matches` scans a target window
once, position by position, and hands what it found to
`matches_to_instructions`.

The scan keeps four pieces of state besides its position: the small
checksum of the four bytes at the position, the large checksum of the
`large_look` bytes there, and the last byte of the small window with the
length of its run.  A taken match moves the position past it and computes
them afresh (`reinit`); a step of one byte updates them (`advance`).

The model is of the in-memory sources the repository has (`&[u8]` and
`Vec<u8>`, whose `as_slice` over the whole source always succeeds), so the
branches for other sources are not modelled.  Prefetching does not change
the state and is left out.  Slices whose bounds the loop's guard
establishes are taken with `drop`.

* `hashInv_of_reaches` — at every loop top with a small window left, the
  checksums are those of the bytes at the position, and the run state is
  that of `comprun` continued over every byte since the last
  re-initialisation;
* `findMatchesBodyFrom` — the loop with the position of the last
  re-initialisation carried along, which forgets to `findMatchesBody`;
* `rolling_hash_state_exact` — with the rolling law of `LargeHash`, what
  that says of the checksums, and of the run counted from the last
  re-initialisation.
-/

namespace Oxidelta.Hash

open Rust Vcdiff Runs

/-! ## The engine -/

/-- `MatchEngine`; the dispatched comparators are the scalar ones
(`forwardMatchFn`, `backwardMatchFn`, `runLengthFn`).  The large hash is
made for the profile's `large_look` and never replaced. -/
structure MatchEngine where
  config : MatcherConfig
  largeHash : LargeHash
  largeTable : LargeTable
  smallTable : SmallTable
  matchSrcpos : Nat
  largeHash_look : largeHash.look = config.largeLook

/-- `usize::next_power_of_two`. -/
def nextPowerOfTwo (n : Nat) : Nat :=
  if n ≤ 1 then 1 else 2 ^ ((n - 1).log2 + 1)

/-- `XD3_ALLOCSIZE`. -/
def xd3Allocsize : Nat := 2 ^ 14

/-- `MatchEngine::new`.  The source divides by `large_step`, which every
profile has positive. -/
def MatchEngine.new (config : MatcherConfig) (sourceLen winsize : Nat) : MatchEngine :=
  let largeSlots :=
    if sourceLen > 0 then
      -- `checked_next_power_of_two().unwrap_or(src_len)`
      let pow := if nextPowerOfTwo sourceLen < 2 ^ 64 then nextPowerOfTwo sourceLen else sourceLen
      max (max pow xd3Allocsize / config.largeStep) 8
    else 8
  let sprevsz :=
    if config.smallChain > 1 ∨ config.smallLchain > 1 then
      max (min (nextPowerOfTwo winsize) defaultSprevsz) 16
    else 0
  ⟨config, LargeHash.new config.largeLook, LargeTable.new largeSlots,
    SmallTable.new winsize sprevsz, 0, rfl⟩

/-- One iteration of the loop of `index_source` over an in-memory source:
insert the checksum of the window at `pos`, then step back by `large_step`,
or stop. -/
def indexSourceBody (e : MatchEngine) (src : List UInt8) (s : LargeTable × Nat) :
    Loop.Step (LargeTable × Nat) (Result ε LargeTable) :=
  match (e.largeHash.checksum (src.drop s.2) : Result ε Nat) with
  | .error err => .done (.error err)
  | .ok cksum =>
    let t := s.1.insert cksum s.2
    if s.2 < e.config.largeStep then .done (.ok t) else .next (t, s.2 - e.config.largeStep)

/-- `MatchEngine::index_source` on an in-memory source.  A zero step would
make the source loop forever; the model reports that as `diverge`. -/
def MatchEngine.indexSource (e : MatchEngine) (src : List UInt8) : Result ε MatchEngine :=
  if src.length < e.config.largeLook then .ok e
  else
    match Loop.run (indexSourceBody e src) (src.length + 1)
        (e.largeTable, src.length - e.config.largeLook) with
    | none => .error .diverge
    | some (.ok t) => .ok { e with largeTable := t }
    | some (.error err) => .error err

/-! ## Finding a match at a position -/

/-- `extend_source_match_slice`: a source match at `src_pos`, extended forward
as far as the bytes agree and then backward; `None` when fewer than
`MIN_MATCH` bytes agree forward. -/
def extendSourceMatchSlice (target source : List UInt8) (inputPos srcPos : Nat) :
    Option Match :=
  if srcPos ≥ source.length then none
  else
    let maxFwd := min (target.length - inputPos) (source.length - srcPos)
    let fwdLen := forwardMatchFn (source.drop srcPos) (target.drop inputPos) maxFwd
    if fwdLen < minMatch then none
    else
      let maxBack := min inputPos srcPos
      let backLen :=
        if maxBack > 0 then
          backwardMatchFn ((source.drop (srcPos - maxBack)).take maxBack)
            ((target.drop (inputPos - maxBack)).take maxBack) maxBack
        else 0
      some ⟨inputPos - backLen, backLen + fwdLen, srcPos - backLen, true⟩

/-- The chain walk of `small_match`, at candidate `base` with `chain`
candidates allowed: the best length and offset.  A walk allowed no candidate
at all underflows `chain -= 1`. -/
def chainWalk (config : MatcherConfig) (table : SmallTable) (target : List UInt8)
    (inputPos : Nat) : Nat → Nat → Nat → Nat → Result ε (Nat × Nat)
  | chain, base, bestLen, bestOffset =>
    if base ≥ inputPos then .ok (bestLen, bestOffset)
    else
      let cmpLen := forwardMatchFn (target.drop base) (target.drop inputPos)
        (target.length - inputPos)
      if cmpLen > bestLen ∧ (cmpLen ≥ config.longEnough ∨ inputPos + cmpLen ≥ target.length) then
        .ok (cmpLen, base)
      else
        let best := if cmpLen > bestLen then (cmpLen, base) else (bestLen, bestOffset)
        match chain with
        | 0 => Rust.panic "attempt to subtract with overflow"
        | 1 => .ok best
        | c + 2 =>
          match table.chainPrev base inputPos with
          | some prev => chainWalk config table target inputPos (c + 1) prev best.1 best.2
          | none => .ok best

/-- `small_match`: the longest earlier occurrence of the bytes at
`input_pos` along the chain of their small checksum, unless it is shorter
than `MIN_MATCH` or too short for its distance. -/
def smallMatch (config : MatcherConfig) (table : SmallTable) (target : List UInt8)
    (inputPos scksum minMatch' : Nat) : Result ε (Option Match) :=
  match table.lookup scksum with
  | none => .ok none
  | some head => do
    let maxChain := if minMatch' > minMatch then config.smallLchain else config.smallChain
    let best ← chainWalk config table target inputPos maxChain head 0 0
    if best.1 < minMatch then .ok none
    else
      let distance := inputPos - best.2
      if best.1 = 4 ∧ distance ≥ 2 ^ 14 then .ok none
      else if best.1 = 5 ∧ distance ≥ 2 ^ 21 then .ok none
      else .ok (some ⟨inputPos, best.1, best.2, false⟩)

/-! ## The scan -/

/-- What the scan reads and does not change: the profile, the large hash and
table, the target and the source. -/
structure ScanCtx where
  config : MatcherConfig
  largeHash : LargeHash
  largeTable : LargeTable
  target : List UInt8
  source : Option (List UInt8)
  largeHash_look : largeHash.look = config.largeLook

/-- The locals of `find_matches`'s loop, with the small table. -/
structure ScanState where
  found : List Match
  inputPos : Nat
  minMatch : Nat
  runL : Nat
  runC : UInt8
  scksum : Nat
  lcksum : Nat
  smallTable : SmallTable

/-- The context of a scan of `target` by `e`. -/
def MatchEngine.scanCtx (e : MatchEngine) (target : List UInt8) (source : Option (List UInt8)) :
    ScanCtx :=
  ⟨e.config, e.largeHash, e.largeTable, target, source, e.largeHash_look⟩

/-- The hash state: the position, the two checksums and the run. -/
def ScanState.hash (st : ScanState) : Nat × Nat × Nat × Nat × UInt8 :=
  (st.inputPos, st.scksum, st.lcksum, st.runL, st.runC)

/-- The re-initialisation after a taken match, at the state's position: the
checksums and the run of the bytes there, when a small window is left. -/
def reinit (ctx : ScanCtx) (st : ScanState) : Result ε ScanState :=
  if st.inputPos + ctx.config.smallLook ≤ ctx.target.length then
    let rest := ctx.target.drop st.inputPos
    smallCksum rest >>= fun scksum =>
    comprun rest ctx.config.smallLook >>= fun run =>
    (if ctx.source.isSome ∧ st.inputPos + ctx.config.largeLook ≤ ctx.target.length then
        ctx.largeHash.checksum rest
      else pure st.lcksum) >>= fun lcksum =>
    .ok { st with scksum := scksum, runL := run.1, runC := run.2, lcksum := lcksum }
  else .ok st

/-- How a block of the loop body ends: `continue` the loop (it goes round
again from a state), or fall through to the next block, with whether
`min_match` was set for a lazy match. -/
inductive Flow where
  | again (st : ScanState)
  | fallThrough (st : ScanState) (skipDecay : Bool)

/-- The next block runs unless the previous one continued the loop. -/
def Flow.andThen (f : Result ε Flow) (block : ScanState → Bool → Result ε Flow) :
    Result ε Flow :=
  f >>= fun (flow : Flow) =>
    match flow with
    | .again st => .ok (.again st)
    | .fallThrough st skip => block st skip

/-- What every block does with a match it has pushed, of `len` bytes past
the position: keep looking one byte further (lazy), or move past it,
re-initialise and continue. -/
def acceptMatch (ctx : ScanCtx) (st : ScanState) (len : Nat) : Result ε Flow :=
  if tryLazy len ctx.config.maxLazy st.inputPos ctx.target.length then
    .ok (.fallThrough { st with minMatch := len } true)
  else
    (reinit ctx { st with inputPos := st.inputPos + len, minMatch := minMatch }).map .again

/-- Block 1: a small window of equal bytes, extended forward into a run. -/
def tryRun (ctx : ScanCtx) (st : ScanState) (skip : Bool) : Result ε Flow :=
  if st.runL = ctx.config.smallLook then
    let remaining := ctx.target.length - st.inputPos - st.runL
    let totalRun := st.runL +
      runLengthFn (ctx.target.drop (st.inputPos + st.runL)) st.runC remaining
    if totalRun ≥ st.minMatch ∧ totalRun ≥ minRun then
      acceptMatch ctx { st with found := st.found ++ [⟨st.inputPos, totalRun, runAddr, false⟩] }
        totalRun
    else .ok (.fallThrough st skip)
  else .ok (.fallThrough st skip)

/-- The erasure before a backward-extended source match: pop the matches
that start at or after it. -/
def eraseCovered (start : Nat) (found : List Match) : List Match :=
  (found.reverse.dropWhile fun last => last.targetPos ≥ start).reverse

/-- Block 2: a source match through the large table, accepted on its forward
length. -/
def tryLarge (ctx : ScanCtx) (st : ScanState) (skip : Bool) : Result ε Flow :=
  match ctx.source with
  | none => .ok (.fallThrough st skip)
  | some src =>
    if st.inputPos + ctx.config.largeLook ≤ ctx.target.length then
      match ctx.largeTable.lookup st.lcksum with
      | none => .ok (.fallThrough st skip)
      | some srcPos =>
        match extendSourceMatchSlice ctx.target src st.inputPos srcPos with
        | none => .ok (.fallThrough st skip)
        | some m =>
          let backLen := st.inputPos - m.targetPos
          let fwdLen := m.length - backLen
          if fwdLen ≥ st.minMatch then
            let found := if backLen > 0 then eraseCovered m.targetPos st.found else st.found
            acceptMatch ctx { st with found := found ++ [m] } fwdLen
          else .ok (.fallThrough st skip)
    else .ok (.fallThrough st skip)

/-- Block 3: a target match through the small table; the position is
inserted whatever is found. -/
def trySmall (ctx : ScanCtx) (st : ScanState) (skip : Bool) : Result ε Flow := do
  let r ← smallMatch ctx.config st.smallTable ctx.target st.inputPos st.scksum st.minMatch
  let st := { st with smallTable := st.smallTable.insert st.scksum st.inputPos }
  match r with
  | some m =>
    if m.length ≥ st.minMatch then acceptMatch ctx { st with found := st.found ++ [m] } m.length
    else .ok (.fallThrough st skip)
  | none => .ok (.fallThrough st skip)

/-- Step 4: advance one byte; unless the small window has left the target,
the small checksum of the bytes there, the run continued by the byte that
enters the window, and the large checksum rolled by one byte. -/
def advance (ctx : ScanCtx) (st : ScanState) (skip : Bool) :
    Result ε (Loop.Step ScanState ScanState) :=
  let st := { st with
    minMatch := if !skip && st.minMatch > minMatch then st.minMatch - 1 else st.minMatch
    inputPos := st.inputPos + 1 }
  if st.inputPos + ctx.config.smallLook > ctx.target.length then .ok (.done st)
  else do
    let nextByte ← index ctx.target (st.inputPos + ctx.config.smallLook - 1)
    let run := runStep (st.runL, st.runC) nextByte
    let lcksum :=
      if ctx.source.isSome ∧ st.inputPos + ctx.config.largeLook ≤ ctx.target.length then
        ctx.largeHash.updateAt st.lcksum ctx.target (st.inputPos - 1)
      else st.lcksum
    .ok (.next { st with
      scksum := smallCksumAt ctx.target st.inputPos
      runL := run.1
      runC := run.2
      lcksum := lcksum })

/-- The body after the guard: blocks 1 to 3, then the advance unless a block
continued the loop. -/
def scanIteration (ctx : ScanCtx) (st : ScanState) : Result ε (Loop.Step ScanState ScanState) :=
  Flow.andThen (Flow.andThen (tryRun ctx st false) (tryLarge ctx)) (trySmall ctx) >>=
    fun (flow : Flow) =>
      match flow with
      | .again st' => .ok (.next st')
      | .fallThrough st' skip => advance ctx st' skip

/-- One iteration of `find_matches`'s main loop. -/
def findMatchesBody (ctx : ScanCtx) (st : ScanState) : Loop.Step ScanState (Result ε ScanState) :=
  if st.inputPos + ctx.config.smallLook > ctx.target.length then .done (.ok st)
  else
    match scanIteration ctx st with
    | .ok (.next st') => .next st'
    | .ok (.done st') => .done (.ok st')
    | .error err => .done (.error err)

/-- The `MATCH_TARGET` probe before the loop: the target's prefix matched
against the source at `match_srcpos`; a long enough match is the first one,
and the state is re-initialised after it.  Also the new `match_srcpos`. -/
def probe (ctx : ScanCtx) (matchSrcpos : Nat) (st : ScanState) : Result ε (ScanState × Nat) :=
  match ctx.source with
  | none => .ok (st, matchSrcpos)
  | some src =>
    if matchSrcpos < src.length then
      let maxFwd := min ctx.target.length (src.length - matchSrcpos)
      if maxFwd ≥ minMatch then
        let fwdLen := forwardMatchFn (src.drop matchSrcpos) ctx.target maxFwd
        if fwdLen ≥ minMatch then do
          let st' ← reinit ctx { st with
            found := st.found ++ [⟨0, fwdLen, matchSrcpos, true⟩], inputPos := fwdLen }
          .ok (st', if fwdLen = ctx.target.length then matchSrcpos + fwdLen else matchSrcpos)
        else .ok (st, matchSrcpos)
      else .ok (st, matchSrcpos)
    else .ok (st, matchSrcpos)

/-- The state entering the loop: the checksums and run at position 0, then
the probe. -/
def findMatchesStart (e : MatchEngine) (target : List UInt8) (source : Option (List UInt8)) :
    Result ε (ScanState × Nat) :=
  smallCksum target >>= fun scksum =>
  comprun target e.config.smallLook >>= fun run =>
  (if source.isSome ∧ e.config.largeLook ≤ target.length then e.largeHash.checksum target
    else pure 0) >>= fun lcksum =>
  probe (e.scanCtx target source) e.matchSrcpos
    ⟨[], 0, minMatch, run.1, run.2, scksum, lcksum, e.smallTable.reset⟩

/-- `MatchEngine::find_matches` with an in-memory source or none: the
instructions, and the engine as the next window finds it. -/
def MatchEngine.findMatches (e : MatchEngine) (target : List UInt8)
    (source : Option (List UInt8)) : Result ε (List Instruction × MatchEngine) :=
  if target.length < e.config.smallLook then
    .ok (emitAddAll target, { e with smallTable := e.smallTable.reset })
  else do
    let start ← findMatchesStart e target source
    match Loop.run (findMatchesBody (e.scanCtx target source)) (target.length + 2) start.1 with
    | none => .error .diverge
    | some (.error err) => .error err
    | some (.ok st) => do
      let insts ← matchesToInstructions target (source.elim 0 List.length) st.found
      .ok (insts, { e with smallTable := st.smallTable, matchSrcpos := start.2 })

/-! ## The hash state at every loop top -/

/-- The bytes of `data` from `start` to `stop`: the window over which the
run state has been scanned since its last re-initialisation. -/
def runWindow (data : List UInt8) (start stop : Nat) : List UInt8 :=
  (data.drop start).take (stop - start)

theorem length_runWindow {data : List UInt8} {start stop : Nat} (h : stop ≤ data.length) :
    (runWindow data start stop).length = stop - start := by
  simp only [runWindow, List.length_take, List.length_drop]
  omega

theorem getElem?_runWindow {data : List UInt8} {start stop i : Nat} (hi : i < stop - start) :
    (runWindow data start stop)[i]? = data[start + i]? := by
  rw [runWindow, List.getElem?_take_of_lt hi, List.getElem?_drop]

/-- A window grows by the byte at its end. -/
theorem runWindow_succ {data : List UInt8} {start stop : Nat} {b : UInt8} (hle : start ≤ stop)
    (hb : data[stop]? = some b) : runWindow data start (stop + 1) = runWindow data start stop ++ [b] := by
  rw [runWindow, runWindow, show stop + 1 - start = stop - start + 1 by omega, List.take_add_one,
    List.getElem?_drop, Nat.add_sub_cancel' hle, hb]
  rfl

/-- The runs that end a window are the runs of `data` that end at `stop` and
start inside the window. -/
theorem runsAtEnd_runWindow {data : List UInt8} {start stop : Nat} (c : UInt8)
    (h : stop ≤ data.length) :
    RunsAtEnd (runWindow data start stop) c =
      {k | k ≤ stop - start ∧ ∀ i < k, data[stop - 1 - i]? = some c} := by
  ext k
  simp only [RunsAtEnd, Set.mem_ofPred_eq, length_runWindow h]
  refine and_congr_right fun hk => forall₂_congr fun i hi => ?_
  rw [getElem?_runWindow (by omega), show start + (stop - start - 1 - i) = stop - 1 - i by omega]

theorem comprun_eq_foldl {seg : List UInt8} {look : Nat} (h : look ≤ seg.length) :
    (comprun seg look : Result ε (Nat × UInt8)) = .ok ((seg.take look).foldl runStep (0, 0)) := by
  rw [comprun, if_pos h]
  rfl

theorem smallCksum_drop {data : List UInt8} {pos : Nat} (h : pos + 4 ≤ data.length) :
    (smallCksum (data.drop pos) : Result ε Nat) = .ok (smallCksumAt data pos) := by
  rw [smallCksum, if_pos (by simp; omega)]
  rfl

/-- **The hash state.**  At a loop top where a small window is left: the
small checksum is that of the bytes at the position; with a source and a
large window left, so is the large one; and the run state is that of
`comprun` continued over the bytes from some earlier position `start` to
the end of the small window. -/
def HashInv (ε : Type) (ctx : ScanCtx) (st : ScanState) : Prop :=
  st.inputPos + ctx.config.smallLook ≤ ctx.target.length →
    (smallCksum (ctx.target.drop st.inputPos) : Result ε Nat) = .ok st.scksum ∧
    (ctx.source.isSome → st.inputPos + ctx.config.largeLook ≤ ctx.target.length →
      (ctx.largeHash.checksum (ctx.target.drop st.inputPos) : Result ε Nat) = .ok st.lcksum) ∧
    ∃ start ≤ st.inputPos, (st.runL, st.runC) =
      (runWindow ctx.target start (st.inputPos + ctx.config.smallLook)).foldl runStep (0, 0)

section Invariant

variable {ε : Type} {ctx : ScanCtx}

/-- The invariant reads only the hash state. -/
theorem HashInv.of_hash_eq {st st' : ScanState} (h : HashInv ε ctx st)
    (heq : st'.hash = st.hash) : HashInv ε ctx st' := by
  simp only [ScanState.hash, Prod.mk.injEq] at heq
  obtain ⟨hpos, hs, hl, hrl, hrc⟩ := heq
  unfold HashInv
  rw [hpos, hs, hl, hrl, hrc]
  exact h

/-- The run state counted from `start`: at a loop top where a small window is
left, `start` is at or before the position and the run state is that of
`comprun` continued over the bytes from `start` to the end of the small
window. -/
def RunFrom (ctx : ScanCtx) (st : ScanState) (start : Nat) : Prop :=
  st.inputPos + ctx.config.smallLook ≤ ctx.target.length →
    start ≤ st.inputPos ∧
      (st.runL, st.runC) = (runWindow ctx.target start (st.inputPos + ctx.config.smallLook)).foldl runStep (0, 0)

/-- A re-initialised state counts its run from its own position. -/
theorem reinit_runFrom {st st' : ScanState} (h : (reinit ctx st : Result ε ScanState) = .ok st') :
    RunFrom ctx st' st'.inputPos := by
  unfold reinit at h
  split at h
  · obtain ⟨scksum, -, h⟩ := bind_eq_ok h
    obtain ⟨run, hrun, h⟩ := bind_eq_ok h
    obtain ⟨lcksum, -, h⟩ := bind_eq_ok h
    cases h
    intro _
    refine ⟨Nat.le_refl _, ?_⟩
    rw [comprun_eq_foldl (by simp; omega)] at hrun
    cases hrun
    rw [runWindow, Nat.add_sub_cancel_left]
  · next hgt =>
    cases h
    intro hle
    exact absurd hle hgt

/-- The run state reads only the hash state. -/
theorem RunFrom.of_hash_eq {st st' : ScanState} {start : Nat} (h : RunFrom ctx st start)
    (heq : st'.hash = st.hash) : RunFrom ctx st' start := by
  simp only [ScanState.hash, Prod.mk.injEq] at heq
  obtain ⟨hpos, -, -, hrl, hrc⟩ := heq
  unfold RunFrom
  rw [hpos, hrl, hrc]
  exact h

/-- A re-initialised state satisfies the invariant, with the run window
starting at its position. -/
theorem reinit_hashInv {st st' : ScanState} (h : (reinit ctx st : Result ε ScanState) = .ok st') :
    HashInv ε ctx st' := by
  have hfrom := reinit_runFrom h
  unfold reinit at h
  split at h
  · obtain ⟨scksum, hs, h⟩ := bind_eq_ok h
    obtain ⟨run, -, h⟩ := bind_eq_ok h
    obtain ⟨lcksum, hl, h⟩ := bind_eq_ok h
    cases h
    intro hle
    obtain ⟨hstart, hrun⟩ := hfrom hle
    exact ⟨hs, fun hsrc hlarge => by rwa [if_pos ⟨hsrc, hlarge⟩] at hl, _, hstart, hrun⟩
  · next hgt =>
    cases h
    intro hle
    exact absurd hle hgt

/-- What a block may do to the hash state: fall through leaving it as it
was, or continue the loop from a state that satisfies the invariant, having
re-initialised it at its position. -/
def FlowOk (ε : Type) (ctx : ScanCtx) (st : ScanState) : Flow → Prop
  | .again st' => HashInv ε ctx st' ∧ RunFrom ctx st' st'.inputPos
  | .fallThrough st' _ => st'.hash = st.hash

theorem FlowOk.of_hash_eq {st st' : ScanState} {flow : Flow} (h : FlowOk ε ctx st' flow)
    (heq : st'.hash = st.hash) : FlowOk ε ctx st flow := by
  cases flow with
  | again _ => exact h
  | fallThrough _ _ => exact h.trans heq

theorem acceptMatch_flowOk {st : ScanState} {len : Nat} {flow : Flow}
    (h : (acceptMatch ctx st len : Result ε Flow) = .ok flow) : FlowOk ε ctx st flow := by
  unfold acceptMatch at h
  split at h
  · cases h
    rfl
  · generalize hr : (reinit ctx { st with inputPos := st.inputPos + len, minMatch := minMatch } :
      Result ε ScanState) = r at h
    cases r with
    | error _ => cases h
    | ok st' =>
      cases h
      exact ⟨reinit_hashInv hr, reinit_runFrom hr⟩

/-- A block that accepts a match, pushed on a state that differs only in
the matches, ends as `acceptMatch` does. -/
theorem acceptMatch_push_flowOk {st : ScanState} {found : List Match} {len : Nat} {flow : Flow}
    (h : (acceptMatch ctx { st with found := found } len : Result ε Flow) = .ok flow) :
    FlowOk ε ctx st flow :=
  (acceptMatch_flowOk h).of_hash_eq rfl

theorem tryRun_flowOk {st : ScanState} {skip : Bool} {flow : Flow}
    (h : (tryRun ctx st skip : Result ε Flow) = .ok flow) : FlowOk ε ctx st flow := by
  unfold tryRun at h
  dsimp only at h
  split_ifs at h
  · exact acceptMatch_push_flowOk h
  · cases h
    rfl
  · cases h
    rfl

theorem tryLarge_flowOk {st : ScanState} {skip : Bool} {flow : Flow}
    (h : (tryLarge ctx st skip : Result ε Flow) = .ok flow) : FlowOk ε ctx st flow := by
  unfold tryLarge at h
  -- every branch but the accepted source match falls through unchanged
  cases hsrc : ctx.source with
  | none =>
    rw [hsrc] at h
    cases h
    rfl
  | some src =>
    rw [hsrc] at h
    dsimp only at h
    split_ifs at h
    · cases hlk : ctx.largeTable.lookup st.lcksum with
      | none =>
        rw [hlk] at h
        cases h
        rfl
      | some srcPos =>
        rw [hlk] at h
        dsimp only at h
        cases hext : extendSourceMatchSlice ctx.target src st.inputPos srcPos with
        | none =>
          rw [hext] at h
          cases h
          rfl
        | some m =>
          rw [hext] at h
          dsimp only at h
          -- accepted after an erasure or without one, or falling through
          split_ifs at h
          · exact acceptMatch_push_flowOk h
          · exact acceptMatch_push_flowOk h
          · cases h
            rfl
    · cases h
      rfl

theorem trySmall_flowOk {st : ScanState} {skip : Bool} {flow : Flow}
    (h : (trySmall ctx st skip : Result ε Flow) = .ok flow) : FlowOk ε ctx st flow := by
  unfold trySmall at h
  obtain ⟨r, -, h⟩ := bind_eq_ok h
  -- the insertion into the small table leaves the hash state alone
  have hins : FlowOk ε ctx { st with smallTable := st.smallTable.insert st.scksum st.inputPos }
      flow := by
    cases r with
    | some m =>
      dsimp only at h
      split_ifs at h
      · exact acceptMatch_push_flowOk h
      · cases h
        rfl
    | none =>
      cases h
      rfl
  exact hins.of_hash_eq rfl

theorem andThen_flowOk {st : ScanState} {f : Result ε Flow} {block : ScanState → Bool → Result ε Flow}
    {flow : Flow} (hf : ∀ flow, f = .ok flow → FlowOk ε ctx st flow)
    (hblock : ∀ st' skip flow, block st' skip = .ok flow → FlowOk ε ctx st' flow)
    (h : Flow.andThen f block = .ok flow) : FlowOk ε ctx st flow := by
  obtain ⟨flow₀, h₀, h⟩ := bind_eq_ok h
  cases flow₀ with
  | again st' =>
    cases h
    exact hf _ h₀
  | fallThrough st' skip => exact (hblock st' skip flow h).of_hash_eq (hf _ h₀)

/-- What an advance that goes on did: it found a small window one byte on,
read the byte that enters it, and moved the hash state by one byte. -/
theorem advance_next {st st' : ScanState} {skip : Bool}
    (h : (advance ctx st skip : Result ε (Loop.Step ScanState ScanState)) = .ok (.next st')) :
    st.inputPos + 1 + ctx.config.smallLook ≤ ctx.target.length ∧
    ∃ b, ctx.target[st.inputPos + ctx.config.smallLook]? = some b ∧
      st'.inputPos = st.inputPos + 1 ∧ st'.scksum = smallCksumAt ctx.target (st.inputPos + 1) ∧
      (st'.runL, st'.runC) = runStep (st.runL, st.runC) b ∧
      st'.lcksum = if ctx.source.isSome ∧ st.inputPos + 1 + ctx.config.largeLook ≤ ctx.target.length
        then ctx.largeHash.updateAt st.lcksum ctx.target st.inputPos else st.lcksum := by
  unfold advance at h
  dsimp only at h
  by_cases hbrk : st.inputPos + 1 + ctx.config.smallLook > ctx.target.length
  · rw [if_pos hbrk] at h
    cases h
  · rw [if_neg hbrk] at h
    obtain ⟨b, hb, h⟩ := bind_eq_ok h
    cases h
    have hb' := index_eq_ok hb
    rw [show st.inputPos + 1 + ctx.config.smallLook - 1 = st.inputPos + ctx.config.smallLook by
      omega] at hb'
    exact ⟨by omega, b, hb', rfl, rfl, rfl, by rw [Nat.add_sub_cancel]⟩

/-- The advance continues the run over the byte that enters the small
window. -/
theorem advance_runFrom {st st' : ScanState} {skip : Bool} {start : Nat} (hrun : RunFrom ctx st start)
    (hguard : st.inputPos + ctx.config.smallLook ≤ ctx.target.length)
    (h : (advance ctx st skip : Result ε (Loop.Step ScanState ScanState)) = .ok (.next st')) :
    RunFrom ctx st' start := by
  obtain ⟨hstart, hwin⟩ := hrun hguard
  obtain ⟨hnext, b, hb, hpos, -, hstep, -⟩ := advance_next h
  intro _
  refine ⟨by omega, ?_⟩
  rw [hpos, show st.inputPos + 1 + ctx.config.smallLook = st.inputPos + ctx.config.smallLook + 1 by
      omega, runWindow_succ (by omega) hb, List.foldl_append, ← hwin, hstep]
  rfl

/-- **The advance keeps the invariant.**  One byte on, the small checksum is
read afresh, the byte that enters the small window continues the run, and
the large checksum rolls by the law of `LargeHash.update`. -/
theorem advance_hashInv (h4 : 4 ≤ ctx.config.smallLook) {st st' : ScanState} {skip : Bool}
    (hinv : HashInv ε ctx st) (hguard : st.inputPos + ctx.config.smallLook ≤ ctx.target.length)
    (h : (advance ctx st skip : Result ε (Loop.Step ScanState ScanState)) = .ok (.next st')) :
    HashInv ε ctx st' := by
  obtain ⟨hs, hl, start, hstart, hrun⟩ := hinv hguard
  have hfrom := advance_runFrom (fun _ => ⟨hstart, hrun⟩) hguard h
  obtain ⟨hnext, b, hb, hpos, hsck, -, hlck⟩ := advance_next h
  intro hle
  obtain ⟨hstart', hrun'⟩ := hfrom hle
  rw [hpos, hsck, hlck]
  refine ⟨smallCksum_drop (by omega), fun hsrc hlarge => ?_, start, by omega, ?_⟩
  · -- the large checksum rolls one byte
    rw [if_pos ⟨hsrc, hlarge⟩]
    obtain ⟨⟨c, hc, hupdate⟩, hat⟩ := largeHash_update_checksum (ε := ε) ctx.largeHash
      (ctx.target.drop st.inputPos) (by rw [List.length_drop, ctx.largeHash_look]; omega)
    rw [hl hsrc (by omega)] at hc
    cases hc
    rw [← List.drop_drop, ← hupdate, hat _ ctx.target st.inputPos rfl]
  · rw [← hpos]
    exact hrun'

theorem scanIteration_hashInv (h4 : 4 ≤ ctx.config.smallLook) {st st' : ScanState}
    (hinv : HashInv ε ctx st) (hguard : st.inputPos + ctx.config.smallLook ≤ ctx.target.length)
    (h : (scanIteration ctx st : Result ε (Loop.Step ScanState ScanState)) = .ok (.next st')) :
    HashInv ε ctx st' := by
  obtain ⟨flow, hflow, h⟩ := bind_eq_ok h
  have hok : FlowOk ε ctx st flow :=
    andThen_flowOk (fun _ h => andThen_flowOk (fun _ => tryRun_flowOk)
      (fun _ _ _ => tryLarge_flowOk) h) (fun _ _ _ => trySmall_flowOk) hflow
  cases flow with
  | again st'' =>
    cases h
    exact hok.1
  | fallThrough st'' skip =>
    have hsame : st''.inputPos = st.inputPos := congrArg Prod.fst hok
    exact advance_hashInv h4 (hinv.of_hash_eq hok) (hsame ▸ hguard) h

theorem findMatchesBody_hashInv (h4 : 4 ≤ ctx.config.smallLook) {st st' : ScanState}
    (hinv : HashInv ε ctx st)
    (h : (findMatchesBody ctx st : Loop.Step ScanState (Result ε ScanState)) = .next st') :
    HashInv ε ctx st' := by
  unfold findMatchesBody at h
  split at h
  · cases h
  · next hguard =>
    split at h
    · next hiter =>
      cases h
      exact scanIteration_hashInv h4 hinv (by omega) hiter
    · cases h
    · cases h

/-- What the probe did: nothing, or it took a match at the start of the
target and re-initialised past it. -/
theorem probe_cases {pos pos' : Nat} {st st' : ScanState}
    (h : (probe ctx pos st : Result ε (ScanState × Nat)) = .ok (st', pos')) :
    st' = st ∨ ∃ st'', (reinit ctx st'' : Result ε ScanState) = .ok st' := by
  unfold probe at h
  split at h
  · cases h
    exact .inl rfl
  · dsimp only at h
    split at h
    · split at h
      · split at h
        · -- a taken match re-initialises past it
          obtain ⟨st'', hre, h⟩ := bind_eq_ok h
          cases h
          exact .inr ⟨_, hre⟩
        · cases h; exact .inl rfl
      · cases h; exact .inl rfl
    · cases h; exact .inl rfl

theorem probe_hashInv {pos pos' : Nat} {st st' : ScanState} (hinv : HashInv ε ctx st)
    (h : (probe ctx pos st : Result ε (ScanState × Nat)) = .ok (st', pos')) :
    HashInv ε ctx st' := by
  rcases probe_cases h with rfl | ⟨st'', hre⟩
  · exact hinv
  · exact reinit_hashInv hre

/-- The state entering the loop satisfies the invariant. -/
theorem findMatchesStart_hashInv {e : MatchEngine} {target : List UInt8}
    {source : Option (List UInt8)} {st : ScanState} {pos : Nat}
    (h : (findMatchesStart e target source : Result ε (ScanState × Nat)) = .ok (st, pos)) :
    HashInv ε (e.scanCtx target source) st := by
  unfold findMatchesStart at h
  obtain ⟨scksum, hs, h⟩ := bind_eq_ok h
  obtain ⟨run, hrun, h⟩ := bind_eq_ok h
  obtain ⟨lcksum, hl, h⟩ := bind_eq_ok h
  refine probe_hashInv (fun hle => ?_) h
  simp only [MatchEngine.scanCtx, List.drop_zero, Nat.zero_add] at hle ⊢
  refine ⟨hs, fun hsrc hlarge => ?_, 0, Nat.le_refl _, ?_⟩
  · rwa [if_pos ⟨hsrc, hlarge⟩] at hl
  · rw [comprun_eq_foldl hle] at hrun
    cases hrun
    simp only [runWindow, List.drop_zero, Nat.sub_zero]

/-- **The invariant at every loop top.**  Every state the loop of
`find_matches` passes through satisfies the invariant. -/
theorem hashInv_of_reaches {e : MatchEngine} {target : List UInt8} {source : Option (List UInt8)}
    (h4 : 4 ≤ e.config.smallLook) {st₀ st : ScanState} {pos : Nat}
    (hstart : (findMatchesStart e target source : Result ε (ScanState × Nat)) = .ok (st₀, pos))
    (hreach : Loop.Reaches (findMatchesBody (ε := ε) (e.scanCtx target source)) st₀ st) :
    HashInv ε (e.scanCtx target source) st :=
  Loop.Reaches.invariant (HashInv ε (e.scanCtx target source))
    (fun _ _ hinv hnext => findMatchesBody_hashInv h4 hinv hnext)
    (findMatchesStart_hashInv hstart) hreach

end Invariant

/-! ## The scan starts -/

section Start

variable {ε : Type} {ctx : ScanCtx}

/-- A chain of two computations succeeds when the first does and the second
does from whatever the first returned. -/
theorem bind_exists_ok {α β : Type} {x : Result ε α} {f : α → Result ε β} (hx : ∃ a, x = .ok a)
    (hf : ∀ a, ∃ b, f a = .ok b) : ∃ b, (x >>= f) = .ok b := by
  obtain ⟨a, rfl⟩ := hx
  exact hf a

theorem smallCksum_ok {base : List UInt8} (h : 4 ≤ base.length) :
    ∃ c, (smallCksum base : Result ε Nat) = .ok c :=
  ⟨_, by rw [smallCksum, if_pos h]; rfl⟩

/-- With small windows of at least four bytes, a re-initialisation never
fails. -/
theorem reinit_ok (h4 : 4 ≤ ctx.config.smallLook) (st : ScanState) :
    ∃ st', (reinit ctx st : Result ε ScanState) = .ok st' := by
  unfold reinit
  split
  · next hle =>
    refine bind_exists_ok (smallCksum_ok (by simp; omega)) fun _ =>
      bind_exists_ok ⟨_, comprun_eq_foldl (by simp; omega)⟩ fun _ => bind_exists_ok ?_ fun _ => ⟨_, rfl⟩
    split
    · next hlarge =>
      exact ⟨_, ctx.largeHash.checksum_eq (by rw [List.length_drop, ctx.largeHash_look]; omega)⟩
    · exact ⟨_, rfl⟩
  · exact ⟨_, rfl⟩

theorem probe_ok (h4 : 4 ≤ ctx.config.smallLook) (pos : Nat) (st : ScanState) :
    ∃ r, (probe ctx pos st : Result ε (ScanState × Nat)) = .ok r := by
  unfold probe
  split
  · exact ⟨_, rfl⟩
  · dsimp only
    split
    · split
      · split
        · -- a taken match re-initialises, which never fails
          exact bind_exists_ok (reinit_ok h4 _) fun _ => ⟨_, rfl⟩
        · exact ⟨_, rfl⟩
      · exact ⟨_, rfl⟩
    · exact ⟨_, rfl⟩

/-- On a target with a small window, the scan gets to its loop. -/
theorem findMatchesStart_ok {e : MatchEngine} {target : List UInt8}
    {source : Option (List UInt8)} (h4 : 4 ≤ e.config.smallLook)
    (hlen : e.config.smallLook ≤ target.length) :
    ∃ st pos, (findMatchesStart e target source : Result ε (ScanState × Nat)) = .ok (st, pos) := by
  have hstart : ∃ r, (findMatchesStart e target source : Result ε (ScanState × Nat)) = .ok r := by
    refine bind_exists_ok (smallCksum_ok (by omega)) fun _ =>
      bind_exists_ok ⟨_, comprun_eq_foldl hlen⟩ fun _ => bind_exists_ok ?_ fun _ =>
        @probe_ok ε (e.scanCtx target source) h4 _ _
    split
    · next hlarge =>
      exact ⟨_, e.largeHash.checksum_eq (by rw [e.largeHash_look]; exact hlarge.2)⟩
    · exact ⟨_, rfl⟩
  obtain ⟨⟨st, pos⟩, h⟩ := hstart
  exact ⟨st, pos, h⟩

end Start

/-- **What the run state says.**  The comprun scan over a non-empty window
of `data` ending at `stop` holds the last byte of the window, and the length
of the longest run of it that ends there and starts inside the window. -/
theorem runState_spec {data : List UInt8} {start stop runL : Nat} {runC : UInt8}
    (hs : start < stop) (h : stop ≤ data.length)
    (hrun : (runL, runC) = (runWindow data start stop).foldl runStep (0, 0)) :
    data[stop - 1]? = some runC ∧
      IsGreatest {k | k ≤ stop - start ∧ ∀ i < k, data[stop - 1 - i]? = some runC} runL := by
  have hne : runWindow data start stop ≠ [] := by
    rw [← List.length_pos_iff, length_runWindow h]
    omega
  obtain ⟨hlast, hgreat⟩ := foldl_runStep (0 : UInt8) _ hne
  rw [← hrun] at hlast hgreat
  rw [runsAtEnd_runWindow _ h] at hgreat
  refine ⟨?_, hgreat⟩
  rw [List.getLast?_eq_getElem?, length_runWindow h, getElem?_runWindow (by omega),
    show start + (stop - start - 1) = stop - 1 by omega] at hlast
  exact hlast

/-! ## The run since the last re-initialisation -/

section RunStart

variable {ε : Type} {ctx : ScanCtx}

/-- An iteration of `find_matches`'s loop with, alongside the state, the
position where the hash state was last re-initialised (ghost state: the source
keeps it in no variable).  A block that continues the loop has re-initialised
the state at its new position; the advance keeps it. -/
def scanIterationFrom (ctx : ScanCtx) (s : ScanState × Nat) :
    Result ε (Loop.Step (ScanState × Nat) (ScanState × Nat)) :=
  Flow.andThen (Flow.andThen (tryRun ctx s.1 false) (tryLarge ctx)) (trySmall ctx) >>=
    fun (flow : Flow) =>
      match flow with
      | .again st' => .ok (.next (st', st'.inputPos))
      | .fallThrough st' skip => Loop.Step.map (·, s.2) (·, s.2) <$> advance ctx st' skip

/-- `findMatchesBody` with the ghost re-initialisation point. -/
def findMatchesBodyFrom (ctx : ScanCtx) (s : ScanState × Nat) :
    Loop.Step (ScanState × Nat) (Result ε (ScanState × Nat)) :=
  if s.1.inputPos + ctx.config.smallLook > ctx.target.length then .done (.ok s)
  else
    match scanIterationFrom ctx s with
    | .ok (.next s') => .next s'
    | .ok (.done s') => .done (.ok s')
    | .error err => .done (.error err)

/-- Forgetting the ghost position gives the loop's own iteration. -/
theorem findMatchesBodyFrom_map (s : ScanState × Nat) :
    (findMatchesBodyFrom (ε := ε) ctx s).map Prod.fst (Prod.fst <$> ·) = findMatchesBody ctx s.1 := by
  unfold findMatchesBodyFrom findMatchesBody
  by_cases hg : s.1.inputPos + ctx.config.smallLook > ctx.target.length
  · rw [if_pos hg, if_pos hg]
    rfl
  · rw [if_neg hg, if_neg hg]
    unfold scanIterationFrom scanIteration
    -- the blocks are the same; only what follows them carries the ghost
    rcases Flow.andThen (Flow.andThen (tryRun ctx s.1 false) (tryLarge ctx)) (trySmall ctx) with
      e | (st' | ⟨st', skip⟩)
    · rfl
    · rfl
    · simp only [bind_ok']
      rcases advance ctx st' skip with e | (st'' | st'') <;> rfl

/-- **The run step.**  An iteration that goes on keeps the run counted from
the ghost position: a block that continues the loop counts it from its new
position, and the advance continues the run over the byte that enters the
small window. -/
theorem findMatchesBodyFrom_runFrom {s s' : ScanState × Nat} (hrun : RunFrom ctx s.1 s.2)
    (h : (findMatchesBodyFrom ctx s : Loop.Step _ (Result ε (ScanState × Nat))) = .next s') :
    RunFrom ctx s'.1 s'.2 := by
  unfold findMatchesBodyFrom at h
  split at h
  · cases h
  · next hguard =>
    split at h
    · next s'' hiter =>
      cases h
      obtain ⟨flow, hflow, hiter⟩ := bind_eq_ok hiter
      have hok : FlowOk ε ctx s.1 flow :=
        andThen_flowOk (fun _ h => andThen_flowOk (fun _ => tryRun_flowOk)
          (fun _ _ _ => tryLarge_flowOk) h) (fun _ _ _ => trySmall_flowOk) hflow
      cases flow with
      | again st'' =>
        cases hiter
        exact hok.2
      | fallThrough st'' skip =>
        -- the advance: the run goes on over the byte that enters the window
        dsimp only at hiter
        cases ha : (advance ctx st'' skip : Result ε (Loop.Step ScanState ScanState)) with
        | error e => rw [ha] at hiter; cases hiter
        | ok step =>
          rw [ha] at hiter
          cases step with
          | done st₃ => cases hiter
          | next st₃ =>
            cases hiter
            have hhash : st''.hash = s.1.hash := hok
            have hsame : st''.inputPos = s.1.inputPos := congrArg Prod.fst hhash
            exact advance_runFrom (hrun.of_hash_eq hhash) (by omega) ha
    · cases h
    · cases h

/-- The state entering the loop counts its run from its position: from the
start of the target, or from past the match the probe took. -/
theorem findMatchesStart_runFrom {e : MatchEngine} {target : List UInt8}
    {source : Option (List UInt8)} {st : ScanState} {pos : Nat}
    (h : (findMatchesStart e target source : Result ε (ScanState × Nat)) = .ok (st, pos)) :
    RunFrom (e.scanCtx target source) st st.inputPos := by
  unfold findMatchesStart at h
  obtain ⟨scksum, -, h⟩ := bind_eq_ok h
  obtain ⟨run, hrun, h⟩ := bind_eq_ok h
  obtain ⟨lcksum, -, h⟩ := bind_eq_ok h
  rcases probe_cases h with rfl | ⟨st'', hre⟩
  · intro hle
    simp only [MatchEngine.scanCtx, Nat.zero_add] at hle ⊢
    refine ⟨Nat.le_refl 0, ?_⟩
    rw [comprun_eq_foldl hle] at hrun
    cases hrun
    simp only [runWindow, List.drop_zero, Nat.sub_zero]
  · exact reinit_runFrom hre

/-- Every state the lifted loop passes through counts its run from its ghost
position. -/
theorem runFrom_of_reaches {e : MatchEngine} {target : List UInt8} {source : Option (List UInt8)}
    {st₀ : ScanState} {pos : Nat}
    (hstart : (findMatchesStart e target source : Result ε (ScanState × Nat)) = .ok (st₀, pos))
    {s : ScanState × Nat}
    (hreach : Loop.Reaches (findMatchesBodyFrom (ε := ε) (e.scanCtx target source)) (st₀, st₀.inputPos) s) :
    RunFrom (e.scanCtx target source) s.1 s.2 :=
  Loop.Reaches.invariant (fun s => RunFrom (e.scanCtx target source) s.1 s.2)
    (fun _ _ hinv hnext => findMatchesBodyFrom_runFrom hinv hnext) (findMatchesStart_runFrom hstart) hreach

end RunStart

/-- **The rolling hash state is exact.**  The large checksum rolls: from the
checksum of the window at the start of `b`, `update` gives that of the
window one byte on, and `update_at` at a pointer to `b` agrees with it.  And
in `find_matches`, whatever the engine's earlier state (its tables and
`match_srcpos`), its profile with small windows of four bytes, the target
(with a small window) and the source: the scan gets to its loop; every state
of the loop is one of the loop that carries alongside the position where the
hash state was last re-initialised (`findMatchesBodyFrom`: at the start, after
the probe's match, or after a match a block took); and at every such state
with a small window left, the small checksum is that of the bytes at the
position; the large checksum is that of the bytes there when there is a
source and a large window is left; `run_c` is the last byte of the small
window; and `run_l` is the length of the longest run of it that ends there
and starts no earlier than the last re-initialisation, so a run of four means
four equal bytes. -/
theorem rolling_hash_state_exact {ε : Type} :
    (∀ (h : LargeHash) (b : List UInt8), h.look < b.length →
      (∃ c, (h.checksum b : Result ε Nat) = .ok c ∧
        (h.update c b : Result ε Nat) = h.checksum (b.drop 1)) ∧
      ∀ (old : Nat) (mem : List UInt8) (ptr : Nat), mem.drop ptr = b →
        (h.update old b : Result ε Nat) = .ok (h.updateAt old mem ptr)) ∧
    ∀ (e : MatchEngine) (target : List UInt8) (source : Option (List UInt8)),
      e.config.smallLook = 4 → 4 ≤ target.length →
      ∃ st₀ pos, (findMatchesStart e target source : Result ε (ScanState × Nat)) = .ok (st₀, pos) ∧
      (∀ st, Loop.Reaches (findMatchesBody (ε := ε) (e.scanCtx target source)) st₀ st →
        ∃ start, Loop.Reaches (findMatchesBodyFrom (ε := ε) (e.scanCtx target source))
          (st₀, st₀.inputPos) (st, start)) ∧
      ∀ st start, Loop.Reaches (findMatchesBodyFrom (ε := ε) (e.scanCtx target source))
          (st₀, st₀.inputPos) (st, start) →
        st.inputPos + 4 ≤ target.length →
          (smallCksum (target.drop st.inputPos) : Result ε Nat) = .ok st.scksum ∧
          (source.isSome → st.inputPos + e.config.largeLook ≤ target.length →
            (e.largeHash.checksum (target.drop st.inputPos) : Result ε Nat) = .ok st.lcksum) ∧
          target[st.inputPos + 3]? = some st.runC ∧
          start ≤ st.inputPos ∧
          IsGreatest
            {k | k ≤ st.inputPos + 4 - start ∧ ∀ i < k, target[st.inputPos + 3 - i]? = some st.runC}
            st.runL ∧
          (st.runL = 4 → ∀ i < 4, target[st.inputPos + i]? = some st.runC) := by
  refine ⟨fun h b hb => largeHash_update_checksum h b hb, fun e target source hlook hlen => ?_⟩
  obtain ⟨st₀, pos, hstart⟩ := @findMatchesStart_ok ε e target source (by omega) (by omega)
  have hmap := @findMatchesBodyFrom_map ε (e.scanCtx target source)
  refine ⟨st₀, pos, hstart, fun st hreach => ?_, fun st start hreach hle => ?_⟩
  · -- every state of the loop lifts to one of the loop with the ghost position
    obtain ⟨⟨st', start⟩, hst, hr⟩ :=
      Loop.Reaches.lift Prod.fst (Prod.fst <$> ·) hmap (s := (st₀, st₀.inputPos)) hreach
    subst hst
    exact ⟨start, hr⟩
  · -- the checksums, from the invariant of the loop without the ghost position
    have hreal : Loop.Reaches (findMatchesBody (ε := ε) (e.scanCtx target source)) st₀ st :=
      Loop.Reaches.map Prod.fst (Prod.fst <$> ·) hmap hreach
    have hinv := hashInv_of_reaches (by omega) hstart hreal
    simp only [HashInv, MatchEngine.scanCtx, hlook] at hinv
    obtain ⟨hs, hl, -⟩ := hinv hle
    -- the run, counted from the last re-initialisation
    have hfrom := runFrom_of_reaches hstart hreach
    simp only [RunFrom, MatchEngine.scanCtx, hlook] at hfrom
    obtain ⟨hstart', hrun⟩ := hfrom hle
    obtain ⟨hlast, hgreat⟩ := runState_spec (by omega) hle hrun
    simp only [show st.inputPos + 4 - 1 = st.inputPos + 3 by omega] at hlast hgreat
    refine ⟨hs, hl, hlast, hstart', hgreat, fun h4 i hi => ?_⟩
    -- a run of four covers the whole small window
    have hall := (hgreat.1).2 (3 - i) (by omega)
    rwa [show st.inputPos + 3 - (3 - i) = st.inputPos + i by omega] at hall

end Oxidelta.Hash
