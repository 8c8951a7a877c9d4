import Oxidelta.Vcdiff.Iterator
import Oxidelta.Vcdiff.Instructions

/-!
# The instruction iterator against the decoder

`execute_half_instruction` does two things: it decodes a half-instruction
(its size from the table or the instruction section, and for a COPY its
address through the cache), and it replays the instruction so decoded against
the data section, the source and the output.  `decodeHalf` and
`replayInstruction` are those two parts, with the source's checks and error
texts, and `executeHalfInstruction_eq` shows that the decoder is the first
followed by the second.  This names the instruction each half executes: the
logged decoder `traceBody` runs the decoder's loop and appends that
instruction to a log, and `traceBody_map` shows that without its log it is the
decoder's loop, iteration for iteration.

`InstructionIterator` (used by the `print` command) decodes the same
half-instructions with its own cache and `target_pos`, holding the second
half of a double opcode back.  It stands where the decoder stands
(`iteratorOf`), and the decoder's moves are the iterator's:

* `resolveHalf_of_decodeHalf` — a half the decoder decodes, and whose
  `target_pos` does not overflow, is the instruction the iterator resolves;
* `traceOpcode_collect` — over one opcode, `collect` takes one item per half,
  the instructions the decoder logged, and replaying them reproduces the
  decoder's state;
* `traceBody_collect` — the same over a whole run, by induction on the
  decoder's bound;
* `iterator_agrees_with_decoder` — for every window the decoder decodes, the
  iterator yields only instructions, exactly the ones the decoder executed,
  and replaying them over the data section and the source gives the decoder's
  output.

The decoder resets its cache at the window's start (`init`), the iterator
builds a new one; they agree for the cache every caller passes, which
`AddressCache::new` built (`decode_window_with_cache` is private, and both of
its callers create the cache with `AddressCache::new`).  `decodeAll_init`
shows it of every window the stream decoder decodes: a window keeps the
sizes of the cache.
-/

namespace Oxidelta.Vcdiff

open Rust

/-! ## The decoder as decoding, then replay -/

/-- The decoding part of `execute_half_instruction`: the size, the instruction
position after it, and for a COPY the address, the address position after it
and the cache after it. -/
def decodeHalf (ctx : WindowCtx) (itype tableSize : UInt8) (st : WindowState) :
    Result DecodeError (Instruction × WindowState) := do
  let (size, instPos) ← resolveSize "bad instruction size: " ctx.instSection st.instPos tableSize
  let st := { st with instPos }
  if itype = xd3Run then pure (.run size, st)
  else if itype = xd3Add then pure (.add size, st)
  else
    let mode := itype - xd3Cpy
    let here ← addChecked 64 ctx.copyWindowLen st.targetPos
    let addrData ← sliceFrom ctx.addrSection st.addrPos
    let (addr, consumed, acache) ←
      mapErr (fun e => DecodeError.invalidInput ("address decode: " ++ e.display))
        (st.acache.decode mode addrData here)
    pure (.copy size addr mode, { st with addrPos := st.addrPos + consumed, acache })

/-- The replaying part of `execute_half_instruction`: a RUN or an ADD reads
the data section, a COPY reads the source or the output; each advances
`target_pos` by the instruction's size. -/
def replayInstruction (ctx : WindowCtx) : Instruction → WindowState → Result DecodeError WindowState
  | .run size, st =>
    if st.dataPos ≥ ctx.dataSection.length then
      fail (.invalidInput "data section underflow (RUN)")
    else do
      let byte ← index ctx.dataSection st.dataPos
      let output := st.output ++ List.replicate size byte
      let targetPos ← addChecked 64 st.targetPos size
      pure { st with dataPos := st.dataPos + 1, output, targetPos }
  | .add size, st =>
    let stop := st.dataPos + size
    if stop > ctx.dataSection.length then
      fail (.invalidInput "data section underflow (ADD)")
    else do
      let bytes ← slice ctx.dataSection st.dataPos stop
      let targetPos ← addChecked 64 st.targetPos size
      pure { st with output := st.output ++ bytes, dataPos := st.dataPos + size, targetPos }
  | .copy size addr _, st =>
    (if addr < ctx.copyWindowLen then
        addChecked 64 addr size >>= fun stop => pure (decide (stop > ctx.copyWindowLen))
      else pure false) >>= fun spans =>
    if spans then fail (.invalidInput "COPY spans source/target boundary")
    else
      (if addr < ctx.copyWindowLen then
          addChecked 64 ctx.copyWindowOffset addr >>= fun srcOffset =>
            sourceCopy ctx.source srcOffset size st.output
        else targetCopy (ctx.baseOffset + (addr - ctx.copyWindowLen)) size st.output) >>= fun output =>
      addChecked 64 st.targetPos size >>= fun targetPos =>
      pure { st with output, targetPos }

/-- **`execute_half_instruction` decodes, then replays.** -/
theorem executeHalfInstruction_eq (ctx : WindowCtx) (itype tableSize : UInt8) (st : WindowState) :
    executeHalfInstruction ctx itype tableSize st =
      decodeHalf ctx itype tableSize st >>= fun p => replayInstruction ctx p.1 p.2 := by
  simp only [executeHalfInstruction, decodeHalf, bind_assoc]
  congr 1
  funext p
  by_cases hrun : itype = xd3Run
  · simp only [if_pos hrun, pure_bind, replayInstruction]
  · by_cases hadd : itype = xd3Add
    · simp only [if_neg hrun, if_pos hadd, pure_bind, replayInstruction]
    · simp only [if_neg hrun, if_neg hadd, bind_assoc, pure_bind, replayInstruction]
      congr 1; funext here; congr 1; funext addrData; congr 1; funext x
      by_cases hlt : x.1 < ctx.copyWindowLen <;> simp [hlt]

/-- Decoding moves only the instruction and address positions and the cache,
and keeps the cache's sizes. -/
theorem decodeHalf_frame {ctx : WindowCtx} {itype tableSize : UInt8} {st st₁ : WindowState}
    {inst : Instruction} (h : decodeHalf ctx itype tableSize st = .ok (inst, st₁)) :
    ∃ instPos addrPos acache, acache.init = st.acache.init ∧ st₁ = { st with instPos, addrPos, acache } := by
  unfold decodeHalf at h
  obtain ⟨⟨size, instPos⟩, -, h⟩ := bind_eq_ok h
  dsimp only at h
  split_ifs at h
  · cases h; exact ⟨_, _, _, rfl, rfl⟩
  · cases h; exact ⟨_, _, _, rfl, rfl⟩
  · obtain ⟨here, -, h⟩ := bind_eq_ok h
    obtain ⟨addrData, -, h⟩ := bind_eq_ok h
    obtain ⟨⟨addr, consumed, acache⟩, hdecode, h⟩ := bind_eq_ok h
    cases h
    exact ⟨_, _, _, AddressCache.decode_init (mapErr_eq_ok hdecode), rfl⟩

/-- Replaying moves only the data position, the output and `target_pos`, this by
the size of the instruction, without overflow. -/
theorem replayInstruction_frame {ctx : WindowCtx} {inst : Instruction} {st st' : WindowState}
    (h : replayInstruction ctx inst st = .ok st') :
    (∃ dataPos output, st' = { st with dataPos, output, targetPos := st.targetPos + instLen inst }) ∧
      st.targetPos + instLen inst < 2 ^ 64 := by
  cases inst with
  | run size =>
    rw [replayInstruction] at h
    split at h
    · simp [fail] at h
    · obtain ⟨byte, -, h⟩ := bind_eq_ok h
      obtain ⟨targetPos, htp, h⟩ := bind_eq_ok h
      obtain ⟨rfl, hlt⟩ := addChecked_eq_ok htp
      cases h
      exact ⟨⟨_, _, rfl⟩, hlt⟩
  | add size =>
    rw [replayInstruction] at h
    split at h
    · simp [fail] at h
    · obtain ⟨bytes, -, h⟩ := bind_eq_ok h
      obtain ⟨targetPos, htp, h⟩ := bind_eq_ok h
      obtain ⟨rfl, hlt⟩ := addChecked_eq_ok htp
      cases h
      exact ⟨⟨_, _, rfl⟩, hlt⟩
  | copy size addr mode =>
    rw [replayInstruction] at h
    obtain ⟨spans, -, h⟩ := bind_eq_ok h
    split at h
    · simp [fail] at h
    · obtain ⟨output, -, h⟩ := bind_eq_ok h
      obtain ⟨targetPos, htp, h⟩ := bind_eq_ok h
      obtain ⟨rfl, hlt⟩ := addChecked_eq_ok htp
      cases h
      exact ⟨⟨_, _, rfl⟩, hlt⟩

/-- Replay reads neither the positions in the instruction and address sections
nor the cache, and leaves them as they are. -/
theorem replayInstruction_cursor (ctx : WindowCtx) (inst : Instruction) (st : WindowState)
    (instPos addrPos : Nat) (acache : AddressCache) :
    replayInstruction ctx inst { st with instPos, addrPos, acache } =
      (fun st' => { st' with instPos, addrPos, acache }) <$> replayInstruction ctx inst st := by
  cases inst with
  | run size =>
    simp only [replayInstruction]
    split <;> simp [fail, map_bind]
  | add size =>
    simp only [replayInstruction]
    split <;> simp [fail, map_bind]
  | copy size addr mode =>
    simp only [replayInstruction]
    simp only [fail, map_bind]
    congr 1
    funext spans
    split <;> simp [map_bind]

/-! ## The logged decoder -/

/-- `execute_half_instruction`, logging the instruction it decoded. -/
def traceHalf (ctx : WindowCtx) (itype tableSize : UInt8) (s : WindowState × List Instruction) :
    Result DecodeError (WindowState × List Instruction) :=
  decodeHalf ctx itype tableSize s.1 >>= fun p =>
    replayInstruction ctx p.1 p.2 >>= fun st => pure (st, s.2 ++ [p.1])

/-- `executeOpcode`, logging its halves. -/
def traceOpcode (ctx : WindowCtx) (entry : CodeTableEntry) (s : WindowState × List Instruction) :
    Result DecodeError (WindowState × List Instruction) :=
  (if entry.type1 ≠ xd3Noop then traceHalf ctx entry.type1 entry.size1 s else pure s) >>= fun s =>
    if entry.type2 ≠ xd3Noop then traceHalf ctx entry.type2 entry.size2 s else pure s

/-- `windowBody`, logging the halves of its opcode. -/
def traceBody (ctx : WindowCtx) (s : WindowState × List Instruction) :
    Loop.Step (WindowState × List Instruction) (Result DecodeError (WindowState × List Instruction)) :=
  if h : s.1.instPos < ctx.instSection.length then
    match traceOpcode ctx (codeEntry ctx.instSection[s.1.instPos])
        ({ s.1 with instPos := s.1.instPos + 1 }, s.2) with
    | .ok s' => .next s'
    | .error e => .done (.error e)
  else .done (.ok s)

theorem traceHalf_fst (ctx : WindowCtx) (itype tableSize : UInt8) (s : WindowState × List Instruction) :
    Prod.fst <$> traceHalf ctx itype tableSize s = executeHalfInstruction ctx itype tableSize s.1 := by
  rw [executeHalfInstruction_eq, traceHalf]
  simp [map_bind]

theorem traceOpcode_fst (ctx : WindowCtx) (entry : CodeTableEntry) (s : WindowState × List Instruction) :
    Prod.fst <$> traceOpcode ctx entry s = executeOpcode ctx entry s.1 := by
  unfold traceOpcode executeOpcode
  by_cases h1 : entry.type1 ≠ xd3Noop <;> by_cases h2 : entry.type2 ≠ xd3Noop <;>
    simp [h1, h2, map_bind, ← traceHalf_fst]

/-- **The log is ghost state.**  An iteration of the logged decoder, without
its log, is the decoder's iteration. -/
theorem traceBody_map (ctx : WindowCtx) (s : WindowState × List Instruction) :
    (traceBody ctx s).map Prod.fst (Prod.fst <$> ·) = windowBody ctx s.1 := by
  unfold traceBody windowBody
  split
  · next hlt =>
    have hop := traceOpcode_fst ctx (codeEntry ctx.instSection[s.1.instPos])
      ({ s.1 with instPos := s.1.instPos + 1 }, s.2)
    dsimp only at hop ⊢
    rw [← hop]
    cases traceOpcode ctx (codeEntry ctx.instSection[s.1.instPos])
      ({ s.1 with instPos := s.1.instPos + 1 }, s.2) <;> rfl
  · rfl

theorem traceBody_done {ctx : WindowCtx} {s : WindowState × List Instruction}
    {r : Result DecodeError (WindowState × List Instruction)} (h : traceBody ctx s = .done r) :
    (ctx.instSection.length ≤ s.1.instPos ∧ r = .ok s) ∨ ∃ e, r = .error e := by
  unfold traceBody at h
  split at h
  · split at h
    · cases h
    · cases h; exact .inr ⟨_, rfl⟩
  · next hge => cases h; exact .inl ⟨Nat.not_lt.1 hge, rfl⟩

theorem traceBody_next {ctx : WindowCtx} {s s' : WindowState × List Instruction}
    (h : traceBody ctx s = .next s') :
    ∃ hlt : s.1.instPos < ctx.instSection.length, traceOpcode ctx (codeEntry ctx.instSection[s.1.instPos])
      ({ s.1 with instPos := s.1.instPos + 1 }, s.2) = .ok s' := by
  unfold traceBody at h
  split at h
  · next hlt =>
    split at h
    · next s'' hop => cases h; exact ⟨hlt, hop⟩
    · cases h
  · cases h

/-! ## The iterator in lockstep -/

/-- The iterator standing where the decoder stands: the window's sections and
copy window, the decoder's positions, cache and `target_pos`, and a held-back
half. -/
def iteratorOf (ctx : WindowCtx) (st : WindowState) (pendingSecond : Option (UInt8 × UInt8)) :
    InstructionIterator :=
  ⟨ctx.instSection, ctx.addrSection, st.instPos, st.addrPos, st.acache, ctx.copyWindowLen, st.targetPos,
    pendingSecond⟩

theorem resolveHalf_of_decodeHalf {ctx : WindowCtx} {itype tableSize : UInt8} {st st₁ : WindowState}
    {inst : Instruction} (hnoop : itype ≠ xd3Noop)
    (h : decodeHalf ctx itype tableSize st = .ok (inst, st₁))
    (htp : st₁.targetPos + instLen inst < 2 ^ 64) (pendingSecond : Option (UInt8 × UInt8)) :
    (iteratorOf ctx st pendingSecond).resolveHalf itype tableSize =
      .ok (some inst, iteratorOf ctx { st₁ with targetPos := st₁.targetPos + instLen inst } pendingSecond) := by
  unfold decodeHalf at h
  obtain ⟨⟨size, instPos⟩, hres, h⟩ := bind_eq_ok h
  have hres' := resolveSize_prefix "size varint: " hres
  dsimp only at h
  split_ifs at h with hrun hadd
  · cases h
    rw [hrun]
    exact InstructionIterator.resolveHalf_run hres' htp
  · cases h
    rw [hadd]
    exact InstructionIterator.resolveHalf_add hres' htp
  · obtain ⟨here, hhere, h⟩ := bind_eq_ok h
    obtain ⟨addrData, hslice, h⟩ := bind_eq_ok h
    obtain ⟨⟨addr, consumed, acache⟩, hdecode, h⟩ := bind_eq_ok h
    cases h
    have htp' : st.targetPos + size < 2 ^ 64 := htp
    simp only [InstructionIterator.resolveHalf, iteratorOf, if_neg hnoop, if_neg hrun, if_neg hadd]
    simp [hres', hhere, hslice, mapErr_eq_ok hdecode, addChecked_of_lt htp']

/-- **One half.**  A half the logged decoder executes is logged as the
instruction the iterator resolves, in the state the decoder moves to; and
replaying it, from any positions and cache, moves the data position, the
output and `target_pos` as the decoder did. -/
theorem traceHalf_ok {ctx : WindowCtx} {itype tableSize : UInt8} {st st' : WindowState}
    {log log' : List Instruction} (hnoop : itype ≠ xd3Noop)
    (h : traceHalf ctx itype tableSize (st, log) = .ok (st', log')) :
    ∃ inst, log' = log ++ [inst] ∧
      (∀ p, (iteratorOf ctx st p).resolveHalf itype tableSize = .ok (some inst, iteratorOf ctx st' p)) ∧
      ∀ instPos addrPos acache, replayInstruction ctx inst { st with instPos, addrPos, acache } =
        .ok { st' with instPos, addrPos, acache } := by
  obtain ⟨⟨inst, st₁⟩, hdec, h⟩ := bind_eq_ok h
  obtain ⟨st₂, hrep, h⟩ := bind_eq_ok h
  cases h
  obtain ⟨⟨dataPos, output, rfl⟩, htp⟩ := replayInstruction_frame hrep
  refine ⟨inst, rfl, fun p => resolveHalf_of_decodeHalf hnoop hdec htp p, fun i a c => ?_⟩
  obtain ⟨i₁, a₁, c₁, -, rfl⟩ := decodeHalf_frame hdec
  have := replayInstruction_cursor ctx inst { st with instPos := i₁, addrPos := a₁, acache := c₁ } i a c
  rw [hrep] at this
  exact this

open InstructionIterator in
/-- At the end of the instruction section `collect` stops. -/
theorem collect_end {ctx : WindowCtx} {st : WindowState} (hge : ctx.instSection.length ≤ st.instPos)
    (acc : List Instruction) (n : Nat) :
    Loop.run collectBody (n + 1) (iteratorOf ctx st none, acc) = some (.ok acc) :=
  Loop.run_of_done n (collectBody_none (next_of_nextBody (nextBody_end rfl hge)))

open InstructionIterator in
/-- **One opcode.**  Over an opcode the decoder executes, `collect` takes one
item per half, the instructions the decoder logged, and ends where the
decoder ends with no half held back. -/
theorem traceOpcode_collect {ctx : WindowCtx} {st st' : WindowState} {log log' : List Instruction}
    (hlt : st.instPos < ctx.instSection.length)
    (h : traceOpcode ctx (codeEntry ctx.instSection[st.instPos])
      ({ st with instPos := st.instPos + 1 }, log) = .ok (st', log')) :
    ∃ insts, log' = log ++ insts ∧ insts.length ≤ 2 ∧
      (∀ acc n, Loop.run collectBody (n + insts.length) (iteratorOf ctx st none, acc) =
        Loop.run collectBody n (iteratorOf ctx st' none, acc ++ insts)) ∧
      ∀ instPos addrPos acache,
        insts.foldlM (fun st inst => replayInstruction ctx inst st) { st with instPos, addrPos, acache } =
          .ok { st' with instPos, addrPos, acache } := by
  have hget : (iteratorOf ctx st none).instData[(iteratorOf ctx st none).instPos]? =
      some ctx.instSection[st.instPos] := List.getElem?_eq_getElem hlt
  have h1 := codeEntry_type1_ne_noop ctx.instSection[st.instPos]
  unfold traceOpcode at h
  rw [if_pos h1] at h
  obtain ⟨⟨st₁, log₁⟩, hhalf₁, h⟩ := bind_eq_ok h
  obtain ⟨inst₁, rfl, hres₁, hrep₁⟩ := traceHalf_ok h1 hhalf₁
  split at h
  · -- a double opcode: the iterator holds the second half back for the next call
    next h2 =>
    obtain ⟨inst₂, rfl, hres₂, hrep₂⟩ := traceHalf_ok h2 h
    have hnext₁ := next_of_nextBody (nextBody_double rfl hget h2 (hres₁ _))
    have hnext₂ := next_of_nextBody
      (@nextBody_pending (iteratorOf ctx st₁ (some (_, _))) _ _ _ _ rfl (hres₂ none))
    refine ⟨[inst₁, inst₂], List.append_assoc _ _ _, Nat.le_refl _, fun acc n => ?_, fun i a c => ?_⟩
    · rw [show n + [inst₁, inst₂].length = n + 1 + 1 from rfl, Loop.run_of_next _ (collectBody_some hnext₁),
        Loop.run_of_next _ (collectBody_some hnext₂), List.append_assoc]
      rfl
    · simp only [List.foldlM_cons, List.foldlM_nil]
      rw [hrep₁ i a c, bind_ok', hrep₂ i a c, bind_ok']
      rfl
  · next h2 =>
    cases h
    have hnext := next_of_nextBody (nextBody_single rfl hget (not_not.1 h2) (hres₁ none))
    refine ⟨[inst₁], rfl, by simp, fun acc n => Loop.run_of_next n (collectBody_some hnext), fun i a c => ?_⟩
    simp only [List.foldlM_cons, List.foldlM_nil]
    rw [hrep₁ i a c, bind_ok']
    rfl

/-- The iteration that stops logs nothing more, and `collect` from the same
place stops too. -/
theorem traceBody_collect_stop {ctx : WindowCtx} {st st' : WindowState} {log log' : List Instruction}
    (n : Nat) (hb : traceBody ctx (st, log) = .done (.ok (st', log'))) :
    ∃ insts, log' = log ++ insts ∧ insts.length ≤ 2 * n ∧
      (∀ acc m, Loop.run InstructionIterator.collectBody (m + insts.length + 1)
        (iteratorOf ctx st none, acc) = some (.ok (acc ++ insts))) ∧
      ∀ instPos addrPos acache,
        insts.foldlM (fun st inst => replayInstruction ctx inst st) { st with instPos, addrPos, acache } =
          .ok { st' with instPos, addrPos, acache } := by
  rcases traceBody_done hb with ⟨hge, heq⟩ | ⟨e, he⟩
  · cases heq
    refine ⟨[], (List.append_nil _).symm, Nat.zero_le _, fun acc m => ?_, fun _ _ _ => rfl⟩
    rw [List.length_nil, Nat.add_zero, List.append_nil]
    exact collect_end hge acc m
  · cases he

/-- **The run.**  A run of the logged decoder that stops within `n + 1`
iterations logs at most `2 * n` instructions; `collect` from the same place
yields exactly them, and replaying them gives the decoder's final state. -/
theorem traceBody_collect {ctx : WindowCtx} :
    ∀ (n : Nat) (st st' : WindowState) (log log' : List Instruction),
      Loop.run (traceBody ctx) (n + 1) (st, log) = some (.ok (st', log')) →
      ∃ insts, log' = log ++ insts ∧ insts.length ≤ 2 * n ∧
        (∀ acc m, Loop.run InstructionIterator.collectBody (m + insts.length + 1)
          (iteratorOf ctx st none, acc) = some (.ok (acc ++ insts))) ∧
        ∀ instPos addrPos acache,
          insts.foldlM (fun st inst => replayInstruction ctx inst st) { st with instPos, addrPos, acache } =
            .ok { st' with instPos, addrPos, acache } := by
  intro n
  induction n with
  | zero =>
    intro st st' log log' h
    cases hb : traceBody ctx (st, log) with
    | done r =>
      rw [Loop.run_of_done _ hb] at h
      cases h
      exact traceBody_collect_stop 0 hb
    | next s₁ => rw [Loop.run_of_next _ hb] at h; cases h
  | succ n ih =>
    intro st st' log log' h
    cases hb : traceBody ctx (st, log) with
    | done r =>
      rw [Loop.run_of_done _ hb] at h
      cases h
      exact traceBody_collect_stop (n + 1) hb
    | next s₁ =>
      -- one opcode, then the rest of the run from the state after it
      rw [Loop.run_of_next _ hb] at h
      obtain ⟨st₁, log₁⟩ := s₁
      obtain ⟨hlt, hop⟩ := traceBody_next hb
      obtain ⟨insts₁, rfl, hlen₁, hrun₁, hrep₁⟩ := traceOpcode_collect hlt hop
      obtain ⟨insts₂, rfl, hlen₂, hrun₂, hrep₂⟩ := ih st₁ st' _ log' h
      refine ⟨insts₁ ++ insts₂, List.append_assoc _ _ _, by simp only [List.length_append]; omega,
        fun acc m => ?_, fun i a c => ?_⟩
      · rw [List.length_append, show m + (insts₁.length + insts₂.length) + 1 =
          m + insts₂.length + 1 + insts₁.length by omega, hrun₁, hrun₂, List.append_assoc]
      · rw [List.foldlM_append, hrep₁, bind_ok', hrep₂]

/-! ## The window -/

/-- A window that decodes: the decoder's loop stopped in a state holding the
output and the cache returned. -/
theorem decodeWindowWithCache_ok {header : WindowHeader} {data inst addr source output output' : List UInt8}
    {verifyChecksum : Bool} {acache acache' : AddressCache}
    (h : decodeWindowWithCache header data inst addr source verifyChecksum output acache =
      .ok (output', acache')) :
    ∃ st, Loop.run (windowBody (windowCtx header data inst addr source output)) (inst.length + 1)
        (windowInit output acache) = some (.ok st) ∧ st.output = output' ∧ st.acache = acache' := by
  unfold decodeWindowWithCache at h
  dsimp only at h
  split at h
  · cases h
  · cases h
  · next st hrun =>
    refine ⟨st, hrun, ?_⟩
    split at h
    · simp [fail] at h
    · split at h
      · split at h
        · simp [fail] at h
        · cases h; exact ⟨rfl, rfl⟩
      · cases h; exact ⟨rfl, rfl⟩

/-- **The iterator agrees with the decoder.**  For every window that
`decode_window_with_cache` decodes, with the cache `AddressCache::new` built,
a new iterator over its instruction and address sections and its
`copy_window_len` yields only instructions; they are the half-instructions
the decoder executed, in order (the log of the decoder's own run), and
replaying them over the data section and the source reproduces the
decoder's output. -/
theorem iterator_agrees_with_decoder (header : WindowHeader) (data inst addr source : List UInt8)
    (verifyChecksum : Bool) (output output' : List UInt8) (acache acache' : AddressCache)
    (hcache : acache.init = AddressCache.new)
    (h : decodeWindowWithCache header data inst addr source verifyChecksum output acache =
      .ok (output', acache')) :
    ∃ insts st,
      (InstructionIterator.new inst addr header.copyWindowLen).collect = .ok insts ∧
      Loop.run (windowBody (windowCtx header data inst addr source output)) (inst.length + 1)
        (windowInit output acache) = some (.ok st) ∧
      Loop.run (traceBody (windowCtx header data inst addr source output)) (inst.length + 1)
        (windowInit output acache, []) = some (.ok (st, insts)) ∧
      st.output = output' ∧
      ∃ st', insts.foldlM (fun st i => replayInstruction (windowCtx header data inst addr source output) i st)
        (windowInit output acache) = .ok st' ∧ st'.output = output' := by
  obtain ⟨st, hrun, hout, -⟩ := decodeWindowWithCache_ok h
  -- the logged decoder ends where the decoder does
  have hmap := Loop.run_map Prod.fst (Prod.fst <$> ·)
    (traceBody_map (windowCtx header data inst addr source output)) (inst.length + 1)
    (windowInit output acache, [])
  rw [hrun] at hmap
  obtain ⟨r, htrace, hr⟩ := Option.map_eq_some_iff.1 hmap
  obtain ⟨⟨st₁, log⟩, rfl⟩ : ∃ p, r = .ok p := by
    cases r with
    | error e => cases hr
    | ok p => exact ⟨p, rfl⟩
  obtain rfl : st = st₁ := by cases hr; rfl
  obtain ⟨insts, hlog, hlen, hcollect, hreplay⟩ := traceBody_collect _ _ _ _ _ htrace
  rw [List.nil_append] at hlog
  subst hlog
  have hnew : InstructionIterator.new inst addr header.copyWindowLen =
      iteratorOf (windowCtx header data inst addr source output) (windowInit output acache) none := by
    simp only [InstructionIterator.new, iteratorOf, windowInit, windowCtx, hcache]
  refine ⟨log, st, ?_, hrun, htrace, hout, _, hreplay 0 0 acache.init, hout⟩
  -- the iterator's bound covers the two halves an opcode can hold
  have hfuel : 2 * (iteratorOf (windowCtx header data inst addr source output) (windowInit output acache)
      none).instData.length + 2 = 2 * inst.length + 1 - log.length + log.length + 1 := by
    show 2 * inst.length + 2 = _
    omega
  rw [InstructionIterator.collect, hnew, hfuel, hcollect, List.nil_append]

theorem iterator_agrees_with_decoder_addCopy :
    AddressCache.new.init = AddressCache.new ∧
      ∃ acache', decodeWindowWithCache ⟨1, 4, 0, 0, 8, 0, 4, 2, 1, none⟩ [5, 1, 2, 3] [163, 4] [0]
          [7, 8, 9, 10] true [] AddressCache.new = .ok ([5, 7, 8, 9, 10, 1, 2, 3], acache') ∧
        ∃ insts st,
          (InstructionIterator.new [163, 4] [0] 4).collect = .ok insts ∧
          Loop.run (windowBody (windowCtx ⟨1, 4, 0, 0, 8, 0, 4, 2, 1, none⟩ [5, 1, 2, 3] [163, 4] [0]
            [7, 8, 9, 10] [])) 3 (windowInit [] AddressCache.new) = some (.ok st) ∧
          Loop.run (traceBody (windowCtx ⟨1, 4, 0, 0, 8, 0, 4, 2, 1, none⟩ [5, 1, 2, 3] [163, 4] [0]
            [7, 8, 9, 10] [])) 3 (windowInit [] AddressCache.new, []) = some (.ok (st, insts)) ∧
          st.output = [5, 7, 8, 9, 10, 1, 2, 3] ∧
          ∃ st', insts.foldlM (fun st i => replayInstruction (windowCtx ⟨1, 4, 0, 0, 8, 0, 4, 2, 1, none⟩
              [5, 1, 2, 3] [163, 4] [0] [7, 8, 9, 10] []) i st) (windowInit [] AddressCache.new) = .ok st' ∧
            st'.output = [5, 7, 8, 9, 10, 1, 2, 3] := by
  obtain ⟨acache', h⟩ : ∃ acache', decodeWindowWithCache ⟨1, 4, 0, 0, 8, 0, 4, 2, 1, none⟩ [5, 1, 2, 3]
      [163, 4] [0] [7, 8, 9, 10] true [] AddressCache.new = .ok ([5, 7, 8, 9, 10, 1, 2, 3], acache') :=
    ⟨_, rfl⟩
  exact ⟨rfl, acache', h, iterator_agrees_with_decoder _ _ _ _ _ _ _ _ _ _ rfl h⟩

/-! ## The cache of every window

The hypothesis of `iterator_agrees_with_decoder` on the cache holds of every
window the stream decoder decodes: its cache starts as `AddressCache::new`,
and a window keeps the sizes of the cache, so the cache it resets to. -/

theorem executeHalfInstruction_init {ctx : WindowCtx} {itype tableSize : UInt8} {st st' : WindowState}
    (h : executeHalfInstruction ctx itype tableSize st = .ok st') : st'.acache.init = st.acache.init := by
  rw [executeHalfInstruction_eq] at h
  obtain ⟨⟨inst, st₁⟩, hdec, h⟩ := bind_eq_ok h
  obtain ⟨⟨dataPos, output, rfl⟩, -⟩ := replayInstruction_frame h
  obtain ⟨instPos, addrPos, acache, hinit, rfl⟩ := decodeHalf_frame hdec
  exact hinit

theorem windowBody_init {ctx : WindowCtx} {st st' : WindowState} (h : windowBody ctx st = .next st') :
    st'.acache.init = st.acache.init := by
  obtain ⟨hlt, hop⟩ := windowBody_eq_next h
  have hinit := executeOpcode_rel (fun st st' => st'.acache.init = st.acache.init) (fun _ => rfl)
    (fun h₁ h₂ => h₂.trans h₁) executeHalfInstruction_init hop
  exact hinit

/-- A window keeps the sizes of the cache. -/
theorem decodeWindowWithCache_init {header : WindowHeader} {data inst addr source output output' : List UInt8}
    {verifyChecksum : Bool} {acache acache' : AddressCache}
    (h : decodeWindowWithCache header data inst addr source verifyChecksum output acache =
      .ok (output', acache')) :
    acache'.init = acache.init := by
  obtain ⟨st, hrun, -, rfl⟩ := decodeWindowWithCache_ok h
  refine Loop.run_invariant (fun st => st.acache.init = acache.init)
    (fun r => ∀ st, r = .ok st → st.acache.init = acache.init)
    (fun _ _ hs hb => (windowBody_init hb).trans hs) ?_ _ _ _ ?_ hrun st rfl
  · -- the loop returns the state it stops in
    intro s r hs hb st hr
    subst hr
    unfold windowBody at hb
    split at hb
    · dsimp only at hb
      split at hb <;> cases hb
    · cases hb
      exact hs
  · exact AddressCache.init_eq_of_sizes rfl rfl

theorem StreamDecoder.read_acache {α : Type} {d d' : StreamDecoder} {m : ReadM IoError α} {a : α}
    (h : d.read m = .ok (a, d')) : d'.acache = d.acache := by
  unfold StreamDecoder.read at h
  split at h
  · cases h; rfl
  · cases h

theorem StreamDecoder.decodeWindow_init {cs : Compress.Codecs} {source output output' : List UInt8}
    {d d' : StreamDecoder} {b : Bool} (h : d.decodeWindow cs source output = .ok (b, d', output')) :
    d'.acache.init = d.acache.init := by
  unfold StreamDecoder.decodeWindow at h
  extract_lets jp at h
  -- every path reads the window from a decoder with the cache it was given
  have hjp : ∀ d₁ : StreamDecoder, jp d₁ = .ok (b, d', output') → d'.acache.init = d₁.acache.init := by
    intro d₁ hj
    simp only [jp] at hj
    obtain ⟨⟨wh, d₂⟩, hread₂, hj⟩ := bind_eq_ok hj
    rw [← read_acache hread₂]
    split at hj
    · cases hj; rfl
    · split at hj
      · simp [fail] at hj
      · obtain ⟨⟨data, d₃⟩, hread₃, hj⟩ := bind_eq_ok hj
        obtain ⟨⟨inst, d₄⟩, hread₄, hj⟩ := bind_eq_ok hj
        obtain ⟨⟨addr, d₅⟩, hread₅, hj⟩ := bind_eq_ok hj
        have hd₅ : d₅.acache = d₂.acache :=
          ((read_acache hread₅).trans (read_acache hread₄)).trans (read_acache hread₃)
        rw [← hd₅]
        -- the sections, decompressed or not, then the window
        split at hj <;>
        · obtain ⟨sections, -, hj⟩ := bind_eq_ok hj
          obtain ⟨⟨out, acache⟩, hwin, hj⟩ := bind_eq_ok hj
          cases hj
          exact decodeWindowWithCache_init hwin
  split at h
  · exact hjp d h
  · obtain ⟨⟨hdr, d₀⟩, hread, h⟩ := bind_eq_ok h
    rw [← read_acache hread]
    simp only [pure_bind] at h
    exact hjp { d₀ with fileHeader := some hdr, secondaryId := hdr.secondaryId } h

/-- **Every window starts from the default cache.**  At every state that
`decode_all` passes through from a new decoder, the cache resets to
`AddressCache::new`: every window the stream decoder decodes meets the
hypothesis of `iterator_agrees_with_decoder`. -/
theorem decodeAll_init (cs : Compress.Codecs) (source reader output : List UInt8)
    (verifyChecksum : Bool) {s : StreamDecoder × List UInt8}
    (h : Loop.Reaches (decodeAllBody cs source) (StreamDecoder.new reader verifyChecksum, output) s) :
    s.1.acache.init = AddressCache.new := by
  refine Loop.Reaches.invariant (fun s => s.1.acache.init = AddressCache.new) ?_ rfl h
  intro t t' ht hb
  unfold decodeAllBody at hb
  split at hb
  · next d out hwin => cases hb; exact (StreamDecoder.decodeWindow_init hwin).trans ht
  · cases hb
  · cases hb

end Oxidelta.Vcdiff
