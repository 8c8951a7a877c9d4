import Mathlib.Data.List.Chain
import Oxidelta.Lib.Loop
import Oxidelta.Lib.Rust
import Oxidelta.Hash.Rolling
import Oxidelta.Vcdiff.Instructions

/-!
# Instruction optimisation (`compress/pipeline.rs`)

Before a window is encoded, `optimize` rewrites the match engine's
instruction list in two loops.  The first drops empty instructions and
merges each instruction into the one before it where `try_coalesce` allows:
two ADDs, two RUNs, or two COPYs of one mode whose addresses are contiguous.
The second (`split_add_runs`) cuts every ADD at the runs of at least
`MIN_RUN` equal bytes inside it, which become RUNs.

`try_coalesce` merges two RUNs without looking at their bytes, and two COPYs
whenever the second address continues the first, including a source COPY
that ends at the end of the source followed by a target COPY from the start
of the target.  Neither merge keeps the meaning: the merged RUN repeats one
byte over bytes that differ, and the merged COPY reads across the boundary of
the source.  The match-engine property (`Valid`) is therefore kept only for
lists in which no pair of neighbours is one of these (`MergeSafe`).

Main results:

* `optimize_merges_unsafe_pairs` — a valid list of two RUNs of different
  bytes, and one of two COPYs meeting at the end of the source, each
  optimised into a list that is not valid;
* `optimize_valid` — when every seam is safe and the lengths fit the
  integers of the source, `optimize` succeeds and its output is valid.

The pieces `split_add_with_runs` pushes have their lengths cast with
`as u32`; below `2^32` bytes the cast changes nothing, and a run of `2^32`
bytes becomes a RUN of length 0 (`splitAddWithRuns_run_wraps`).

The proof follows the two loops: `coalesceStep_inv` keeps the settled
instructions and the one still open to merging a tiling of the target
(`Segments.Tiles.merge` for a merge), and `splitAddWithRuns_covers` tiles the
slice of each ADD by the pieces it is cut into.
-/

namespace Oxidelta.Hash

/-- What the pipeline needs of a run-length function, on the calls it makes
(`n ≤ data.len()`): it counts at most `n` leading bytes, all equal to `byte`,
and at least one when `n > 0` and the first byte is `byte`. -/
structure RunLengthFn.Sound (runLength : RunLengthFn) : Prop where
  le : ∀ data byte n, n ≤ data.length → runLength data byte n ≤ n
  eq : ∀ data byte n, n ≤ data.length → ∀ j < runLength data byte n, data[j]? = some byte
  pos : ∀ data byte n, n ≤ data.length → 0 < n → data[0]? = some byte →
    0 < runLength data byte n

theorem findRunLengthScalar_sound : RunLengthFn.Sound findRunLengthScalar :=
  ⟨fun d b n _ => findRunLengthScalar_le d b n, fun d b n _ => findRunLengthScalar_eq d b n,
    fun _ _ _ _ => findRunLengthScalar_pos⟩

/-- The length of the longest prefix of `d` whose bytes all equal `c`. -/
def prefixRunLength (d : List UInt8) (c : UInt8) : Nat :=
  (d.takeWhile (· == c)).length

/-- What `run_length` is meant to compute: on every call with `n ≤ data.len()`,
the length of the longest prefix of `data[..n]` equal to `byte`. -/
def RunLengthFn.Exact (runLength : RunLengthFn) : Prop :=
  ∀ data byte n, n ≤ data.length → runLength data byte n = prefixRunLength (data.take n) byte

/-- The scalar loop counts the longest prefix. -/
theorem findRunLengthScalar_exact : ∀ data byte n,
    findRunLengthScalar data byte n = prefixRunLength (data.take n) byte
  | [], _, _ => by simp [findRunLengthScalar, prefixRunLength]
  | _ :: _, _, 0 => by simp [findRunLengthScalar, prefixRunLength]
  | b :: data, byte, n + 1 => by
    have ih := findRunLengthScalar_exact data byte n
    by_cases hb : b = byte
    · simp only [prefixRunLength] at ih
      simp [findRunLengthScalar, prefixRunLength, hb, ih]
    · simp [findRunLengthScalar, prefixRunLength, hb]

/-- An exact run-length function counts what the scalar loop counts, so it is
sound. -/
theorem RunLengthFn.Exact.sound {runLength : RunLengthFn} (h : runLength.Exact) :
    runLength.Sound := by
  have hsc : ∀ data byte n, n ≤ data.length →
      runLength data byte n = findRunLengthScalar data byte n := fun data byte n hn => by
    rw [h data byte n hn, findRunLengthScalar_exact]
  refine ⟨fun data byte n hn => ?_, fun data byte n hn => ?_, fun data byte n hn hpos h0 => ?_⟩
  · rw [hsc data byte n hn]
    exact findRunLengthScalar_le data byte n
  · rw [hsc data byte n hn]
    exact findRunLengthScalar_eq data byte n
  · rw [hsc data byte n hn]
    exact findRunLengthScalar_pos hpos h0

end Oxidelta.Hash

namespace Oxidelta.Compress

open Rust Segments Oxidelta.Vcdiff Oxidelta.Hash

variable {ε : Type}

/-! ## The model -/

/-- `try_coalesce`: the merge of two neighbouring instructions, if they are
two ADDs, two RUNs, or two COPYs of one mode whose addresses are contiguous.
The lengths are `u32` and the addresses `u64`, whose additions panic on
overflow in a build with overflow checks. -/
def tryCoalesce : Instruction → Instruction → Result ε (Option Instruction)
  | .add l1, .add l2 => do
    let len ← addChecked 32 l1 l2
    pure (some (.add len))
  | .copy l1 a1 m1, .copy l2 a2 m2 =>
    if m2 = m1 then do
      let next ← addChecked 64 a1 l1
      if a2 = next then do
        let len ← addChecked 32 l1 l2
        pure (some (.copy len a1 m1))
      else pure none
    else pure none
  | .run l1, .run l2 => do
    let len ← addChecked 32 l1 l2
    pure (some (.run len))
  | _, _ => pure none

/-- One iteration of the first loop of `optimize`.  The model keeps
`coalesced` newest first, so that `coalesced.last()` is its head. -/
def coalesceStep (coalesced : List Instruction) (inst : Instruction) :
    Result ε (List Instruction) :=
  -- zero-length instructions are skipped
  if instLen inst = 0 then pure coalesced
  else
    match coalesced with
    | [] => pure [inst]
    | last :: done => do
      match ← tryCoalesce last inst with
      | some merged => pure (merged :: done)
      | none => pure (inst :: last :: done)

/-- The inner loop of `split_add_with_runs`: from `i`, step over the bytes
that start no run of `MIN_RUN`, up to the next run or the end of the data. -/
def splitAddWithRunsScan (data : List UInt8) (runLength : RunLengthFn) (i : Nat) :
    Loop.Step Nat Nat :=
  if h : i < data.length then
    let b := data[i]
    let rl := runLength (data.drop i) b (data.length - i)
    if rl ≥ minRun then .done i else .next (i + rl)
  else .done i

/-- One iteration of the outer loop of `split_add_with_runs`, with the
position `i` in the data and the instructions pushed so far. -/
def splitAddWithRunsBody (data : List UInt8) (runLength : RunLengthFn) :
    Nat × List Instruction → Loop.Step (Nat × List Instruction) (Result ε (List Instruction))
  | (i, out) =>
    if h : i < data.length then
      if data.length - i < minRun then .done (pure (out ++ [.add ((data.length - i) % 2 ^ 32)]))
      else
        let byte := data[i]
        let runLen := runLength (data.drop i) byte (data.length - i)
        if runLen ≥ minRun then .next (i + runLen, out ++ [.run (runLen % 2 ^ 32)])
        else
          -- an ADD from `i` up to the next run
          match Loop.run (splitAddWithRunsScan data runLength) (data.length + 1) (i + runLen) with
          | some i' => .next (i', out ++ [.add ((i' - i) % 2 ^ 32)])
          | none => .done (.error .diverge)
    else .done (pure out)

/-- `split_add_with_runs`, returning the instructions it pushes; each length
is cast with `as u32`. -/
def splitAddWithRuns (data : List UInt8) (runLength : RunLengthFn) : Result ε (List Instruction) :=
  if data.isEmpty then pure []
  else if data.length < minRun then pure [.add (data.length % 2 ^ 32)]
  else
    (Loop.run (splitAddWithRunsBody data runLength) (data.length + 1) (0, [])).getD
      (.error .diverge)

/-- One iteration of `split_add_runs`, with the target position and the
instructions pushed so far. -/
def splitAddRunsStep (target : List UInt8) (runLength : RunLengthFn) :
    Nat × List Instruction → Instruction → Result ε (Nat × List Instruction)
  | (targetPos, result), .add len => do
    let data ← slice target targetPos (targetPos + len)
    let pieces ← splitAddWithRuns data runLength
    pure (targetPos + len, result ++ pieces)
  | (targetPos, result), .copy len addr mode => pure (targetPos + len, result ++ [.copy len addr mode])
  | (targetPos, result), .run len => pure (targetPos + len, result ++ [.run len])

/-- `split_add_runs`, returning the instructions it pushes. -/
def splitAddRuns (instructions : List Instruction) (target : List UInt8)
    (runLength : RunLengthFn) : Result ε (List Instruction) := do
  let s ← instructions.foldlM (splitAddRunsStep target runLength) (0, [])
  pure s.2

/-- `optimize`.  The closing `debug_assert_eq!` on the total length is checked
as in a debug build. -/
def optimize (instructions : List Instruction) (target : List UInt8) :
    Result ε (List Instruction) :=
  if instructions.isEmpty then pure []
  else do
    let coalesced ← instructions.foldlM coalesceStep []
    let result ← splitAddRuns coalesced.reverse target runLengthFn
    if (result.map instLen).sum = target.length then pure result
    else Rust.panic "instruction optimization broke length invariant"

/-! ## Which merges keep the meaning -/

section Safe

variable (source target : List UInt8)

/-- The neighbours `a` and `b`, `b` starting at position `p` of the target,
are a pair that `try_coalesce` may merge without changing what they stand
for: two RUNs only if the second repeats the first's byte, and two COPYs of
one mode with contiguous addresses only if they do not meet at the end of
the source. -/
def SafePair (p : Nat) : Instruction → Instruction → Prop
  | .run _, .run _ => target[p]? = target[p - 1]?
  | .copy l1 a1 m1, .copy _ a2 m2 => m2 = m1 → a2 = a1 + l1 → a2 ≠ source.length
  | _, _ => True

instance decSafePair (p : Nat) : (a b : Instruction) → Decidable (SafePair source target p a b)
  | .run _, .run _ => inferInstanceAs (Decidable (target[p]? = target[p - 1]?))
  | .copy l1 a1 m1, .copy _ a2 m2 =>
    inferInstanceAs (Decidable (m2 = m1 → a2 = a1 + l1 → a2 ≠ source.length))
  | .add _, .add _ | .add _, .copy _ _ _ | .add _, .run _ => isTrue trivial
  | .copy _ _ _, .add _ | .copy _ _ _, .run _ => isTrue trivial
  | .run _, .add _ | .run _, .copy _ _ _ => isTrue trivial

/-- Every seam of the list is safe. -/
abbrev MergeSafe (insts : List Instruction) : Prop :=
  Seams instLen (SafePair source target) 0 insts

end Safe

/-! ## The first loop: coalescing -/

section Coalesce

variable {source target : List UInt8}

/-- What `try_coalesce` can return: a merge only of two ADDs, of two RUNs,
or of two COPYs of one mode, the second starting where the first ends. -/
theorem tryCoalesce_eq_some {a b m : Instruction}
    (h : (tryCoalesce a b : Result ε (Option Instruction)) = .ok (some m)) :
    (∃ l1 l2, a = .add l1 ∧ b = .add l2 ∧ m = .add (l1 + l2)) ∨
    (∃ l1 l2 a1 mode, a = .copy l1 a1 mode ∧ b = .copy l2 (a1 + l1) mode ∧
      m = .copy (l1 + l2) a1 mode) ∨
    (∃ l1 l2, a = .run l1 ∧ b = .run l2 ∧ m = .run (l1 + l2)) := by
  cases a <;> cases b <;> simp only [tryCoalesce] at h
  case add.add l1 l2 =>
    obtain ⟨len, hlen, hm⟩ := bind_eq_ok h
    obtain ⟨rfl, -⟩ := addChecked_eq_ok hlen
    cases hm
    exact .inl ⟨l1, l2, rfl, rfl, rfl⟩
  case copy.copy l1 a1 m1 l2 a2 m2 =>
    split at h
    · next hmode =>
      obtain ⟨next, hnext, h⟩ := bind_eq_ok h
      obtain ⟨rfl, -⟩ := addChecked_eq_ok hnext
      split at h
      · next haddr =>
        obtain ⟨len, hlen, hm⟩ := bind_eq_ok h
        obtain ⟨rfl, -⟩ := addChecked_eq_ok hlen
        cases hm
        exact .inr (.inl ⟨l1, l2, a1, m1, rfl, by rw [hmode, haddr], rfl⟩)
      · simp [pure, Except.pure] at h
    · simp [pure, Except.pure] at h
  case run.run l1 l2 =>
    obtain ⟨len, hlen, hm⟩ := bind_eq_ok h
    obtain ⟨rfl, -⟩ := addChecked_eq_ok hlen
    cases hm
    exact .inr (.inr ⟨l1, l2, rfl, rfl, rfl⟩)
  -- every other pair is left apart
  all_goals simp [pure, Except.pure] at h

/-- `try_coalesce` does not overflow when the two lengths fit a `u32` and
the end of a first COPY fits a `u64`. -/
theorem tryCoalesce_ok {a b : Instruction} (hlen : instLen a + instLen b < 2 ^ 32)
    (haddr : ∀ l1 a1 m1, a = .copy l1 a1 m1 → a1 + l1 < 2 ^ 64) :
    ∃ r, (tryCoalesce a b : Result ε (Option Instruction)) = .ok r := by
  cases a <;> cases b <;> simp only [instLen] at hlen
  case add.add l1 l2 =>
    exact ⟨some (.add (l1 + l2)), by simp only [tryCoalesce, addChecked_of_lt hlen, bind_ok']; rfl⟩
  case copy.copy l1 a1 m1 l2 a2 m2 =>
    simp only [tryCoalesce, addChecked_of_lt (haddr l1 a1 m1 rfl), addChecked_of_lt hlen,
      bind_ok']
    split
    · split <;> exact ⟨_, rfl⟩
    · exact ⟨_, rfl⟩
  case run.run l1 l2 =>
    exact ⟨some (.run (l1 + l2)), by simp only [tryCoalesce, addChecked_of_lt hlen, bind_ok']; rfl⟩
  all_goals exact ⟨_, rfl⟩

/-- Two RUNs whose seam repeats the byte merge into a RUN of their slice. -/
theorem reproduces_run_merge {p l1 l2 : Nat} (hpos : 0 < l1)
    (ha : (Instruction.run l1).Reproduces source target p)
    (hb : (Instruction.run l2).Reproduces source target (p + l1))
    (hseam : target[p + l1]? = target[p + l1 - 1]?) :
    (Instruction.run (l1 + l2)).Reproduces source target p := by
  obtain ⟨-, hca⟩ := ha
  obtain ⟨hend, hcb⟩ := hb
  refine ⟨by omega, forall_lt_add hca fun j hj => ?_⟩
  -- the second RUN's byte is the first's last byte, which is the first's byte
  calc target[p + (l1 + j)]? = target[p + l1]? := by rw [← Nat.add_assoc]; exact hcb j hj
    _ = target[p + (l1 - 1)]? := by rw [hseam, Nat.add_sub_assoc hpos]
    _ = target[p]? := hca (l1 - 1) (by omega)

/-- Two COPYs with contiguous addresses that do not meet at the end of the
source merge into a COPY of their slice. -/
theorem reproduces_copy_merge {p l1 l2 a1 : Nat} {mode mode' : UInt8}
    (ha : (Instruction.copy l1 a1 mode).Reproduces source target p)
    (hb : (Instruction.copy l2 (a1 + l1) mode').Reproduces source target (p + l1))
    (hseam : a1 + l1 ≠ source.length) :
    (Instruction.copy (l1 + l2) a1 mode).Reproduces source target p := by
  obtain ⟨-, hra⟩ := ha
  obtain ⟨hend, hrb⟩ := hb
  refine ⟨by omega, ?_⟩
  by_cases hsrc : a1 < source.length
  · -- both read from the source: the first cannot end at its end
    rw [if_pos hsrc] at hra ⊢
    obtain ⟨hea, hba⟩ := hra
    rw [if_pos (by omega)] at hrb
    obtain ⟨heb, hbb⟩ := hrb
    refine ⟨by omega, forall_lt_add hba fun j hj => ?_⟩
    rw [← Nat.add_assoc, ← Nat.add_assoc]
    exact hbb j hj
  · -- both read from the target
    rw [if_neg hsrc] at hra ⊢
    obtain ⟨hoa, hba⟩ := hra
    rw [if_neg (by omega)] at hrb
    obtain ⟨-, hbb⟩ := hrb
    refine ⟨hoa, forall_lt_add hba fun j hj => ?_⟩
    rw [show a1 - source.length + (l1 + j) = a1 + l1 - source.length + j by omega,
      ← Nat.add_assoc]
    exact hbb j hj

/-- **What one merge keeps.**  When `try_coalesce` merges `a` with the
instruction `b` after it, the merge stands for both lengths; when the pair
reproduces its slice and its seam is safe, so does the merge; and the merge
meets what follows as `b` did. -/
theorem tryCoalesce_merge {a b m : Instruction}
    (h : (tryCoalesce a b : Result ε (Option Instruction)) = .ok (some m)) :
    instLen m = instLen a + instLen b ∧
    (∀ p, a.Reproduces source target p → 0 < instLen a →
      b.Reproduces source target (p + instLen a) →
      SafePair source target (p + instLen a) a b → m.Reproduces source target p) ∧
    (∀ q c, SafePair source target q b c → SafePair source target q m c) := by
  rcases tryCoalesce_eq_some h with ⟨l1, l2, rfl, rfl, rfl⟩ |
    ⟨l1, l2, a1, mode, rfl, rfl, rfl⟩ | ⟨l1, l2, rfl, rfl, rfl⟩
  · refine ⟨rfl, fun p _ _ hb _ => ?_, fun q c _ => by cases c <;> trivial⟩
    show p + (l1 + l2) ≤ target.length
    have : p + l1 + l2 ≤ target.length := hb
    omega
  · refine ⟨rfl, fun p ha _ hb hseam => reproduces_copy_merge ha hb (hseam rfl rfl), ?_⟩
    intro q c hc
    cases c with
    | copy l3 a3 m3 => exact fun hm ha3 => hc hm (by rw [ha3]; omega)
    | add _ | run _ => trivial
  · exact ⟨rfl, fun p ha hpos hb hseam => reproduces_run_merge hpos ha hb hseam,
      fun q c hc => by cases c <;> exact hc⟩

/-- What the first loop of `optimize` keeps, with `coalesced` newest first:
the instructions it has settled cover the target up to some `q`, and the
last one, still open to merging, followed by the input still to come, covers
the rest of the target with every seam safe. -/
def CoalesceInv (source target : List UInt8) : List Instruction → List Instruction → Prop
  | [], rest => Valid source target rest ∧ MergeSafe source target rest
  | last :: done, rest => ∃ q, Covers source target 0 q done.reverse ∧
      Covers source target q target.length (last :: rest) ∧
      Seams instLen (SafePair source target) q (last :: rest)

/-- **The coalescing step.**  From the invariant, with the target's length a
`u32` and the address space a `u64`, one iteration succeeds and keeps it. -/
theorem coalesceStep_inv (htgt : target.length < 2 ^ 32)
    (hspace : source.length + target.length < 2 ^ 64) {coalesced : List Instruction}
    {inst : Instruction} {rest : List Instruction}
    (h : CoalesceInv source target coalesced (inst :: rest)) :
    ∃ coalesced', (coalesceStep coalesced inst : Result ε (List Instruction)) = .ok coalesced' ∧
      CoalesceInv source target coalesced' rest := by
  cases coalesced with
  | nil =>
    obtain ⟨hcov, hsafe⟩ := h
    have hne : instLen inst ≠ 0 := Nat.pos_iff_ne_zero.mp hcov.1
    exact ⟨[inst], by rw [coalesceStep, if_neg hne]; rfl, 0, rfl, hcov, hsafe⟩
  | cons last done =>
    obtain ⟨q, hdone, hcov, hsafe⟩ := h
    have ⟨hposl, hrepl, hposi, hrepi, hrest⟩ := hcov
    have hne : instLen inst ≠ 0 := Nat.pos_iff_ne_zero.mp hposi
    -- the additions of `try_coalesce` stay inside the target and the address space
    have hlen : instLen last + instLen inst < 2 ^ 32 := by
      have := hrepi.end_le
      omega
    have haddr : ∀ l1 a1 m1, last = .copy l1 a1 m1 → a1 + l1 < 2 ^ 64 := by
      rintro l1 a1 m1 rfl
      have := hrepl.copy_end_le
      omega
    obtain ⟨r, hr⟩ := tryCoalesce_ok (ε := ε) hlen haddr
    cases r with
    | some m =>
      obtain ⟨hmlen, hmrep, hmseam⟩ := tryCoalesce_merge hr
      obtain ⟨hcov', hsafe'⟩ := Tiles.merge hmlen (fun ha hb hs => hmrep q ha hposl hb hs)
        hmseam hcov hsafe
      refine ⟨m :: done, ?_, q, hdone, hcov', hsafe'⟩
      rw [coalesceStep, if_neg hne, hr, bind_ok']
      rfl
    | none =>
      refine ⟨inst :: last :: done, ?_,
        q + instLen last, ?_, ⟨hposi, hrepi, hrest⟩, hsafe.tail⟩
      · rw [coalesceStep, if_neg hne, hr, bind_ok']
        rfl
      · simpa using hdone.snoc hposl hrepl rfl

/-- Once the input is used up, the invariant says the coalesced list, in
order, is valid. -/
theorem CoalesceInv.valid : ∀ {coalesced : List Instruction},
    CoalesceInv source target coalesced [] → Valid source target coalesced.reverse
  | [], ⟨hvalid, _⟩ => hvalid
  | last :: done, ⟨_, hdone, ⟨hpos, hrep, hend⟩, _⟩ => by
    simpa using hdone.snoc hpos hrep hend

/-- The first loop of `optimize` succeeds on a valid list with safe seams,
and what it builds, in order, is valid. -/
theorem coalesce_valid (htgt : target.length < 2 ^ 32)
    (hspace : source.length + target.length < 2 ^ 64) {instructions : List Instruction}
    (hvalid : Valid source target instructions) (hsafe : MergeSafe source target instructions) :
    ∃ coalesced, (instructions.foldlM coalesceStep [] : Result ε (List Instruction)) =
      .ok coalesced ∧ Valid source target coalesced.reverse := by
  obtain ⟨coalesced, hfold, hinv⟩ := foldlM_invariant coalesceStep (CoalesceInv source target)
    (fun _ _ _ h => coalesceStep_inv htgt hspace h) instructions [] ⟨hvalid, hsafe⟩
  exact ⟨coalesced, hfold, hinv.valid⟩

end Coalesce

/-! ## The second loop: cutting runs out of ADDs -/

section Split

variable {source target : List UInt8} {runLength : RunLengthFn}

/-- One step of the inner scan goes forward, and not past the data, when
the run-length function is sound. -/
theorem splitAddWithRunsScan_next (hrl : RunLengthFn.Sound runLength) {data : List UInt8}
    {i i' : Nat} (h : splitAddWithRunsScan data runLength i = .next i') :
    i < i' ∧ i' ≤ data.length := by
  unfold splitAddWithRunsScan at h
  split at h
  · next hi =>
    dsimp only at h
    split at h
    · cases h
    · cases h
      have hle := hrl.le (data.drop i) data[i] (data.length - i) (by simp)
      have hpos := hrl.pos (data.drop i) data[i] (data.length - i) (by simp) (by omega) (by simp)
      omega
  · cases h

theorem splitAddWithRunsScan_done {data : List UInt8} {i i' : Nat}
    (h : splitAddWithRunsScan data runLength i = .done i') : i' = i := by
  unfold splitAddWithRunsScan at h
  split at h
  · dsimp only at h
    split at h
    · cases h; rfl
    · cases h
  · cases h; rfl

/-- The inner scan stops, within the fuel the model gives it, at a position
between where it starts and the end of the data. -/
theorem splitAddWithRunsScan_run (hrl : RunLengthFn.Sound runLength) {data : List UInt8}
    {j : Nat} (hj : j ≤ data.length) :
    ∃ j', Loop.run (splitAddWithRunsScan data runLength) (data.length + 1) j = some j' ∧
      j ≤ j' ∧ j' ≤ data.length := by
  -- it stops: every iteration moves forward inside the data
  have hsome := @Loop.run_isSome_of_measure _ _ (splitAddWithRunsScan data runLength)
    (fun k => k ≤ data.length) (fun k => data.length - k)
    (fun k k' _ hk => by have := splitAddWithRunsScan_next hrl hk; omega) j hj
    (data.length + 1) (by omega)
  obtain ⟨j', hj'⟩ := Option.isSome_iff_exists.mp hsome
  -- and where it stops is between `j` and the end
  refine ⟨j', hj', @Loop.run_invariant _ _ (splitAddWithRunsScan data runLength)
    (fun k => j ≤ k ∧ k ≤ data.length)
    (fun k => j ≤ k ∧ k ≤ data.length) ?_ ?_ _ j j' ⟨Nat.le_refl j, hj⟩ hj'⟩
  · intro k k' hk hnext
    have := splitAddWithRunsScan_next hrl hnext
    omega
  · intro k k' hk hdone
    rw [splitAddWithRunsScan_done hdone]
    exact hk

/-- A RUN cut out of an ADD's slice of the target reproduces its slice. -/
theorem reproduces_run_of_slice {p : Nat} {data : List UInt8}
    (hdata : ∀ i < data.length, data[i]? = target[p + i]?) {i r : Nat} {byte : UInt8}
    (hend : p + data.length ≤ target.length) (hir : i + r ≤ data.length)
    (hbyte : data[i]? = some byte) (hrun : ∀ j < r, (data.drop i)[j]? = some byte) :
    (Instruction.run r).Reproduces source target (p + i) := by
  refine ⟨by omega, fun j hj => ?_⟩
  have hi : i < data.length := by
    by_contra
    simp_all
  calc target[p + i + j]? = data[i + j]? := by rw [hdata (i + j) (by omega), Nat.add_assoc]
    _ = some byte := by rw [← List.getElem?_drop]; exact hrun j hj
    _ = target[p + i]? := by rw [← hbyte, hdata i hi]

/-- **The cutting step.**  With the instructions pushed so far tiling the
slice up to `i`, one iteration of the outer loop either goes on from a
position further on, the pushed instructions tiling the slice up to it, or
stops with instructions that tile the whole slice. -/
theorem splitAddWithRunsBody_spec (hrl : RunLengthFn.Sound runLength) {p : Nat}
    {data : List UInt8} (hend : p + data.length ≤ target.length)
    (hdata : ∀ i < data.length, data[i]? = target[p + i]?) (hlen : data.length < 2 ^ 32) {i : Nat}
    {out : List Instruction} (hi : i ≤ data.length) (hout : Covers source target p (p + i) out) :
    (∃ i' out', (splitAddWithRunsBody data runLength (i, out) :
        Loop.Step _ (Result ε (List Instruction))) = .next (i', out') ∧
      i < i' ∧ i' ≤ data.length ∧ Covers source target p (p + i') out') ∨
    ∃ pieces, (splitAddWithRunsBody data runLength (i, out) :
        Loop.Step _ (Result ε (List Instruction))) = .done (.ok pieces) ∧
      Covers source target p (p + data.length) pieces := by
  dsimp only [splitAddWithRunsBody]
  by_cases hlt : i < data.length
  · rw [dif_pos hlt]
    by_cases hshort : data.length - i < minRun
    · -- the rest is too short for a run: one ADD, whose length is a `u32`
      rw [if_pos hshort, Nat.mod_eq_of_lt (show data.length - i < 2 ^ 32 by omega)]
      refine .inr ⟨_, rfl, hout.snoc (x := Instruction.add (data.length - i)) (by simp; omega) ?_
        (by simp; omega)⟩
      show p + i + (data.length - i) ≤ target.length
      omega
    · rw [if_neg hshort]
      have hbyte : data[i]? = some data[i] := List.getElem?_eq_getElem hlt
      have hle := hrl.le (data.drop i) data[i] (data.length - i) (by simp)
      have hpos := hrl.pos (data.drop i) data[i] (data.length - i) (by simp) (by omega) (by simp)
      have heq := hrl.eq (data.drop i) data[i] (data.length - i) (by simp)
      generalize runLength (data.drop i) data[i] (data.length - i) = runLen at hle hpos heq ⊢
      by_cases hrun : runLen ≥ minRun
      · -- a run of at least `MIN_RUN` bytes starts at `i`
        rw [if_pos hrun, Nat.mod_eq_of_lt (show runLen < 2 ^ 32 by omega)]
        refine .inl ⟨_, _, rfl, by omega, by omega, hout.snoc (x := Instruction.run runLen) hpos ?_
          (by simp; omega)⟩
        exact reproduces_run_of_slice hdata hend (by omega) hbyte heq
      · -- an ADD up to where the scan stops
        rw [if_neg hrun]
        obtain ⟨j, hscan, hij, hjn⟩ :=
          @splitAddWithRunsScan_run runLength hrl data (i + runLen) (by omega)
        rw [hscan]
        dsimp only
        rw [Nat.mod_eq_of_lt (show j - i < 2 ^ 32 by omega)]
        refine .inl ⟨j, _, rfl, by omega, hjn,
          hout.snoc (x := Instruction.add (j - i)) (by simp; omega) ?_ (by simp; omega)⟩
        show p + i + (j - i) ≤ target.length
        omega
  · -- the loop's condition fails at the end of the data
    rw [dif_neg hlt]
    have hin : i = data.length := by omega
    exact .inr ⟨out, rfl, hin ▸ hout⟩

/-- **`split_add_with_runs` tiles the slice.**  Given an ADD's slice of the
target at `p`, it succeeds, and the ADDs and RUNs it pushes cover exactly the
slice, each reproducing its part. -/
theorem splitAddWithRuns_covers (hrl : RunLengthFn.Sound runLength) {p : Nat}
    {data : List UInt8} (hend : p + data.length ≤ target.length)
    (hdata : ∀ i < data.length, data[i]? = target[p + i]?) (hlen : data.length < 2 ^ 32) :
    ∃ pieces, (splitAddWithRuns data runLength : Result ε (List Instruction)) = .ok pieces ∧
      Covers source target p (p + data.length) pieces := by
  unfold splitAddWithRuns
  by_cases hempty : data.isEmpty
  · rw [if_pos hempty]
    have : data.length = 0 := by simpa using hempty
    exact ⟨[], rfl, by simp [this]⟩
  · rw [if_neg hempty]
    have hpos : 0 < data.length := by
      cases data with
      | nil => simp at hempty
      | cons _ _ => simp
    by_cases hshort : data.length < minRun
    · rw [if_pos hshort, Nat.mod_eq_of_lt hlen]
      exact ⟨_, rfl, tiles_singleton (x := Instruction.add data.length) hpos hend⟩
    · rw [if_neg hshort]
      -- the loop's invariant: its position is in the data, and what it pushed tiles the slice so far
      let Inv : Nat × List Instruction → Prop := fun s =>
        s.1 ≤ data.length ∧ Covers source target p (p + s.1) s.2
      have hinit : Inv (0, []) := ⟨Nat.zero_le _, rfl⟩
      have hnext : ∀ s s', Inv s → splitAddWithRunsBody (ε := ε) data runLength s = .next s' →
          Inv s' ∧ data.length - s'.1 < data.length - s.1 := by
        rintro ⟨i, out⟩ s' ⟨hi, hout⟩ hs
        rcases splitAddWithRunsBody_spec (ε := ε) hrl hend hdata hlen hi hout with
          ⟨i', out', hb, hlt, hle, hcov⟩ | ⟨pieces, hb, -⟩
        · rw [hb] at hs
          cases hs
          exact ⟨⟨hle, hcov⟩, by simp; omega⟩
        · rw [hb] at hs
          cases hs
      have hsome := Loop.run_isSome_of_measure Inv (fun s => data.length - s.1)
        (fun s s' hs h => hnext s s' hs h) (0, []) hinit (data.length + 1) (by simp)
      obtain ⟨r, hr⟩ := Option.isSome_iff_exists.mp hsome
      have hpost := Loop.run_invariant Inv
        (fun r => ∃ pieces, r = .ok pieces ∧ Covers source target p (p + data.length) pieces)
        (fun s s' hs h => (hnext s s' hs h).1) ?_ _ _ r hinit hr
      · rw [hr]
        exact hpost
      · rintro ⟨i, out⟩ r ⟨hi, hout⟩ hs
        rcases splitAddWithRunsBody_spec (ε := ε) hrl hend hdata hlen hi hout with
          ⟨i', out', hb, -⟩ | ⟨pieces, hb, hcov⟩
        · rw [hb] at hs
          cases hs
        · rw [hb] at hs
          cases hs
          exact ⟨pieces, rfl, hcov⟩

/-! ### The pieces of one ADD -/

/-- Where the inner scan stops inside the data, a run of at least `MIN_RUN`
bytes starts. -/
theorem splitAddWithRunsScan_done_run {data : List UInt8} {i i' : Nat}
    (h : splitAddWithRunsScan data runLength i = .done i') (hi : i' < data.length) :
    minRun ≤ runLength (data.drop i') data[i'] (data.length - i') := by
  unfold splitAddWithRunsScan at h
  split at h
  · dsimp only at h
    split at h
    · cases h; assumption
    · cases h
  · cases h; omega

theorem splitAddWithRunsScan_run_stop {data : List UInt8} {fuel j j' : Nat}
    (h : Loop.run (splitAddWithRunsScan data runLength) fuel j = some j') (hj : j' < data.length) :
    minRun ≤ runLength (data.drop j') data[j'] (data.length - j') :=
  Loop.run_invariant (fun _ => True)
    (fun k => ∀ hk : k < data.length, minRun ≤ runLength (data.drop k) data[k] (data.length - k))
    (fun _ _ _ _ => trivial) (fun _ _ _ hd hk => splitAddWithRunsScan_done_run hd hk)
    fuel j j' trivial h hj

/-- A piece `split_add_with_runs` may push: an ADD, or a RUN of at least
`MIN_RUN` bytes. -/
def SplitPiece : Instruction → Prop
  | .add _ => True
  | .run len => minRun ≤ len
  | .copy _ _ _ => False

instance decSplitPiece : DecidablePred SplitPiece
  | .add _ => inferInstanceAs (Decidable True)
  | .run len => inferInstanceAs (Decidable (minRun ≤ len))
  | .copy _ _ _ => inferInstanceAs (Decidable False)

/-- Two neighbours that are not both ADDs. -/
def NotBothAdd (a b : Instruction) : Prop :=
  ¬ (a.isAdd ∧ b.isAdd)

/-- What `split_add_with_runs` pushes: pieces it may push, never two ADDs in
a row. -/
def SplitPieces (pieces : List Instruction) : Prop :=
  (∀ inst ∈ pieces, SplitPiece inst) ∧ pieces.IsChain NotBothAdd

theorem SplitPieces.snoc {out : List Instruction} {x : Instruction} (h : SplitPieces out)
    (hx : SplitPiece x) (hseam : ∀ l ∈ out.getLast?, NotBothAdd l x) :
    SplitPieces (out ++ [x]) := by
  refine ⟨fun inst hinst => ?_, h.2.append (.singleton x) fun l hl y hy => ?_⟩
  · rcases List.mem_append.mp hinst with hin | hin
    · exact h.1 inst hin
    · rw [List.mem_singleton.mp hin]
      exact hx
  · obtain rfl : x = y := by simpa using hy
    exact hseam l hl

/-- What the outer loop of `split_add_with_runs` keeps besides the tiling:
the pieces pushed so far, and, after an ADD, a run of at least `MIN_RUN`
bytes where the loop stands unless it stands at the end. -/
def SplitShape (data : List UInt8) (runLength : RunLengthFn) : Nat × List Instruction → Prop
  | (i, out) => SplitPieces out ∧ ∀ len, out.getLast? = some (.add len) →
      ∀ hi : i < data.length, minRun ≤ runLength (data.drop i) data[i] (data.length - i)

/-- A piece other than an ADD may follow anything. -/
theorem notBothAdd_of_not_add {l x : Instruction} (hx : x.isAdd = false) : NotBothAdd l x := by
  simp [NotBothAdd, hx]

/-- An ADD may follow the last piece when that piece is no ADD. -/
theorem notBothAdd_add_of_getLast {out : List Instruction} {len : Nat}
    (h : ∀ len', out.getLast? ≠ some (.add len')) : ∀ l ∈ out.getLast?, NotBothAdd l (.add len) := by
  intro l hl
  cases l with
  | add len' => exact absurd (Option.mem_def.mp hl) (h len')
  | copy _ _ _ => simp [NotBothAdd]
  | run _ => simp [NotBothAdd]

/-- **The shape step.**  One iteration of the outer loop keeps `SplitShape`,
and the list it stops with is made of pieces it may push with no two ADDs in a
row.  An ADD is pushed only where no run of `MIN_RUN` bytes starts, and the
one from the inner scan ends where a run starts or at the end. -/
theorem splitAddWithRunsBody_shape (hrl : RunLengthFn.Sound runLength) {data : List UInt8}
    (hlen : data.length < 2 ^ 32) {s : Nat × List Instruction} (hs : SplitShape data runLength s) :
    (∀ s', (splitAddWithRunsBody data runLength s : Loop.Step _ (Result ε (List Instruction))) =
        .next s' → SplitShape data runLength s') ∧
    ∀ pieces, (splitAddWithRunsBody data runLength s :
        Loop.Step _ (Result ε (List Instruction))) = .done (.ok pieces) → SplitPieces pieces := by
  obtain ⟨i, out⟩ := s
  obtain ⟨hout, hlast⟩ := hs
  dsimp only [splitAddWithRunsBody]
  by_cases hlt : i < data.length
  · rw [dif_pos hlt]
    have hle := hrl.le (data.drop i) data[i] (data.length - i) (by simp)
    have hlast' := fun len h => hlast len h hlt
    generalize runLength (data.drop i) data[i] (data.length - i) = runLen at hle hlast' ⊢
    -- after an ADD a run of `MIN_RUN` bytes starts here
    have hnoadd : runLen < minRun → ∀ len', out.getLast? ≠ some (.add len') :=
      fun hrun len' h => absurd (hlast' len' h) (by omega)
    by_cases hshort : data.length - i < minRun
    · -- the short tail: one ADD, never after another
      rw [if_pos hshort]
      refine ⟨fun _ h => (nomatch h), fun pieces h => ?_⟩
      cases h
      exact hout.snoc trivial (notBothAdd_add_of_getLast (hnoadd (by omega)))
    · rw [if_neg hshort]
      by_cases hrun : runLen ≥ minRun
      · -- a RUN, after which anything may come
        rw [if_pos hrun, Nat.mod_eq_of_lt (show runLen < 2 ^ 32 by omega)]
        refine ⟨fun s' h => ?_, fun _ h => (nomatch h)⟩
        cases h
        refine ⟨hout.snoc hrun fun l _ => notBothAdd_of_not_add rfl, fun len h => ?_⟩
        simp at h
      · -- an ADD up to where the scan stops, where a run starts
        rw [if_neg hrun]
        split
        · next i' hscan =>
          refine ⟨fun s' h => ?_, fun _ h => (nomatch h)⟩
          cases h
          refine ⟨hout.snoc trivial (notBothAdd_add_of_getLast (hnoadd (by omega))),
            fun len _ hi' => splitAddWithRunsScan_run_stop hscan hi'⟩
        · exact ⟨fun _ h => (nomatch h), fun _ h => (nomatch h)⟩
  · rw [dif_neg hlt]
    exact ⟨fun _ h => (nomatch h), fun pieces h => by cases h; exact hout⟩

/-- Every list `split_add_with_runs` returns is made of pieces it may push,
with no two ADDs in a row. -/
theorem splitAddWithRuns_shape (hrl : RunLengthFn.Sound runLength) {data : List UInt8}
    (hlen : data.length < 2 ^ 32) {pieces : List Instruction}
    (h : (splitAddWithRuns data runLength : Result ε (List Instruction)) = .ok pieces) :
    SplitPieces pieces := by
  unfold splitAddWithRuns at h
  split at h
  · cases h
    exact ⟨by simp, .nil⟩
  · split at h
    · cases h
      exact ⟨by simp [SplitPiece], .singleton _⟩
    · -- the outer loop stopped with `pieces`
      cases hrun : Loop.run (splitAddWithRunsBody (ε := ε) data runLength) (data.length + 1) (0, [])
        with
      | none => rw [hrun] at h; cases h
      | some r =>
        rw [hrun] at h
        cases h
        exact Loop.run_invariant (SplitShape data runLength)
          (fun r => ∀ pieces, r = .ok pieces → SplitPieces pieces)
          (fun s s' hs hn => (splitAddWithRunsBody_shape hrl hlen hs).1 s' hn)
          (fun s r hs hd pieces hr => (splitAddWithRunsBody_shape hrl hlen hs).2 pieces (hr ▸ hd))
          _ _ _ ⟨⟨by simp, .nil⟩, by simp⟩ hrun pieces rfl

/-- **`split_add_with_runs` partitions its slice.**  For a run-length function
that counts the longest prefix, on every byte string `split_add_with_runs`
returns, and its pieces tile the data (positive lengths adding up to its
length), every RUN over a constant slice of at least `MIN_RUN` bytes, never
two ADDs in a row. -/
theorem splitAddWithRuns_partition {runLength : RunLengthFn} (hrl : runLength.Exact)
    (data : List UInt8) (hlen : data.length < 2 ^ 32) :
    ∃ pieces, (splitAddWithRuns data runLength : Result ε (List Instruction)) = .ok pieces ∧
      Valid [] data pieces ∧ SplitPieces pieces := by
  have hcov : ∃ pieces, (splitAddWithRuns data runLength : Result ε (List Instruction)) =
      .ok pieces ∧ Covers [] data 0 (0 + data.length) pieces :=
    splitAddWithRuns_covers hrl.sound (by simp) (fun i _ => by simp) hlen
  obtain ⟨pieces, hok, hpieces⟩ := hcov
  rw [Nat.zero_add] at hpieces
  exact ⟨pieces, hok, hpieces, splitAddWithRuns_shape hrl.sound hlen hok⟩

/-- Eight zeros then three other bytes, cut by the scalar run length. -/
theorem splitAddWithRuns_partition_scalar : RunLengthFn.Exact findRunLengthScalar ∧
    [0, 0, 0, 0, 0, 0, 0, 0, 0, 7, 1].length < 2 ^ 32 ∧ ∃ pieces, (splitAddWithRuns [0, 0, 0, 0, 0, 0, 0, 0, 0, 7, 1] findRunLengthScalar :
      Result Unit (List Instruction)) = .ok pieces ∧
      Valid [] [0, 0, 0, 0, 0, 0, 0, 0, 0, 7, 1] pieces ∧ SplitPieces pieces :=
  ⟨fun d c n _ => findRunLengthScalar_exact d c n, by decide,
    splitAddWithRuns_partition (fun d c n _ => findRunLengthScalar_exact d c n) _ (by decide)⟩

/-- On a constant byte string of at least `MIN_RUN` bytes the run found at the
start is the whole data: `split_add_with_runs` pushes one RUN, of the data's
length cast with `as u32`. -/
theorem splitAddWithRuns_replicate {runLength : RunLengthFn} (hrl : runLength.Exact) (c : UInt8)
    {n : Nat} (hn : minRun ≤ n) :
    (splitAddWithRuns (List.replicate n c) runLength : Result ε (List Instruction)) =
      .ok [.run (n % 2 ^ 32)] := by
  have hlen : (List.replicate n c).length = n := List.length_replicate
  have hmin : minRun = 8 := rfl
  have h0 : 0 < (List.replicate n c).length := by rw [hlen]; omega
  have hrun : runLength (List.replicate n c) c n = n := by
    rw [hrl _ _ _ hlen.ge]
    simp only [prefixRunLength, List.take_replicate, Nat.min_self, List.takeWhile_replicate,
      beq_self_eq_true, if_true, List.length_replicate]
  -- the first iteration pushes the whole data as one RUN
  have hfirst : (splitAddWithRunsBody (List.replicate n c) runLength (0, []) :
      Loop.Step _ (Result ε (List Instruction))) = .next (n, [.run (n % 2 ^ 32)]) := by
    dsimp only [splitAddWithRunsBody]
    rw [dif_pos h0, if_neg (by rw [hlen]; omega), List.getElem_replicate, List.drop_zero, Nat.sub_zero,
      hlen, hrun, if_pos hn, Nat.zero_add, List.nil_append]
  -- and the second stands at the end of the data
  have hdone : (splitAddWithRunsBody (List.replicate n c) runLength (n, [.run (n % 2 ^ 32)]) :
      Loop.Step _ (Result ε (List Instruction))) = .done (.ok [.run (n % 2 ^ 32)]) := by
    dsimp only [splitAddWithRunsBody]
    rw [dif_neg (by rw [hlen]; exact Nat.lt_irrefl n)]
    rfl
  have hstop := Loop.run_of_done (n - 1) hdone
  rw [Nat.sub_add_cancel (by omega : 1 ≤ n)] at hstop
  unfold splitAddWithRuns
  rw [if_neg (by rw [List.isEmpty_replicate]; simp; omega), if_neg (by rw [hlen]; omega), hlen,
    Loop.run_of_next _ hfirst, hstop]
  rfl

/-- **A run of `2^32` bytes wraps.**  On `2^32` zeros, with the scalar run
length, the RUN pushed has the length `2^32` cast to `u32`, which is 0: it
covers none of the data. -/
theorem splitAddWithRuns_run_wraps :
    (splitAddWithRuns (List.replicate (2 ^ 32) 0) findRunLengthScalar : Result Unit (List Instruction)) =
      .ok [.run 0] := by
  rw [splitAddWithRuns_replicate (fun d c n _ => findRunLengthScalar_exact d c n) 0 (by decide),
    Nat.mod_self]

/-- The slice `&target[p..p + len]` of an ADD that reproduces its slice. -/
theorem slice_getElem? {p len : Nat} (h : p + len ≤ target.length) :
    ((target.drop p).take len).length = len ∧
      ∀ i < ((target.drop p).take len).length,
        ((target.drop p).take len)[i]? = target[p + i]? := by
  refine ⟨by simp; omega, fun i hi => ?_⟩
  simp only [List.length_take, List.length_drop] at hi
  simp [show i < len by omega]

/-- What `split_add_runs` keeps: its output tiles the target up to the
position it has reached, and the instructions still to come tile the rest. -/
def SplitInv (source target : List UInt8) (s : Nat × List Instruction)
    (rest : List Instruction) : Prop :=
  Covers source target 0 s.1 s.2 ∧ Covers source target s.1 target.length rest

/-- **The splitting step.**  One iteration of `split_add_runs` succeeds and
keeps the invariant. -/
theorem splitAddRunsStep_inv (hrl : RunLengthFn.Sound runLength) (htgt : target.length < 2 ^ 32)
    {s : Nat × List Instruction}
    {inst : Instruction} {rest : List Instruction} (h : SplitInv source target s (inst :: rest)) :
    ∃ s', (splitAddRunsStep target runLength s inst : Result ε _) = .ok s' ∧
      SplitInv source target s' rest := by
  obtain ⟨pos, result⟩ := s
  obtain ⟨hres, hpos, hrep, hrest⟩ := h
  cases inst with
  | add len =>
    have hend : pos + len ≤ target.length := hrep
    obtain ⟨hlen, hdata⟩ := slice_getElem? hend
    obtain ⟨pieces, hpieces, hcov⟩ := @splitAddWithRuns_covers ε source target runLength hrl
      pos _ (by rw [hlen]; exact hend) hdata (by omega)
    refine ⟨(pos + len, result ++ pieces), ?_, hres.append (hlen ▸ hcov), hrest⟩
    simp [splitAddRunsStep, slice_of_le (Nat.le_add_right pos len) hend, hpieces]
  | copy len addr mode => exact ⟨_, rfl, hres.snoc hpos hrep rfl, hrest⟩
  | run len => exact ⟨_, rfl, hres.snoc hpos hrep rfl, hrest⟩

/-- `split_add_runs` succeeds on a valid list and pushes a valid list. -/
theorem splitAddRuns_valid (hrl : RunLengthFn.Sound runLength) (htgt : target.length < 2 ^ 32)
    {insts : List Instruction}
    (hvalid : Valid source target insts) :
    ∃ result, (splitAddRuns insts target runLength : Result ε (List Instruction)) = .ok result ∧
      Valid source target result := by
  obtain ⟨⟨pos, result⟩, hfold, hres, hend⟩ := foldlM_invariant
    (splitAddRunsStep target runLength) (SplitInv source target)
    (fun _ _ _ h => splitAddRunsStep_inv hrl htgt h) insts (0, []) ⟨rfl, hvalid⟩
  have hpos : pos = target.length := hend
  subst hpos
  refine ⟨result, ?_, hres⟩
  rw [splitAddRuns, hfold, bind_ok']
  rfl

end Split

/-! ## The pass -/

/-- **`optimize` breaks two valid lists.**  Over the target of eight `0`s
then eight `1`s, two RUNs are valid, and `optimize` merges them into one RUN
over bytes that differ.  Over the target `1 2 1 2` with source `1 2`, a COPY
of the source followed by a COPY of the first two target bytes is valid, and
`optimize` merges them into one COPY read across the end of the source. -/
theorem optimize_merges_unsafe_pairs :
    (Valid [] (List.replicate 8 0 ++ List.replicate 8 1) [.run 8, .run 8] ∧
      (optimize [.run 8, .run 8] (List.replicate 8 0 ++ List.replicate 8 1) :
        Result Unit (List Instruction)) = .ok [.run 16] ∧
      ¬ Valid [] (List.replicate 8 0 ++ List.replicate 8 1) [.run 16]) ∧
    (Valid [1, 2] [1, 2, 1, 2] [.copy 2 0 0, .copy 2 2 0] ∧
      (optimize [.copy 2 0 0, .copy 2 2 0] [1, 2, 1, 2] : Result Unit (List Instruction)) =
        .ok [.copy 4 0 0] ∧
      ¬ Valid [1, 2] [1, 2, 1, 2] [.copy 4 0 0]) :=
  ⟨⟨by decide, rfl, by decide⟩, ⟨by decide, rfl, by decide⟩⟩

/-- **`optimize` keeps the match-engine property.**  For a valid list whose
seams are all safe, over a target whose length is a `u32` and an address
space that fits a `u64`, `optimize` succeeds, and its output is valid: it
covers the target, every RUN covers equal bytes, and every COPY reads
wholly from the source or wholly from earlier in the target. -/
theorem optimize_valid (source target : List UInt8) (instructions : List Instruction)
    (hvalid : Valid source target instructions) (hsafe : MergeSafe source target instructions)
    (htgt : target.length < 2 ^ 32) (hspace : source.length + target.length < 2 ^ 64) :
    ∃ result, (optimize instructions target : Result ε (List Instruction)) = .ok result ∧
      Valid source target result := by
  unfold optimize
  by_cases hempty : instructions.isEmpty
  · rw [if_pos hempty]
    have : instructions = [] := by simpa using hempty
    exact ⟨[], rfl, this ▸ hvalid⟩
  · rw [if_neg hempty]
    obtain ⟨coalesced, hco, hcov⟩ := coalesce_valid (ε := ε) htgt hspace hvalid hsafe
    obtain ⟨result, hsplit, hres⟩ := splitAddRuns_valid (ε := ε) findRunLengthScalar_sound htgt hcov
    -- the debug assertion holds: a tiling of the target has the target's length
    have hsum : (result.map instLen).sum = target.length := by
      simpa using hres.sum_eq
    refine ⟨result, ?_, hres⟩
    rw [hco, bind_ok', runLengthFn, hsplit, bind_ok', if_pos hsum]
    rfl

/-- A source COPY merged with its continuation, and an ADD cut into a RUN of
nine `7`s and a last ADD. -/
theorem optimize_valid_mixed :
    Valid [1, 2, 3] [1, 2, 3, 7, 7, 7, 7, 7, 7, 7, 7, 7, 5]
        [.copy 2 0 0, .copy 1 2 0, .add 4, .add 6] ∧
      MergeSafe [1, 2, 3] [1, 2, 3, 7, 7, 7, 7, 7, 7, 7, 7, 7, 5]
        [.copy 2 0 0, .copy 1 2 0, .add 4, .add 6] ∧
      [1, 2, 3, 7, 7, 7, 7, 7, 7, 7, 7, 7, 5].length < 2 ^ 32 ∧
      [1, 2, 3].length + [1, 2, 3, 7, 7, 7, 7, 7, 7, 7, 7, 7, 5].length < 2 ^ 64 ∧
      ∃ result, (optimize [.copy 2 0 0, .copy 1 2 0, .add 4, .add 6]
          [1, 2, 3, 7, 7, 7, 7, 7, 7, 7, 7, 7, 5] : Result Unit (List Instruction)) = .ok result ∧
        Valid [1, 2, 3] [1, 2, 3, 7, 7, 7, 7, 7, 7, 7, 7, 7, 5] result := by
  have hvalid : Valid [1, 2, 3] [1, 2, 3, 7, 7, 7, 7, 7, 7, 7, 7, 7, 5]
      [.copy 2 0 0, .copy 1 2 0, .add 4, .add 6] := by decide
  have hsafe : MergeSafe [1, 2, 3] [1, 2, 3, 7, 7, 7, 7, 7, 7, 7, 7, 7, 5]
      [.copy 2 0 0, .copy 1 2 0, .add 4, .add 6] := by decide
  have htgt : [1, 2, 3, 7, 7, 7, 7, 7, 7, 7, 7, 7, 5].length < 2 ^ 32 := by decide
  have hspace : [1, 2, 3].length + [1, 2, 3, 7, 7, 7, 7, 7, 7, 7, 7, 7, 5].length < 2 ^ 64 := by
    decide
  exact ⟨hvalid, hsafe, htgt, hspace, optimize_valid _ _ _ hvalid hsafe htgt hspace⟩

example : (optimize [.copy 2 0 0, .copy 1 2 0, .add 4, .add 6]
    [1, 2, 3, 7, 7, 7, 7, 7, 7, 7, 7, 7, 5] : Result Unit (List Instruction)) =
      .ok [.copy 3 0 0, .run 9, .add 1] := rfl

end Oxidelta.Compress
