import Mathlib.Data.List.Chain
import Oxidelta.Hash.Table
import Oxidelta.Vcdiff.Instructions

/-!
# The match engine (`hash/matching.rs`)

`find_matches` scans a target window and collects `Match`es: runs, stretches
found in the source through the large table, and stretches found earlier in
the target through the small table.  Lazy matching and backward extension
let the collected matches overlap and come out of order;
`matches_to_instructions` filters them through a stack into a list in target
order, and emits them with an ADD for every gap.

* `filterMatches_chain` — whatever the matches, the filter keeps matches
  each of which starts where or after the previous one ends;
* `matchesToInstructions_exact_cover` — from valid matches, the instructions
  tile the target, each reproduces its slice, and each is an ADD or an input
  match unchanged at its own position, provided the lengths fit the `u32`
  they are cast to and the shifted target addresses fit a `u64`;
* `matchesToInstructions_overflows` — without that proviso the emission
  panics or loses bytes.
-/

namespace Oxidelta.Hash

open Rust Vcdiff Segments

/-- `Match`: a stretch of the target at `targetPos`, copied from the source at
`addr`, or from the target at `addr`, or, when `addr` is `u64::MAX`, a run. -/
structure Match where
  targetPos : Nat
  length : Nat
  addr : Nat
  isSource : Bool
  deriving DecidableEq, Repr

/-- `u64::MAX`, the address that marks a RUN. -/
def runAddr : Nat := 2 ^ 64 - 1

/-- The match starts where or after `a` ends. -/
def Match.EndsBefore (a b : Match) : Prop := a.targetPos + a.length ≤ b.targetPos

/-- `try_lazy`: whether to look one byte further for a longer match. -/
def tryLazy (matchLen maxLazy pos availIn : Nat) : Bool :=
  0 < maxLazy && matchLen < maxLazy && pos + matchLen + 2 ≤ availIn

/-- `emit_add_all`. -/
def emitAddAll (target : List UInt8) : List Instruction :=
  if target.isEmpty then [] else [.add (target.length % 2 ^ 32)]

/-! ## The filter -/

/-- The first loop of `matches_to_instructions` pops the matches on top of
its stack that reach past the start of `m` and are shorter.  The stack is a
list with its top first. -/
def popOverlapped (m : Match) : List Match → List Match
  | [] => []
  | last :: rest =>
    if last.targetPos + last.length > m.targetPos ∧ m.length > last.length then
      popOverlapped m rest
    else last :: rest

/-- Then it pushes `m`, unless the match on top reaches past its start and is
at least as long. -/
def pushUncovered (m : Match) : List Match → List Match
  | [] => [m]
  | last :: rest =>
    if m.targetPos ≥ last.targetPos + last.length ∨ m.length > last.length then
      m :: last :: rest
    else last :: rest

/-- One iteration of the filter over the input matches. -/
def filterStep (sorted : List Match) (m : Match) : List Match :=
  pushUncovered m (popOverlapped m sorted)

/-- The matches `matches_to_instructions` goes on to emit, in order. -/
def filterMatches (ms : List Match) : List Match :=
  (ms.foldl filterStep []).reverse

theorem popOverlapped_suffix (m : Match) : ∀ s, popOverlapped m s <:+ s
  | [] => List.suffix_refl _
  | last :: rest => by
    unfold popOverlapped
    split
    · exact (popOverlapped_suffix m rest).trans (List.suffix_cons _ _)
    · exact List.suffix_refl _

/-- The pops stop at a match that ends by the start of `m` or is at least as
long. -/
theorem popOverlapped_head (m : Match) : ∀ s, ∀ last ∈ (popOverlapped m s).head?,
    ¬ (last.targetPos + last.length > m.targetPos ∧ m.length > last.length)
  | [] => by simp [popOverlapped]
  | last :: rest => by
    unfold popOverlapped
    split
    · exact popOverlapped_head m rest
    · next hstop =>
      intro x hx
      cases Option.mem_def.mp hx
      exact hstop

theorem pushUncovered_cases (m : Match) : ∀ s : List Match,
    pushUncovered m s = s ∨ (pushUncovered m s = m :: s ∧
      ∀ last ∈ s.head?, m.targetPos ≥ last.targetPos + last.length ∨ m.length > last.length)
  | [] => .inr ⟨rfl, fun _ h => (nomatch h)⟩
  | last :: rest => by
    rw [pushUncovered]
    split
    · next hpush =>
      refine .inr ⟨rfl, fun x hx => ?_⟩
      cases Option.mem_def.mp hx
      exact hpush
    · exact .inl rfl

/-- **The stack stays ordered.**  Read from the bottom, every match on the
stack starts where or after the one below it ends: a push happens only onto
a match that ends by the start of the new one. -/
theorem filterStep_chain {s : List Match} (hs : s.IsChain fun a b => b.EndsBefore a)
    (m : Match) : (filterStep s m).IsChain fun a b => b.EndsBefore a := by
  have hpop := hs.suffix (popOverlapped_suffix m s)
  rcases pushUncovered_cases m (popOverlapped m s) with h | ⟨h, hpush⟩
  · rw [filterStep, h]
    exact hpop
  · rw [filterStep, h, List.isChain_cons]
    refine ⟨fun last hlast => ?_, hpop⟩
    have hstop := popOverlapped_head m s last hlast
    have hcond := hpush last hlast
    unfold Match.EndsBefore
    omega

theorem mem_filterStep {s : List Match} {m x : Match} (hx : x ∈ filterStep s m) :
    x = m ∨ x ∈ s := by
  have hsub := (popOverlapped_suffix m s).subset
  rcases pushUncovered_cases m (popOverlapped m s) with h | ⟨h, -⟩
  · rw [filterStep, h] at hx
    exact .inr (hsub hx)
  · rw [filterStep, h] at hx
    rcases List.mem_cons.mp hx with rfl | hx
    · exact .inl rfl
    · exact .inr (hsub hx)

/-- The filter, from any input, yields matches in target order, each
starting where or after the previous one ends. -/
theorem filterMatches_chain (ms : List Match) :
    (filterMatches ms).IsChain Match.EndsBefore := by
  rw [filterMatches, List.isChain_reverse]
  -- the loop keeps the stack ordered
  suffices h : ∀ (xs s : List Match), (s.IsChain fun a b => b.EndsBefore a) →
      (xs.foldl filterStep s).IsChain fun a b => b.EndsBefore a from
    h ms [] List.isChain_nil
  intro xs
  induction xs with
  | nil => exact fun _ hs => hs
  | cons m xs ih => exact fun s hs => ih _ (filterStep_chain hs m)

/-- The filter only drops matches. -/
theorem mem_filterMatches {ms : List Match} {x : Match} (hx : x ∈ filterMatches ms) :
    x ∈ ms := by
  rw [filterMatches, List.mem_reverse] at hx
  suffices h : ∀ (xs s : List Match), x ∈ xs.foldl filterStep s → x ∈ s ∨ x ∈ xs by
    simpa using h ms [] hx
  intro xs
  induction xs with
  | nil => exact fun _ h => .inl h
  | cons m xs ih =>
    intro s h
    rcases ih _ h with h | h
    · rcases mem_filterStep h with rfl | h
      · exact .inr List.mem_cons_self
      · exact .inl h
    · exact .inr (List.mem_cons_of_mem _ h)

/-! ## The emission -/

/-- The instruction for a match, with `m.length as u32`, and a target match's
address moved past the `source_len` bytes of the source. -/
def emitMatch (sourceLen : Nat) (m : Match) : Result ε Instruction :=
  if m.addr = runAddr then .ok (.run (m.length % 2 ^ 32))
  else if m.isSource then .ok (.copy (m.length % 2 ^ 32) m.addr 0)
  else do
    let addr ← addChecked 64 sourceLen m.addr
    .ok (.copy (m.length % 2 ^ 32) addr 0)

/-- One iteration of the second loop: a match starting before `covered_to`
is skipped; otherwise an ADD for the gap before it, then its instruction. -/
def emitStep (sourceLen : Nat) :
    List Instruction × Nat → Match → Result ε (List Instruction × Nat)
  | (insts, coveredTo), m =>
    if m.targetPos < coveredTo then .ok (insts, coveredTo)
    else do
      let gap := if m.targetPos > coveredTo then
        [Instruction.add ((m.targetPos - coveredTo) % 2 ^ 32)] else []
      let inst ← emitMatch sourceLen m
      .ok (insts ++ gap ++ [inst], m.targetPos + m.length)

/-- `MatchEngine::matches_to_instructions`. -/
def matchesToInstructions (target : List UInt8) (sourceLen : Nat) (ms : List Match) :
    Result ε (List Instruction) := do
  let r ← (filterMatches ms).foldlM (emitStep sourceLen) ([], 0)
  .ok (if r.2 < target.length then r.1 ++ [.add ((target.length - r.2) % 2 ^ 32)] else r.1)

/-- The instruction a match stands for. -/
def Match.instruction (sourceLen : Nat) (m : Match) : Instruction :=
  if m.addr = runAddr then .run m.length
  else if m.isSource then .copy m.length m.addr 0
  else .copy m.length (sourceLen + m.addr) 0

/-- A match as the engine means it: non-empty and inside the target; a run
over equal bytes; a source match equal to the source at its address; a
target match equal to an earlier stretch of the target. -/
def Match.Valid (source target : List UInt8) (m : Match) : Prop :=
  0 < m.length ∧ m.targetPos + m.length ≤ target.length ∧
    if m.addr = runAddr then ∀ i < m.length, target[m.targetPos + i]? = target[m.targetPos]?
    else if m.isSource then ∀ i < m.length, source[m.addr + i]? = target[m.targetPos + i]?
    else m.addr < m.targetPos ∧ ∀ i < m.length, target[m.addr + i]? = target[m.targetPos + i]?

instance Match.decValid (source target : List UInt8) (m : Match) :
    Decidable (m.Valid source target) :=
  inferInstanceAs (Decidable (0 < m.length ∧ m.targetPos + m.length ≤ target.length ∧
    if m.addr = runAddr then ∀ i < m.length, target[m.targetPos + i]? = target[m.targetPos]?
    else if m.isSource then ∀ i < m.length, source[m.addr + i]? = target[m.targetPos + i]?
    else m.addr < m.targetPos ∧ ∀ i < m.length, target[m.addr + i]? = target[m.targetPos + i]?))

@[simp] theorem instLen_instruction (sourceLen : Nat) (m : Match) :
    instLen (m.instruction sourceLen) = m.length := by
  unfold Match.instruction
  split_ifs <;> rfl

/-- A target match copies from before its own start. -/
theorem Match.Valid.addr_lt {source target : List UInt8} {m : Match} (h : m.Valid source target)
    (hrun : m.addr ≠ runAddr) (hself : m.isSource = false) : m.addr < m.targetPos := by
  obtain ⟨-, -, hrd⟩ := h
  rw [if_neg hrun, if_neg (by simp [hself])] at hrd
  exact hrd.1

/-- **A valid match reproduces its slice.**  A source match lies inside the
source, since the source has a byte wherever the target does. -/
theorem Match.Valid.reproduces {source target : List UInt8} {m : Match}
    (h : m.Valid source target) :
    (m.instruction source.length).Reproduces source target m.targetPos := by
  obtain ⟨hpos, hend, hrd⟩ := h
  unfold Match.instruction
  split at hrd
  · next hrun =>
    rw [if_pos hrun]
    exact ⟨hend, hrd⟩
  · next hrun =>
    rw [if_neg hrun]
    split at hrd
    · next hsrc =>
      rw [if_pos hsrc]
      have hlast : (source[m.addr + (m.length - 1)]?).isSome := by
        rw [hrd _ (by omega), isSome_getElem?]
        omega
      rw [isSome_getElem?] at hlast
      simp only [Instruction.Reproduces]
      rw [if_pos (by omega)]
      exact ⟨hend, by omega, hrd⟩
    · next hsrc =>
      rw [if_neg hsrc]
      simp only [Instruction.Reproduces]
      rw [if_neg (by omega), Nat.add_sub_cancel_left]
      exact ⟨hend, hrd⟩

theorem emitMatch_eq {sourceLen : Nat} {m : Match} (hlen : m.length < 2 ^ 32)
    (haddr : m.addr ≠ runAddr → m.isSource = false → sourceLen + m.addr < 2 ^ 64) :
    (emitMatch sourceLen m : Result ε Instruction) = .ok (m.instruction sourceLen) := by
  unfold emitMatch Match.instruction
  rw [Nat.mod_eq_of_lt hlen]
  split_ifs with hrun hsrc
  · rfl
  · rfl
  · rw [addChecked_of_lt (haddr hrun (by simpa using hsrc)), bind_ok']

theorem emitStep_of_le {sourceLen c : Nat} {insts : List Instruction} {m : Match}
    (hc : c ≤ m.targetPos) (hlen : m.length < 2 ^ 32)
    (haddr : m.addr ≠ runAddr → m.isSource = false → sourceLen + m.addr < 2 ^ 64) :
    (emitStep sourceLen (insts, c) m : Result ε (List Instruction × Nat)) =
      .ok (insts ++ (if m.targetPos > c then [.add ((m.targetPos - c) % 2 ^ 32)] else []) ++
        [m.instruction sourceLen], m.targetPos + m.length) := by
  rw [emitStep, if_neg (by omega), emitMatch_eq hlen haddr]
  rfl

section Emit

variable {source target : List UInt8} {ms : List Match}

/-- What `matches_to_instructions` may put at position `p`: an instruction
that reproduces its slice, and is an ADD or the instruction of one of the
input matches starting at `p`. -/
def Emitted (source target : List UInt8) (ms : List Match) (p : Nat) (inst : Instruction) :
    Prop :=
  inst.Reproduces source target p ∧
    (inst.isAdd ∨ ∃ m ∈ ms, m.targetPos = p ∧ inst = m.instruction source.length)

/-- An ADD from `c` to `q` is emitted correctly wherever it fits. -/
theorem emitted_add {c q : Nat} (hcq : c < q) (hq : q ≤ target.length) :
    Emitted source target ms c (.add (q - c)) :=
  ⟨show c + (q - c) ≤ target.length by omega, .inl rfl⟩

variable (hT : target.length < 2 ^ 32) (hL : source.length + target.length ≤ 2 ^ 64)
include hT hL

/-- **One emission step.**  A valid match that starts at or after
`covered_to` extends the tiling to its end: the gap becomes an ADD, the match
its instruction. -/
theorem emitStep_tiles {m : Match} (hm : m.Valid source target) (hmem : m ∈ ms) {c : Nat}
    {insts : List Instruction} (hc : c ≤ m.targetPos)
    (h : Tiles instLen (Emitted source target ms) 0 c insts) :
    ∃ insts', (emitStep source.length (insts, c) m : Result ε (List Instruction × Nat)) =
        .ok (insts', m.targetPos + m.length) ∧
      Tiles instLen (Emitted source target ms) 0 (m.targetPos + m.length) insts' := by
  have hpos := hm.1
  have hend := hm.2.1
  have haddr : m.addr ≠ runAddr → m.isSource = false → source.length + m.addr < 2 ^ 64 :=
    fun hrun hself => by have := hm.addr_lt hrun hself; omega
  have hinst : Emitted source target ms m.targetPos (m.instruction source.length) :=
    ⟨hm.reproduces, .inr ⟨m, hmem, rfl, rfl⟩⟩
  rw [emitStep_of_le hc (by omega) haddr]
  refine ⟨_, rfl, ?_⟩
  by_cases hgap : c < m.targetPos
  · -- the gap before the match is an ADD
    rw [if_pos hgap, Nat.mod_eq_of_lt (by omega)]
    have hadd : Tiles instLen (Emitted source target ms) 0 m.targetPos
        (insts ++ [.add (m.targetPos - c)]) :=
      h.snoc (by simp; omega) (emitted_add hgap (by omega)) (by simp; omega)
    exact hadd.snoc (by simp; omega) hinst (by simp)
  · rw [if_neg hgap, List.append_nil]
    obtain rfl : c = m.targetPos := by omega
    exact h.snoc (by simp; omega) hinst (by simp)

/-- **The emission loop.**  Over matches in target order, each valid and an
input match, the loop keeps the instructions a tiling of `[0, covered_to)`. -/
theorem emitStep_foldlM : ∀ (xs : List Match) (insts : List Instruction) (c : Nat),
    (∀ m ∈ xs, m.Valid source target ∧ m ∈ ms) → xs.IsChain Match.EndsBefore →
    (∀ m ∈ xs.head?, c ≤ m.targetPos) → c ≤ target.length →
    Tiles instLen (Emitted source target ms) 0 c insts →
    ∃ insts' c', (xs.foldlM (emitStep source.length) (insts, c) :
        Result ε (List Instruction × Nat)) = .ok (insts', c') ∧
      c' ≤ target.length ∧ Tiles instLen (Emitted source target ms) 0 c' insts'
  | [], insts, c, _, _, _, hc, h => ⟨insts, c, rfl, hc, h⟩
  | m :: xs, insts, c, hms, hchain, hhead, _, h => by
    obtain ⟨hm, hmem⟩ := hms m List.mem_cons_self
    obtain ⟨insts', hstep, htiles⟩ := emitStep_tiles hT hL hm hmem (hhead m rfl) h
    obtain ⟨hnext, hrest⟩ := List.isChain_cons.mp hchain
    rw [List.foldlM_cons, hstep, bind_ok']
    exact emitStep_foldlM xs insts' _ (fun x hx => hms x (List.mem_cons_of_mem _ hx)) hrest
      hnext hm.2.1 htiles

theorem matchesToInstructions_tiles (hvalid : ∀ m ∈ ms, m.Valid source target) :
    ∃ insts, (matchesToInstructions target source.length ms :
        Result ε (List Instruction)) = .ok insts ∧
      Tiles instLen (Emitted source target ms) 0 target.length insts := by
  obtain ⟨insts, c, hfold, hc, htiles⟩ := emitStep_foldlM (ε := ε) hT hL (filterMatches ms)
    [] 0 (fun m hm => ⟨hvalid m (mem_filterMatches hm), mem_filterMatches hm⟩)
    (filterMatches_chain ms) (fun _ _ => Nat.zero_le _) (Nat.zero_le _) rfl
  refine ⟨_, by rw [matchesToInstructions, hfold, bind_ok'], ?_⟩
  split
  · -- the trailing ADD
    next hlt =>
    rw [Nat.mod_eq_of_lt (by omega)]
    exact htiles.snoc (by simp; omega) (emitted_add hlt le_rfl) (by simp; omega)
  · next hge =>
    obtain rfl : c = target.length := by omega
    exact htiles

end Emit

/-- **Overlap resolution yields an exact cover.**  From valid matches, in any
order and overlapping in any way, `matches_to_instructions` returns
instructions that tile the target (positive lengths, in order, every byte
once), each reproducing its slice; each is an ADD, or the instruction of an
input match (a target match's address shifted by the source's length)
starting where the match does.  The lengths must fit the `u32` they are cast
to, and the shifted addresses the `u64` they are added in. -/
theorem matchesToInstructions_exact_cover {ε : Type} (source target : List UInt8)
    (ms : List Match) (hvalid : ∀ m ∈ ms, m.Valid source target)
    (hT : target.length < 2 ^ 32) (hL : source.length + target.length ≤ 2 ^ 64) :
    ∃ insts, (matchesToInstructions target source.length ms :
        Result ε (List Instruction)) = .ok insts ∧
      Valid source target insts ∧
      Tiles instLen (fun p inst => inst.isAdd ∨
        ∃ m ∈ ms, m.targetPos = p ∧ inst = m.instruction source.length)
        0 target.length insts := by
  obtain ⟨insts, hok, htiles⟩ := matchesToInstructions_tiles hT hL hvalid
  exact ⟨insts, hok, htiles.imp fun _ _ h => h.1, htiles.imp fun _ _ h => h.2⟩

/-- Five matches as lazy matching leaves them: a source match overlapped by a
longer one found after it, a target match, and a run overlapped by a longer
run; the filter keeps the source match, the target match and the longer
run. -/
theorem matchesToInstructions_exact_cover_lazy :
    (∀ m ∈ ([⟨1, 3, 1, true⟩, ⟨0, 5, 0, true⟩, ⟨9, 4, 5, false⟩, ⟨14, 3, runAddr, false⟩,
        ⟨13, 9, runAddr, false⟩] : List Match),
      m.Valid [10, 20, 30, 40, 50] [10, 20, 30, 40, 50, 1, 2, 3, 4, 1, 2, 3, 4, 7, 7, 7, 7, 7, 7, 7,
        7, 7, 9]) ∧
    ∃ insts, (matchesToInstructions
        [10, 20, 30, 40, 50, 1, 2, 3, 4, 1, 2, 3, 4, 7, 7, 7, 7, 7, 7, 7, 7, 7, 9] 5
        [⟨1, 3, 1, true⟩, ⟨0, 5, 0, true⟩, ⟨9, 4, 5, false⟩, ⟨14, 3, runAddr, false⟩,
          ⟨13, 9, runAddr, false⟩] : Result Unit (List Instruction)) = .ok insts ∧
      Valid [10, 20, 30, 40, 50]
        [10, 20, 30, 40, 50, 1, 2, 3, 4, 1, 2, 3, 4, 7, 7, 7, 7, 7, 7, 7, 7, 7, 9] insts ∧
      Tiles instLen (fun p inst => inst.isAdd ∨
        ∃ m ∈ ([⟨1, 3, 1, true⟩, ⟨0, 5, 0, true⟩, ⟨9, 4, 5, false⟩, ⟨14, 3, runAddr, false⟩,
          ⟨13, 9, runAddr, false⟩] : List Match), m.targetPos = p ∧ inst = m.instruction 5) 0 23 insts :=
  ⟨by decide, matchesToInstructions_exact_cover [10, 20, 30, 40, 50]
    [10, 20, 30, 40, 50, 1, 2, 3, 4, 1, 2, 3, 4, 7, 7, 7, 7, 7, 7, 7, 7, 7, 9] _ (by decide)
    (by decide) (by decide)⟩

/-- **Where the cover fails.**  A target match copying `T[1..3]` to
`T[2..4]` is valid whatever the source; with a source of `u64::MAX` bytes
its shifted address overflows, and the emission panics.  And a target of
`2 ^ 32` bytes without matches becomes one ADD whose length the `u32` cast
has made zero. -/
theorem matchesToInstructions_overflows :
    (∀ source : List UInt8, Match.Valid source [0, 5, 5, 5] ⟨2, 2, 1, false⟩) ∧
    (matchesToInstructions [0, 5, 5, 5] (2 ^ 64 - 1) [⟨2, 2, 1, false⟩] :
        Result Unit (List Instruction)) = Rust.panic "attempt to add with overflow" ∧
    (matchesToInstructions (List.replicate (2 ^ 32) 0) 0 [] : Result Unit (List Instruction)) =
      .ok [.add 0] := by
  refine ⟨fun source => ⟨by decide, by decide, ?_⟩, rfl, ?_⟩
  · rw [if_neg (by decide), if_neg (by decide)]
    decide
  · simp only [matchesToInstructions, filterMatches, List.foldl_nil, List.reverse_nil,
      List.foldlM_nil, List.length_replicate]
    rfl

end Oxidelta.Hash
