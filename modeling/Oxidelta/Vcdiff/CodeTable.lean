import Mathlib.Data.List.Basic

/-!
# The default code table (`vcdiff/code_table.rs`)

An opcode of the instruction section names one or two half-instructions:
their types (`NOOP`, `ADD`, `RUN`, or `CPY + mode`) and sizes, a size `0`
meaning that the size follows in the instruction section as a varint.
`build_default_code_table` generates the 256 entries of RFC 3284 §5.6 in the
order xdelta3 does; `choose_instruction` is the encoder's side, picking the
opcode of one instruction and, where the table has one, the double opcode
that merges it with the instruction before it.

Main results:

* `defaultCodeTable_code1` — the single opcode the encoder picks names the
  instruction's type, and either its size or an explicit size;
* `defaultCodeTable_code2` — a double opcode names the previous instruction
  and this one, with both sizes;
* `chooseInstruction_code2_prev` — a double opcode is only chosen after a
  pending instruction that it can absorb.

Each is a check over the finitely many instructions of inline size, made
once by `decide` and transported to all sizes.
-/

namespace Oxidelta.Vcdiff

/-- `XD3_NOOP`. -/
def xd3Noop : UInt8 := 0
/-- `XD3_ADD`. -/
def xd3Add : UInt8 := 1
/-- `XD3_RUN`. -/
def xd3Run : UInt8 := 2
/-- `XD3_CPY`: the type of a COPY of mode `m` is `XD3_CPY + m`. -/
def xd3Cpy : UInt8 := 3

/-- `MIN_MATCH`. -/
def minMatch : UInt8 := 4

/-- `CodeTableEntry`. -/
structure CodeTableEntry where
  type1 : UInt8
  size1 : UInt8
  type2 : UInt8
  size2 : UInt8
  deriving DecidableEq, Repr

/-- A single instruction of type `t` and table size `s`. -/
def CodeTableEntry.single (t s : UInt8) : CodeTableEntry := ⟨t, s, xd3Noop, 0⟩

/-- `build_default_code_table`: the entries in the order the loops write
them (`ADD_SIZES = 17`, `NEAR_MODES = 4`, `SAME_MODES = 3`, `CPY_SIZES = 15`,
`ADDCOPY_ADD_MAX = 4`, `ADDCOPY_NEAR_CPY_MAX = 6`, `ADDCOPY_SAME_CPY_MAX = 4`,
`COPYADD_ADD_MAX = 1`, `COPYADD_NEAR_CPY_MAX = 4`, `COPYADD_SAME_CPY_MAX = 4`). -/
def buildDefaultCodeTable : List CodeTableEntry :=
  let cpyModes := 2 + 4 + 3
  let nearLimit : UInt8 := 2 + 4
  -- index 0: RUN of explicit size; index 1: ADD of explicit size
  [.single xd3Run 0, .single xd3Add 0] ++
  -- indices 2..18: ADD of sizes 1..17
  (List.range 17).map (fun k => .single xd3Add (UInt8.ofNat (k + 1))) ++
  -- for each mode: COPY of explicit size, then of sizes 4..18
  (List.range cpyModes).flatMap (fun m =>
    .single (xd3Cpy + UInt8.ofNat m) 0 ::
      (List.range 15).map fun k => .single (xd3Cpy + UInt8.ofNat m) (minMatch + UInt8.ofNat k)) ++
  -- ADD + COPY doubles
  (List.range cpyModes).flatMap (fun m =>
    let cpyMax : UInt8 := if UInt8.ofNat m < nearLimit then 6 else 4
    (List.range 4).flatMap fun a =>
      (List.range (cpyMax.toNat - 3)).map fun k =>
        ⟨xd3Add, UInt8.ofNat (a + 1), xd3Cpy + UInt8.ofNat m, minMatch + UInt8.ofNat k⟩) ++
  -- COPY + ADD doubles
  (List.range cpyModes).flatMap (fun m =>
    let cpyMax : UInt8 := if UInt8.ofNat m < nearLimit then 4 else 4
    (List.range (cpyMax.toNat - 3)).flatMap fun k =>
      (List.range 1).map fun a =>
        ⟨xd3Cpy + UInt8.ofNat m, minMatch + UInt8.ofNat k, xd3Add, UInt8.ofNat (a + 1)⟩)

theorem buildDefaultCodeTable_length : buildDefaultCodeTable.length = 256 := by
  decide +kernel

/-- `default_code_table`: the table as the 256-entry array the decoder indexes. -/
def defaultCodeTable : Vector CodeTableEntry 256 :=
  ⟨buildDefaultCodeTable.toArray, by simp [buildDefaultCodeTable_length]⟩

/-- The entry of an opcode. -/
def codeEntry (opcode : UInt8) : CodeTableEntry :=
  have h : opcode.toNat < 256 := opcode.toNat_lt
  defaultCodeTable[opcode.toNat]

/-- The first half of every opcode is an instruction: only second halves are
`NOOP`. -/
theorem codeEntry_type1_ne_noop (opcode : UInt8) : (codeEntry opcode).type1 ≠ xd3Noop := by
  -- every entry starts with a RUN, an ADD or a COPY of one of the nine modes
  have hrun : xd3Run ≠ xd3Noop := by decide
  have hadd : xd3Add ≠ xd3Noop := by decide
  have hcpy : ∀ m < 9, xd3Cpy + UInt8.ofNat m ≠ xd3Noop := by decide
  have hall : ∀ e ∈ buildDefaultCodeTable, e.type1 ≠ xd3Noop := by
    intro e he
    simp only [buildDefaultCodeTable, List.mem_append, List.mem_cons, List.mem_map, List.mem_flatMap,
      List.mem_range, List.not_mem_nil, or_false] at he
    rcases he with ((((rfl | rfl) | ⟨k, -, rfl⟩) | ⟨m, hm, rfl | ⟨k, -, rfl⟩⟩) | ⟨m, hm, a, -, k, -, rfl⟩) |
      ⟨m, hm, k, -, a, -, rfl⟩
    · exact hrun
    · exact hadd
    · exact hadd
    · exact hcpy m hm
    · exact hcpy m hm
    · exact hadd
    · exact hcpy m hm
  apply hall
  simp [codeEntry, defaultCodeTable]

/-- `Instruction`: a decoded instruction, its COPY address in the combined
source and target address space. -/
inductive Instruction where
  | add (len : Nat)
  | copy (len addr : Nat) (mode : UInt8)
  | run (len : Nat)
  deriving DecidableEq, Repr

/-! ## Choosing opcodes -/

/-- `InstructionInfo`: a type and a `u32` size. -/
structure InstructionInfo where
  itype : UInt8
  size : Nat
  deriving DecidableEq, Repr

/-- `ChosenInstruction`. -/
structure ChosenInstruction where
  code1 : UInt8
  code2 : Option UInt8
  deriving DecidableEq, Repr

/-- `choose_instruction`: the single opcode of `inst`, and the double opcode
merging the pending `prev` with it when the table has one.  Sizes are `u32`
cast to `u8` only where they are known to be small. -/
def chooseInstruction (prev : Option InstructionInfo) (inst : InstructionInfo) :
    ChosenInstruction :=
  if inst.itype = xd3Run then ⟨0, none⟩
  else if inst.itype = xd3Add then
    if inst.size ≤ 17 then
      let code2 :=
        match prev with
        | some prev =>
          if inst.size = 1 ∧ prev.size = 4 ∧ xd3Cpy ≤ prev.itype then
            some (247 + (prev.itype - xd3Cpy))
          else none
        | none => none
      ⟨1 + UInt8.ofNat inst.size, code2⟩
    else ⟨1, none⟩
  else
    let mode := inst.itype - xd3Cpy
    let code1 := 19 + 16 * mode
    if 4 ≤ inst.size ∧ inst.size ≤ 18 then
      let code2 :=
        match prev with
        | some prev =>
          if prev.itype = xd3Add ∧ prev.size ≤ 4 then
            if inst.size ≤ 6 ∧ mode ≤ 5 then
              some (163 + mode * 12 + 3 * (UInt8.ofNat prev.size - 1) + (UInt8.ofNat inst.size - 4))
            else if inst.size = 4 ∧ 6 ≤ mode then
              some (235 + (mode - 6) * 4 + (UInt8.ofNat prev.size - 1))
            else none
          else none
        | none => none
      ⟨code1 + (UInt8.ofNat inst.size - 3), code2⟩
    else ⟨code1, none⟩

/-! ## The opcodes name the instructions -/

/-- The types of the instructions the encoder emits: `ADD`, `RUN`, and the
COPYs of the nine modes. -/
def InstructionInfo.TypeValid (i : InstructionInfo) : Prop :=
  1 ≤ i.itype.toNat ∧ i.itype.toNat ≤ 11

/-- The single opcode does not look at the pending instruction. -/
theorem chooseInstruction_code1_prev (prev : Option InstructionInfo) (inst : InstructionInfo) :
    (chooseInstruction prev inst).code1 = (chooseInstruction none inst).code1 := by
  unfold chooseInstruction
  split
  · rfl
  · split
    · split <;> rfl
    · split <;> rfl

/-- Past the inline sizes, the single opcode is the one of explicit size. -/
theorem chooseInstruction_code1_large (inst : InstructionInfo) (h : 19 ≤ inst.size) :
    (chooseInstruction none inst).code1 = (chooseInstruction none ⟨inst.itype, 19⟩).code1 := by
  unfold chooseInstruction
  simp only [show ¬ inst.size ≤ 17 by omega, show ¬ (4 ≤ inst.size ∧ inst.size ≤ 18) by omega,
    show ¬ (19 : Nat) ≤ 17 by omega, show ¬ (4 ≤ 19 ∧ 19 ≤ 18) by omega, if_false]

/-- What `defaultCodeTable_code1` says of one instruction, as a test: the
entry names the type alone, and an inline size is the instruction's. -/
def code1Names (inst : InstructionInfo) (bound : Nat) : Bool :=
  let e := codeEntry (chooseInstruction none inst).code1
  e.type1 == inst.itype && e.type2 == xd3Noop &&
    (e.size1 == 0 || (e.size1.toNat == inst.size && decide (inst.size < bound)))

/-- The table check behind `defaultCodeTable_code1`, for every type and every
size up to the first one that is never inline. -/
theorem code1_table : ∀ t < 12, ∀ s < 20, 1 ≤ t → code1Names ⟨UInt8.ofNat t, s⟩ 19 = true := by
  decide +kernel

/-- **Single opcodes.**  The opcode the encoder picks for an instruction
names its type alone, with its size inline or explicit. -/
theorem defaultCodeTable_code1 (prev : Option InstructionInfo) (inst : InstructionInfo)
    (ht : inst.TypeValid) :
    (codeEntry (chooseInstruction prev inst).code1).type1 = inst.itype ∧
    (codeEntry (chooseInstruction prev inst).code1).type2 = xd3Noop ∧
    ((codeEntry (chooseInstruction prev inst).code1).size1 ≠ 0 →
      (codeEntry (chooseInstruction prev inst).code1).size1.toNat = inst.size) := by
  obtain ⟨ht1, ht2⟩ := ht
  have hinst : (⟨UInt8.ofNat inst.itype.toNat, inst.size⟩ : InstructionInfo) = inst := by simp
  rw [chooseInstruction_code1_prev]
  by_cases hs : inst.size < 20
  · have := code1_table inst.itype.toNat (by omega) inst.size hs ht1
    rw [hinst] at this
    simp only [code1Names, Bool.and_eq_true, Bool.or_eq_true, beq_iff_eq, decide_eq_true_eq] at this
    obtain ⟨⟨h1, h2⟩, h3⟩ := this
    exact ⟨h1, h2, fun h => by rcases h3 with h3 | h3; exact absurd h3 h; exact h3.1⟩
  · have := code1_table inst.itype.toNat (by omega) 19 (by omega) ht1
    rw [UInt8.ofNat_toNat] at this
    rw [chooseInstruction_code1_large inst (by omega)]
    simp only [code1Names, Bool.and_eq_true, Bool.or_eq_true, beq_iff_eq, decide_eq_true_eq] at this
    obtain ⟨⟨h1, h2⟩, h3⟩ := this
    exact ⟨h1, h2, fun h => by rcases h3 with h3 | h3; exact absurd h3 h; omega⟩

/-- A double opcode is chosen only after a pending instruction. -/
theorem chooseInstruction_code2_none (inst : InstructionInfo) :
    (chooseInstruction none inst).code2 = none := by
  unfold chooseInstruction
  split
  · rfl
  · split
    · split <;> rfl
    · split <;> rfl

/-- A double opcode merges small instructions only. -/
theorem chooseInstruction_code2_small {prev inst : InstructionInfo} {c : UInt8}
    (h : (chooseInstruction (some prev) inst).code2 = some c) :
    prev.size ≤ 4 ∧ inst.size ≤ 6 := by
  unfold chooseInstruction at h
  split at h
  · simp at h
  · split at h
    · split at h
      · simp only at h
        split at h
        · omega
        · simp at h
      · simp at h
    · split at h
      · simp only at h
        split at h
        · split at h
          · omega
          · split at h
            · omega
            · simp at h
        · simp at h
      · simp at h

/-- What `defaultCodeTable_code2` says of a pair of instructions, as a
test: a double opcode names both, each with its size inline. -/
def code2Names (prev inst : InstructionInfo) : Bool :=
  (chooseInstruction (some prev) inst).code2.all fun c =>
    (codeEntry c).type1 == prev.itype && (codeEntry c).size1.toNat == prev.size &&
      (codeEntry c).type2 == inst.itype && (codeEntry c).size2.toNat == inst.size &&
      decide (0 < inst.size)

/-- The table check behind `defaultCodeTable_code2`. -/
theorem code2_table : ∀ pt < 11, ∀ ps < 4, ∀ it < 11, ∀ s < 7,
    code2Names ⟨UInt8.ofNat (pt + 1), ps + 1⟩ ⟨UInt8.ofNat (it + 1), s⟩ = true := by
  decide +kernel

/-- **Double opcodes.**  A double opcode the encoder picks names the pending
instruction and this one, in that order, each with its size inline. -/
theorem defaultCodeTable_code2 {prev inst : InstructionInfo} {c : UInt8}
    (hp : prev.TypeValid) (hps : 0 < prev.size) (hi : inst.TypeValid)
    (h : (chooseInstruction (some prev) inst).code2 = some c) :
    (codeEntry c).type1 = prev.itype ∧ (codeEntry c).size1.toNat = prev.size ∧
    (codeEntry c).type2 = inst.itype ∧ (codeEntry c).size2.toNat = inst.size ∧ 0 < inst.size := by
  obtain ⟨hsp, hsi⟩ := chooseInstruction_code2_small h
  have hprev : (⟨UInt8.ofNat prev.itype.toNat, prev.size⟩ : InstructionInfo) = prev := by simp
  have hinst : (⟨UInt8.ofNat inst.itype.toNat, inst.size⟩ : InstructionInfo) = inst := by simp
  have := code2_table (prev.itype.toNat - 1) (by have := hp.2; omega) (prev.size - 1) (by omega)
    (inst.itype.toNat - 1) (by have := hi.2; omega) inst.size (by omega)
  rw [Nat.sub_add_cancel hp.1, Nat.sub_add_cancel hps, Nat.sub_add_cancel hi.1, hprev, hinst] at this
  simp only [code2Names, h, Option.all_some, Bool.and_eq_true, beq_iff_eq, decide_eq_true_eq] at this
  obtain ⟨⟨⟨⟨h1, h2⟩, h3⟩, h4⟩, h5⟩ := this
  exact ⟨h1, h2, h3, h4, h5⟩

/-- **The opcode chooser agrees with the code table.**  For an instruction of
a type the encoder emits, after any pending instruction of the same kind, the
single opcode's entry names the type alone, with an explicit size or the
instruction's own, and a double opcode is chosen only after a pending
instruction and its entry names the two, in order, with their sizes. -/
theorem chooseInstruction_matches_table (prev : Option InstructionInfo) (inst : InstructionInfo)
    (hi : inst.TypeValid) (hp : ∀ p ∈ prev, p.TypeValid ∧ 0 < p.size) :
    ((codeEntry (chooseInstruction prev inst).code1).type1 = inst.itype ∧
      (codeEntry (chooseInstruction prev inst).code1).type2 = xd3Noop ∧
      ((codeEntry (chooseInstruction prev inst).code1).size1 = 0 ∨
        (codeEntry (chooseInstruction prev inst).code1).size1.toNat = inst.size)) ∧
    ∀ c, (chooseInstruction prev inst).code2 = some c →
      ∃ p, prev = some p ∧ (codeEntry c).type1 = p.itype ∧ (codeEntry c).size1.toNat = p.size ∧
        (codeEntry c).type2 = inst.itype ∧ (codeEntry c).size2.toNat = inst.size := by
  obtain ⟨h1, h2, h3⟩ := defaultCodeTable_code1 prev inst hi
  refine ⟨⟨h1, h2, ?_⟩, fun c hc => ?_⟩
  · by_cases hz : (codeEntry (chooseInstruction prev inst).code1).size1 = 0
    · exact .inl hz
    · exact .inr (h3 hz)
  · -- a double opcode needs a pending instruction
    cases prev with
    | none => rw [chooseInstruction_code2_none] at hc; cases hc
    | some p =>
      obtain ⟨hpt, hps⟩ := hp p rfl
      obtain ⟨e1, e2, e3, e4, -⟩ := defaultCodeTable_code2 hpt hps hi hc
      exact ⟨p, rfl, e1, e2, e3, e4⟩

/-- An ADD of two bytes pending before a COPY of four in mode 0: the pair
takes a double opcode. -/
theorem chooseInstruction_matches_table_add_copy :
    InstructionInfo.TypeValid ⟨xd3Cpy, 4⟩ ∧
      (∀ p ∈ some (⟨xd3Add, 2⟩ : InstructionInfo), p.TypeValid ∧ 0 < p.size) ∧
      (chooseInstruction (some ⟨xd3Add, 2⟩) ⟨xd3Cpy, 4⟩).code2.isSome ∧
      ((codeEntry (chooseInstruction (some ⟨xd3Add, 2⟩) ⟨xd3Cpy, 4⟩).code1).type1 = xd3Cpy ∧
        (codeEntry (chooseInstruction (some ⟨xd3Add, 2⟩) ⟨xd3Cpy, 4⟩).code1).type2 = xd3Noop ∧
        ((codeEntry (chooseInstruction (some ⟨xd3Add, 2⟩) ⟨xd3Cpy, 4⟩).code1).size1 = 0 ∨
          (codeEntry (chooseInstruction (some ⟨xd3Add, 2⟩) ⟨xd3Cpy, 4⟩).code1).size1.toNat = 4)) ∧
      ∀ c, (chooseInstruction (some ⟨xd3Add, 2⟩) ⟨xd3Cpy, 4⟩).code2 = some c →
        ∃ p, some (⟨xd3Add, 2⟩ : InstructionInfo) = some p ∧ (codeEntry c).type1 = p.itype ∧
          (codeEntry c).size1.toNat = p.size ∧ (codeEntry c).type2 = xd3Cpy ∧
          (codeEntry c).size2.toNat = 4 := by
  have hi : InstructionInfo.TypeValid ⟨xd3Cpy, 4⟩ := ⟨by decide, by decide⟩
  have hp : ∀ p ∈ some (⟨xd3Add, 2⟩ : InstructionInfo), p.TypeValid ∧ 0 < p.size := by
    intro p hp
    cases Option.mem_def.mp hp
    exact ⟨⟨by decide, by decide⟩, by decide⟩
  exact ⟨hi, hp, by decide, chooseInstruction_matches_table _ _ hi hp⟩

end Oxidelta.Vcdiff
