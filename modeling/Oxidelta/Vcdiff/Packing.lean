import Oxidelta.Lib.CopyProgram
import Oxidelta.Vcdiff.Encoder

/-!
# What the window encoder writes

Fed a program of ADD, RUN and COPY operations, `WindowEncoder` writes each
operation's bytes into the data and address sections at once, and its
opcode into the instruction section one operation late.  This module says
what the sections hold after any program, in two parts.

* `encodeHalves` — per operation, the instruction the encoder describes it by
  (`InstructionInfo`), its bytes in the data and address sections, and the
  address cache after it;
* `packUnits` — the opcodes: the instructions grouped into single opcodes and
  double ones, as `emit_instruction` and `flush_pending` group them.

Main results:

* `feedAll_sections` — after any program the data and address sections are the
  concatenations of its halves', and the instruction section, once flushed,
  is the bytes of `packUnits` of its instructions;
* `packUnits_infos` and `packUnits_decodes` — the opcodes name the
  instructions in order, each with its size, as the default code table reads
  them.
-/

namespace Oxidelta.Vcdiff

open Rust CopyProgram

/-! ## Feeding a program -/

/-- One operation, fed as the decoder's round-trip tests feed theirs: `add`,
`run`, and `copy_with_auto_mode`. -/
def WindowEncoder.feed (e : WindowEncoder) : Op UInt8 → WindowEncoder
  | .add data => e.add data
  | .run len b => e.run len b
  | .copy len addr => e.copyWithAutoMode len addr

/-- A whole program. -/
def WindowEncoder.feedAll (e : WindowEncoder) (ops : List (Op UInt8)) : WindowEncoder :=
  ops.foldl WindowEncoder.feed e

/-! ## Halves -/

/-- What the encoder writes for one operation, its opcode apart: the
instruction, its data bytes, its address bytes, and the cache after it. -/
structure Half where
  op : Op UInt8
  info : InstructionInfo
  data : List UInt8
  addr : List UInt8
  cache : AddressCache

/-- The half of one operation, with the cache `c` before it and the address
`here` it is written at. -/
def encodeHalf (c : AddressCache) (here : Nat) : Op UInt8 → Half
  | .add data => ⟨.add data, ⟨xd3Add, data.length % 2 ^ 32⟩, data, [], c⟩
  | .run len b => ⟨.run len b, ⟨xd3Run, len⟩, [b], [], c⟩
  | .copy len addr =>
    let (mode, encoded, c') := c.encode addr here
    ⟨.copy len addr, ⟨xd3Cpy + mode, len⟩, [], encoded.asBytes, c'⟩

/-- The halves of a program, the cache threaded from one to the next. -/
def encodeHalves (c : AddressCache) (here : Nat) : List (Op UInt8) → List Half
  | [] => []
  | op :: ops => encodeHalf c here op :: encodeHalves (encodeHalf c here op).cache (here + op.size) ops

/-- The cache after a program. -/
def cacheAfter (c : AddressCache) (here : Nat) : List (Op UInt8) → AddressCache
  | [] => c
  | op :: ops => cacheAfter (encodeHalf c here op).cache (here + op.size) ops

@[simp] theorem encodeHalf_op (c : AddressCache) (here : Nat) (op : Op UInt8) :
    (encodeHalf c here op).op = op := by
  cases op <;> rfl

/-- The cache's shape does not change: every step updates it once. -/
theorem encodeHalf_modeCount (c : AddressCache) (here : Nat) (op : Op UInt8) :
    (encodeHalf c here op).cache.modeCount = c.modeCount := by
  cases op with
  | add data => rfl
  | run len b => rfl
  | copy len addr =>
    simp [encodeHalf, AddressCache.modeCount, AddressCache.encode_cache]

/-- A u32 size is the operation's size. -/
theorem encodeHalf_size (c : AddressCache) (here : Nat) {op : Op UInt8} (h : op.size < 2 ^ 32) :
    (encodeHalf c here op).info.size = op.size := by
  cases op with
  | add data => simp only [encodeHalf, Op.size] at h ⊢; omega
  | run len b => rfl
  | copy len addr => rfl

/-- The type of a COPY of a cache with nine modes, the default one's. -/
theorem copy_itype_toNat {mode : UInt8} (h : mode.toNat < 9) :
    (xd3Cpy + mode).toNat = 3 + mode.toNat := by
  rw [UInt8.toNat_add]
  simp only [xd3Cpy, UInt8.reduceToNat]
  omega

/-- The instruction of an operation has one of the encoder's types, and the
operation's size. -/
theorem encodeHalf_valid (c : AddressCache) (hc : c.modeCount = 9) {here : Nat} {op : Op UInt8}
    (hpos : 0 < op.size) (hsize : op.size < 2 ^ 32)
    (haddr : ∀ len addr, op = .copy len addr → addr < here ∧ here < 2 ^ 64) :
    (encodeHalf c here op).info.TypeValid ∧ 0 < (encodeHalf c here op).info.size := by
  rw [encodeHalf_size c here hsize]
  refine ⟨?_, hpos⟩
  cases op with
  | add data => exact ⟨by simp [encodeHalf, xd3Add], by simp [encodeHalf, xd3Add]⟩
  | run len b => exact ⟨by simp [encodeHalf, xd3Run], by simp [encodeHalf, xd3Run]⟩
  | copy len addr =>
    obtain ⟨hlt, hhere⟩ := haddr len addr rfl
    have hmode := c.encode_mode_lt hlt hhere
    rw [hc] at hmode
    simp only [encodeHalf, InstructionInfo.TypeValid, copy_itype_toNat hmode]
    omega

/-! ## Opcodes -/

/-- An opcode as the encoder writes it: a single one with its instruction, or
a double one merging two. -/
inductive Emitted where
  | single (code : UInt8) (info : InstructionInfo)
  | double (code : UInt8) (first second : InstructionInfo)

/-- The bytes of an opcode: a single one is followed by its size when the
table leaves the size open. -/
def Emitted.bytes : Emitted → List UInt8
  | .single code info => code :: (if (codeEntry code).size1 = 0 then encodeU64 info.size else [])
  | .double code _ _ => [code]

/-- The instructions of an opcode, in order. -/
def Emitted.infos : Emitted → List InstructionInfo
  | .single _ info => [info]
  | .double _ first second => [first, second]

/-- The opcode `flush_pending` writes. -/
def pendingUnits : Option PendingInst → List Emitted
  | some p => [.single p.code1 p.info]
  | none => []

/-- The opcodes of a run of instructions after the pending one, as
`emit_instruction` groups them, the last one flushed. -/
def packUnits : Option PendingInst → List InstructionInfo → List Emitted
  | pending, [] => pendingUnits pending
  | pending, inst :: rest =>
    match (chooseInstruction (pending.map (·.info)) inst).code2, pending with
    | some code2, some p => .double code2 p.info inst :: packUnits none rest
    | _, _ => pendingUnits pending ++
        packUnits (some ⟨inst, (chooseInstruction (pending.map (·.info)) inst).code1⟩) rest

/-- The bytes of a list of opcodes. -/
def unitBytes (us : List Emitted) : List UInt8 := us.flatMap Emitted.bytes

/-! ## The encoder writes the opcodes of `packUnits` -/

namespace WindowEncoder

theorem flushPending_eq (e : WindowEncoder) :
    e.flushPending =
      { e with instSection := e.instSection ++ unitBytes (pendingUnits e.pending), pending := none } := by
  obtain ⟨d, i, a, c, pending, t, sw, ck⟩ := e
  cases pending with
  | none => simp [flushPending, pendingUnits, unitBytes]
  | some p =>
    by_cases h : (codeEntry p.code1).size1 = 0 <;>
      simp [flushPending, emitOpcodeSingle, pendingUnits, unitBytes, Emitted.bytes, h]

/-- `emit_instruction` writes what `packUnits` groups: the opcodes written
and those still to come are the same before and after it. -/
theorem emitInstruction_pack (e : WindowEncoder) (inst : InstructionInfo) (rest : List InstructionInfo) :
    (e.emitInstruction inst).instSection ++ unitBytes (packUnits (e.emitInstruction inst).pending rest) =
      e.instSection ++ unitBytes (packUnits e.pending (inst :: rest)) := by
  obtain ⟨d, i, a, c, pending, t, sw, ck⟩ := e
  cases pending with
  | none =>
    -- a double opcode needs a pending instruction
    have hc := chooseInstruction_code2_none inst
    simp [emitInstruction, hc, flushPending, packUnits, pendingUnits]
  | some p =>
    cases hc : (chooseInstruction (some p.info) inst).code2 with
    | some code2 => simp [emitInstruction, hc, emitOpcodeDouble, packUnits, unitBytes, Emitted.bytes]
    | none => simp [emitInstruction, hc, flushPending_eq, packUnits, unitBytes]

/-- `emit_instruction` changes the instruction section and the pending
instruction only. -/
theorem emitInstruction_frame (e : WindowEncoder) (inst : InstructionInfo) :
    (e.emitInstruction inst).dataSection = e.dataSection ∧
    (e.emitInstruction inst).addrSection = e.addrSection ∧
    (e.emitInstruction inst).acache = e.acache ∧
    (e.emitInstruction inst).targetLen = e.targetLen ∧
    (e.emitInstruction inst).sourceWindow = e.sourceWindow ∧
    (e.emitInstruction inst).emitChecksum = e.emitChecksum := by
  obtain ⟨d, i, a, c, p, t, sw, ck⟩ := e
  simp only [emitInstruction]
  split <;> simp [emitOpcodeDouble, flushPending_eq]

/-- **One operation.**  Feeding a non-empty operation appends its half's bytes
to the data and address sections, moves the cache and `target_len` on, and
passes its instruction to `emit_instruction`. -/
theorem feed_sections (e : WindowEncoder) (op : Op UInt8) (hpos : 0 < op.size) :
    (e.feed op).dataSection = e.dataSection ++ (encodeHalf e.acache e.here op).data ∧
    (e.feed op).addrSection = e.addrSection ++ (encodeHalf e.acache e.here op).addr ∧
    (e.feed op).acache = (encodeHalf e.acache e.here op).cache ∧
    (e.feed op).targetLen = e.targetLen + op.size ∧
    (e.feed op).sourceWindow = e.sourceWindow ∧
    (e.feed op).emitChecksum = e.emitChecksum ∧
    ∀ rest, (e.feed op).instSection ++ unitBytes (packUnits (e.feed op).pending rest) =
      e.instSection ++ unitBytes (packUnits e.pending ((encodeHalf e.acache e.here op).info :: rest)) := by
  cases op with
  | add data =>
    have hne : data.isEmpty = false := by cases data <;> simp_all [Op.size]
    obtain ⟨h1, h2, h3, h4, h5, h6⟩ :=
      emitInstruction_frame { e with dataSection := e.dataSection ++ data } ⟨xd3Add, data.length % 2 ^ 32⟩
    simp only [feed, add, hne, Bool.false_eq_true, if_false]
    exact ⟨h1, by rw [h2]; simp [encodeHalf], h3, by rw [h4]; simp [Op.size], h5, h6,
      fun rest => emitInstruction_pack _ _ rest⟩
  | run len b =>
    have hne : len ≠ 0 := by simp [Op.size] at hpos; omega
    obtain ⟨h1, h2, h3, h4, h5, h6⟩ :=
      emitInstruction_frame { e with dataSection := e.dataSection ++ [b] } ⟨xd3Run, len⟩
    simp only [feed, run, hne, if_false]
    exact ⟨h1, by rw [h2]; simp [encodeHalf], h3, by rw [h4]; simp [Op.size], h5, h6,
      fun rest => emitInstruction_pack _ _ rest⟩
  | copy len addr =>
    have hne : len ≠ 0 := by simp [Op.size] at hpos; omega
    obtain ⟨h1, h2, h3, h4, h5, h6⟩ := emitInstruction_frame
      { e with acache := (e.acache.encode addr e.here).2.2,
               addrSection := e.addrSection ++ (e.acache.encode addr e.here).2.1.asBytes }
      ⟨xd3Cpy + (e.acache.encode addr e.here).1, len⟩
    simp only [feed, copyWithAutoMode, copy, hne, if_false]
    exact ⟨by rw [h1]; simp [encodeHalf], h2, h3, by rw [h4]; simp [Op.size], h5, h6,
      fun rest => emitInstruction_pack _ _ rest⟩

/-- **A whole program.**  After a program of non-empty operations the data
and address sections have grown by its halves' bytes, the cache and
`target_len` have moved past it, and the instruction section, with the
opcodes still to come, holds the opcodes `packUnits` groups its instructions
into. -/
theorem feedAll_sections (ops : List (Op UInt8)) (hpos : ∀ op ∈ ops, 0 < op.size) :
    ∀ e : WindowEncoder,
    (e.feedAll ops).dataSection = e.dataSection ++ (encodeHalves e.acache e.here ops).flatMap Half.data ∧
    (e.feedAll ops).addrSection = e.addrSection ++ (encodeHalves e.acache e.here ops).flatMap Half.addr ∧
    (e.feedAll ops).acache = cacheAfter e.acache e.here ops ∧
    (e.feedAll ops).targetLen = e.targetLen + (ops.map Op.size).sum ∧
    (e.feedAll ops).sourceWindow = e.sourceWindow ∧
    (e.feedAll ops).emitChecksum = e.emitChecksum ∧
    ∀ rest, (e.feedAll ops).instSection ++ unitBytes (packUnits (e.feedAll ops).pending rest) =
      e.instSection ++
        unitBytes (packUnits e.pending ((encodeHalves e.acache e.here ops).map Half.info ++ rest)) := by
  induction ops with
  | nil => intro e; simp [feedAll, encodeHalves, cacheAfter]
  | cons op ops ih =>
    intro e
    obtain ⟨h1, h2, h3, h4, h5, h6, h7⟩ := feed_sections e op (hpos op List.mem_cons_self)
    obtain ⟨i1, i2, i3, i4, i5, i6, i7⟩ := ih (fun o ho => hpos o (List.mem_cons_of_mem _ ho)) (e.feed op)
    -- the operation moves `here` on by its size
    have hhere : (e.feed op).here = e.here + op.size := by
      simp only [here, h4, h5]; omega
    simp only [feedAll, List.foldl_cons] at i1 i2 i3 i4 i5 i6 i7 ⊢
    rw [h3, hhere] at i1 i2 i3 i7
    refine ⟨by rw [i1, h1]; simp [encodeHalves], by rw [i2, h2]; simp [encodeHalves],
      by rw [i3]; rfl, by rw [i4, h4]; simp; omega, by rw [i5, h5], by rw [i6, h6], fun rest => ?_⟩
    rw [i7, h7]
    rfl

/-- **The sections of a program.**  A new window encoder fed a program of
non-empty operations finishes with the sections of the program's halves, and
the opcodes `packUnits` groups its instructions into, the last one flushed. -/
theorem finishSections_feedAll (sw : Option SourceWindow) (ck : Bool) (ops : List (Op UInt8))
    (hpos : ∀ op ∈ ops, 0 < op.size) (target : Option (List UInt8)) :
    ((new sw ck).feedAll ops).finishSections target =
      ⟨sw, (ops.map Op.size).sum, if ck then target.map adler32 else none,
        (encodeHalves AddressCache.new ((sw.map (·.len)).getD 0) ops).flatMap Half.data,
        unitBytes (packUnits none
          ((encodeHalves AddressCache.new ((sw.map (·.len)).getD 0) ops).map Half.info)),
        (encodeHalves AddressCache.new ((sw.map (·.len)).getD 0) ops).flatMap Half.addr⟩ := by
  obtain ⟨h1, h2, -, h4, h5, h6, h7⟩ := feedAll_sections ops hpos (new sw ck)
  have hhere : (new sw ck).here = (sw.map (·.len)).getD 0 := by simp [here, new]
  -- flushing writes the opcode `packUnits` keeps for the end
  have hinst := h7 []
  rw [List.append_nil] at hinst
  rw [hhere] at h1 h2 hinst
  simp only [finishSections, flushPending_eq, h1, h2, h4, h5, h6]
  simp only [new, List.nil_append, Nat.zero_add] at h1 h2 hinst ⊢
  rw [← hinst]
  rfl

end WindowEncoder

/-! ## The opcodes name the instructions -/

/-- The instruction of the pending opcode, if any. -/
def pendingInfos : Option PendingInst → List InstructionInfo
  | some p => [p.info]
  | none => []

/-- The opcodes carry the instructions in order: the pending one, then the
rest. -/
theorem packUnits_infos (infos : List InstructionInfo) :
    ∀ pending, (packUnits pending infos).flatMap Emitted.infos = pendingInfos pending ++ infos := by
  induction infos with
  | nil => intro pending; cases pending <;> rfl
  | cons inst rest ih =>
    intro pending
    cases pending with
    | none =>
      simp [packUnits, chooseInstruction_code2_none, pendingUnits, ih, pendingInfos]
    | some p =>
      cases hc : (chooseInstruction (some p.info) inst).code2 <;>
        simp [packUnits, hc, pendingUnits, Emitted.infos, ih, pendingInfos]

/-- An opcode as the decoder's table reads it: a single one names its
instruction's type, and its size when the size is inline; a double one names
both instructions with their sizes. -/
def Emitted.Decodes : Emitted → Prop
  | .single code info =>
    (codeEntry code).type1 = info.itype ∧ (codeEntry code).type2 = xd3Noop ∧
      ((codeEntry code).size1 ≠ 0 → (codeEntry code).size1.toNat = info.size)
  | .double code first second =>
    (codeEntry code).type1 = first.itype ∧ (codeEntry code).size1.toNat = first.size ∧
      (codeEntry code).type2 = second.itype ∧ (codeEntry code).size2.toNat = second.size

/-- A pending instruction with the single opcode `choose_instruction` gives it. -/
def PendingInst.Chosen (p : PendingInst) : Prop :=
  p.code1 = (chooseInstruction none p.info).code1 ∧ p.info.TypeValid ∧ 0 < p.info.size

theorem pendingUnits_decodes {p : PendingInst} (hp : p.Chosen) :
    (Emitted.single p.code1 p.info).Decodes := by
  obtain ⟨hcode, htype, -⟩ := hp
  rw [Emitted.Decodes, hcode]
  exact defaultCodeTable_code1 none p.info htype

/-- **The opcodes decode.**  Every opcode `packUnits` groups, from a pending
instruction with its own opcode and instructions of the encoder's types and
non-zero sizes, reads back under the default table as the instructions it
carries. -/
theorem packUnits_decodes (infos : List InstructionInfo)
    (hinfos : ∀ i ∈ infos, i.TypeValid ∧ 0 < i.size) :
    ∀ pending : Option PendingInst, (∀ p, pending = some p → p.Chosen) →
      ∀ u ∈ packUnits pending infos, u.Decodes := by
  induction infos with
  | nil =>
    intro pending hpending u hu
    cases pending with
    | none => simp [packUnits, pendingUnits] at hu
    | some p =>
      simp only [packUnits, pendingUnits, List.mem_singleton] at hu
      rw [hu]
      exact pendingUnits_decodes (hpending p rfl)
  | cons inst rest ih =>
    intro pending hpending u hu
    have hrest := ih (fun i hi => hinfos i (List.mem_cons_of_mem _ hi))
    obtain ⟨htype, hsize⟩ := hinfos inst List.mem_cons_self
    -- the instruction waits with its own single opcode
    have hnext : ∀ prev, (⟨inst, (chooseInstruction prev inst).code1⟩ : PendingInst).Chosen :=
      fun prev => ⟨chooseInstruction_code1_prev prev inst, htype, hsize⟩
    cases pending with
    | none =>
      simp only [packUnits, Option.map_none, chooseInstruction_code2_none, pendingUnits,
        List.nil_append] at hu
      exact hrest _ (fun p hp => by cases hp; exact hnext none) u hu
    | some p =>
      obtain ⟨-, hpt, hps⟩ := hpending p rfl
      cases hc : (chooseInstruction (some p.info) inst).code2 with
      | some code2 =>
        simp only [packUnits, Option.map_some, hc, List.mem_cons] at hu
        rcases hu with rfl | hu
        · obtain ⟨h1, h2, h3, h4, -⟩ := defaultCodeTable_code2 hpt hps htype hc
          exact ⟨h1, h2, h3, h4⟩
        · exact hrest none (fun _ h => by cases h) u hu
      | none =>
        simp only [packUnits, Option.map_some, hc, pendingUnits, List.singleton_append,
          List.mem_cons] at hu
        rcases hu with rfl | hu
        · exact pendingUnits_decodes (hpending p rfl)
        · exact hrest _ (fun q hq => by cases hq; exact hnext (some p.info)) u hu

end Oxidelta.Vcdiff
