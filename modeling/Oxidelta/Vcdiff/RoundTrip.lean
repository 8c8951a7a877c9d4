import Oxidelta.Vcdiff.Packing
import Oxidelta.Vcdiff.Iterator
import Mathlib.Data.List.Forall2
import Mathlib.Algebra.Order.BigOperators.Group.List

/-!
# The window round trip

The decoder and the instruction iterator read back what the window encoder
wrote.  Both walk the instruction section opcode by opcode; the proofs follow
the same shape, a lemma per half-instruction, one per opcode, and an induction
over the opcodes `packUnits` groups, the remaining sections described at every
step by the halves of the remaining operations (`encodeHalves`), whose cache
is the one the reader holds.

Main results:

* `windowLoop_encoded` — the decoder's loop over the sections of a program
  appends the program's output;
* `collect_encoded` — the iterator yields one instruction per operation, of the
  same kind, length and address.
-/

namespace Oxidelta.Vcdiff

open Rust CopyProgram

/-! ## Sections as the reader sees them -/

theorem drop_add_of_drop_eq {l a b : List UInt8} {n : Nat} (h : l.drop n = a ++ b) :
    l.drop (n + a.length) = b := by
  rw [← List.drop_drop, h, List.drop_left]

theorem getElem?_of_drop_eq_cons {l t : List UInt8} {n : Nat} {a : UInt8} (h : l.drop n = a :: t) :
    l[n]? = some a := by
  rw [← Nat.add_zero n, ← List.getElem?_drop, h]
  rfl

theorem drop_succ_of_drop_eq_cons {l t : List UInt8} {n : Nat} {a : UInt8} (h : l.drop n = a :: t) :
    l.drop (n + 1) = t := by
  rw [← List.drop_drop, h]
  rfl

theorem le_length_of_drop_eq {l a b : List UInt8} {n : Nat} (h : l.drop n = a ++ b) (ha : a ≠ []) :
    n + a.length ≤ l.length := by
  have hlen := congrArg List.length h
  simp only [List.length_drop, List.length_append] at hlen
  have : 0 < a.length := List.length_pos_iff.2 ha
  omega

/-! ## Opcodes and halves -/

theorem unitBytes_cons (u : Emitted) (us : List Emitted) :
    unitBytes (u :: us) = u.bytes ++ unitBytes us := List.flatMap_cons

/-- Every opcode takes at least its code byte. -/
theorem length_le_unitBytes : ∀ us : List Emitted, us.length ≤ (unitBytes us).length
  | [] => le_refl _
  | u :: us => by
    have hu : 1 ≤ u.bytes.length := by cases u <;> simp [Emitted.bytes]
    have := length_le_unitBytes us
    rw [unitBytes_cons, List.length_append, List.length_cons]
    omega

/-- An opcode carries one or two instructions. -/
theorem length_flatMap_infos_le : ∀ us : List Emitted, (us.flatMap Emitted.infos).length ≤ 2 * us.length
  | [] => le_refl _
  | u :: us => by
    have hu : u.infos.length ≤ 2 := by cases u <;> simp [Emitted.infos]
    have := length_flatMap_infos_le us
    rw [List.flatMap_cons, List.length_append, List.length_cons]
    omega

theorem encodeHalves_eq_nil {c : AddressCache} {here : Nat} {ops : List (Op UInt8)} :
    encodeHalves c here ops = [] ↔ ops = [] := by
  cases ops <;> simp [encodeHalves]

/-- An operation the encoder and the readers handle at position `tp` of a
window with a copy window of `cwl` bytes: non-empty, in bounds, of a `u32`
size, and ending at a `u64` position. -/
structure OpFits (cwl tp : Nat) (op : Op UInt8) : Prop where
  pos : 0 < op.size
  inBounds : op.InBounds cwl tp
  size_lt : op.size < 2 ^ 32
  end_lt : cwl + tp + op.size < 2 ^ 64

/-- The first operation of a well-formed program of `u32` size and `u64`
positions fits. -/
theorem OpFits.of_cons {cwl tp : Nat} {op : Op UInt8} {ops : List (Op UInt8)}
    (hwf : WellFormed cwl tp (op :: ops)) (htotal : ((op :: ops).map Op.size).sum < 2 ^ 32)
    (hbound : cwl + (tp + ((op :: ops).map Op.size).sum) < 2 ^ 64) : OpFits cwl tp op := by
  obtain ⟨hpos, hin, -⟩ := hwf
  simp only [List.map_cons, List.sum_cons] at htotal hbound
  exact ⟨hpos, hin, by omega, by omega⟩

section OpFits

variable {cwl tp : Nat} {op : Op UInt8} (hf : OpFits cwl tp op) {c : AddressCache}
include hf

/-- A fitting operation is described by an instruction of the encoder's types
and of the operation's size. -/
theorem OpFits.info (hc : c.modeCount = 9) :
    (encodeHalf c (cwl + tp) op).info.TypeValid ∧ (encodeHalf c (cwl + tp) op).info.size = op.size := by
  refine ⟨(encodeHalf_valid c hc hf.pos hf.size_lt fun len addr h => ?_).1, encodeHalf_size c _ hf.size_lt⟩
  have := hf.end_lt
  have hin := hf.inBounds
  subst h
  exact ⟨hin.1, by simp only [Op.size] at this; omega⟩

/-- Its data bytes are at most its size: an ADD's, or a RUN's one byte. -/
theorem OpFits.data_length_le (here : Nat) : (encodeHalf c here op).data.length ≤ op.size := by
  have := hf.pos
  cases op <;> simp only [encodeHalf, Op.size, List.length_singleton, List.length_nil] at this ⊢ <;> omega

/-- Its address bytes are at most the ten of a `u64` varint. -/
theorem OpFits.addr_length_le : (encodeHalf c (cwl + tp) op).addr.length ≤ 10 := by
  cases op with
  | add data => simp [encodeHalf]
  | run len b => simp [encodeHalf]
  | copy len addr =>
    have := hf.end_lt
    have hin := hf.inBounds
    simp only [Op.size] at this
    simp only [encodeHalf, ← EncodedAddr.len_eq_length]
    exact c.encode_len_le hin.1 (by omega)

end OpFits

/-- The next operation of a well-formed program of `u32` sizes and `u64`
addresses is described by an instruction of the encoder's types and the
operation's size. -/
theorem encodeHalf_info_of_wellFormed {c : AddressCache} {cwl tp : Nat} {op : Op UInt8}
    {ops : List (Op UInt8)} (hc : c.modeCount = 9) (hwf : WellFormed cwl tp (op :: ops))
    (htotal : ((op :: ops).map Op.size).sum < 2 ^ 32)
    (hbound : cwl + (tp + ((op :: ops).map Op.size).sum) < 2 ^ 64) :
    (encodeHalf c (cwl + tp) op).info.TypeValid ∧ (encodeHalf c (cwl + tp) op).info.size = op.size :=
  (OpFits.of_cons hwf htotal hbound).info hc

/-- **Every half of a well-formed program** is that of a fitting operation,
encoded from a cache of nine modes at the operation's own position. -/
theorem mem_encodeHalves {cwl : Nat} : ∀ {ops : List (Op UInt8)} {c : AddressCache} {tp : Nat},
    c.modeCount = 9 → WellFormed cwl tp ops → (ops.map Op.size).sum < 2 ^ 32 →
    cwl + (tp + (ops.map Op.size).sum) < 2 ^ 64 →
    ∀ h ∈ encodeHalves c (cwl + tp) ops,
      ∃ c' tp' op, c'.modeCount = 9 ∧ h = encodeHalf c' (cwl + tp') op ∧ OpFits cwl tp' op
  | [], _, _, _, _, _, _, h, hh => by simp [encodeHalves] at hh
  | op :: ops, c, tp, hc, hwf, htotal, hbound, h, hh => by
    have hf := OpFits.of_cons hwf htotal hbound
    simp only [List.map_cons, List.sum_cons] at htotal hbound
    rw [encodeHalves, List.mem_cons] at hh
    rcases hh with rfl | hh
    · exact ⟨c, tp, op, hc, rfl, hf⟩
    · rw [Nat.add_assoc] at hh
      exact mem_encodeHalves (by rw [encodeHalf_modeCount, hc]) hwf.2.2 (by omega) (by omega) h hh

theorem encodeHalves_map_op (c : AddressCache) (here : Nat) :
    ∀ ops : List (Op UInt8), (encodeHalves c here ops).map Half.op = ops
  | [] => rfl
  | op :: ops => by simp [encodeHalves, encodeHalves_map_op _ _ ops]

/-! ## The sizes of the sections -/

section Sizes

variable {c : AddressCache} {cwl tp : Nat} {ops : List (Op UInt8)} (hc : c.modeCount = 9)
  (hwf : WellFormed cwl tp ops) (htotal : (ops.map Op.size).sum < 2 ^ 32)
  (hbound : cwl + (tp + (ops.map Op.size).sum) < 2 ^ 64)
include hc hwf htotal hbound

/-- The data section of a program is at most its target. -/
theorem flatMap_data_length_le :
    ((encodeHalves c (cwl + tp) ops).flatMap Half.data).length ≤ (ops.map Op.size).sum := by
  have hmem := mem_encodeHalves hc hwf htotal hbound
  calc ((encodeHalves c (cwl + tp) ops).flatMap Half.data).length
      = ((encodeHalves c (cwl + tp) ops).map fun h => h.data.length).sum := List.length_flatMap
    _ ≤ ((encodeHalves c (cwl + tp) ops).map fun h => h.op.size).sum := by
      apply List.sum_le_sum
      intro h hh
      obtain ⟨c', tp', op, -, rfl, hf⟩ := hmem h hh
      simpa using hf.data_length_le (c := c') (cwl + tp')
    _ = (ops.map Op.size).sum := by
      rw [show (fun h : Half => h.op.size) = Op.size ∘ Half.op from rfl, ← List.map_map,
        encodeHalves_map_op]

/-- The address section of a program is at most ten bytes per operation. -/
theorem flatMap_addr_length_le :
    ((encodeHalves c (cwl + tp) ops).flatMap Half.addr).length ≤ 10 * ops.length := by
  have hmem := mem_encodeHalves hc hwf htotal hbound
  calc ((encodeHalves c (cwl + tp) ops).flatMap Half.addr).length
      = ((encodeHalves c (cwl + tp) ops).map fun h => h.addr.length).sum := List.length_flatMap
    _ ≤ ((encodeHalves c (cwl + tp) ops).map fun h => h.addr.length).length • 10 := by
      apply List.sum_le_card_nsmul
      intro n hn
      obtain ⟨h, hh, rfl⟩ := List.mem_map.1 hn
      obtain ⟨c', tp', op, -, rfl, hf⟩ := hmem h hh
      exact hf.addr_length_le
    _ = 10 * ops.length := by
      have hlen := congrArg List.length (encodeHalves_map_op c (cwl + tp) ops)
      rw [List.length_map] at hlen
      simp [hlen, Nat.mul_comm]

/-- The instructions of a program have the encoder's types and fitting sizes. -/
theorem encodeHalves_info_valid :
    ∀ i ∈ (encodeHalves c (cwl + tp) ops).map Half.info, i.TypeValid ∧ 0 < i.size ∧ i.size < 2 ^ 32 := by
  intro i hi
  obtain ⟨h, hh, rfl⟩ := List.mem_map.1 hi
  obtain ⟨c', tp', op, hc', rfl, hf⟩ := mem_encodeHalves hc hwf htotal hbound h hh
  obtain ⟨htype, hsize⟩ := hf.info hc'
  exact ⟨htype, hsize ▸ hf.pos, hsize ▸ hf.size_lt⟩

end Sizes

/-- An opcode takes its code byte and, for a single one, at most the five
bytes of a `u32` size. -/
theorem Emitted.bytes_length_le (u : Emitted) (h : ∀ i ∈ u.infos, i.size < 2 ^ 32) :
    u.bytes.length ≤ 6 * u.infos.length := by
  cases u with
  | single code info =>
    have hlen := encodeU64_length_u32 (h info (by simp [Emitted.infos]))
    have := sizeofU32_le info.size
    simp only [Emitted.bytes, Emitted.infos, List.length_cons]
    split
    · simp only [List.length_nil]; omega
    · simp only [List.length_nil]; omega
  | double code first second => simp [Emitted.bytes, Emitted.infos]

theorem unitBytes_length_le :
    ∀ us : List Emitted, (∀ u ∈ us, ∀ i ∈ u.infos, i.size < 2 ^ 32) →
      (unitBytes us).length ≤ 6 * (us.flatMap Emitted.infos).length
  | [], _ => le_refl _
  | u :: us, h => by
    have hu := u.bytes_length_le (h u List.mem_cons_self)
    have := unitBytes_length_le us fun v hv => h v (List.mem_cons_of_mem _ hv)
    rw [unitBytes_cons, List.flatMap_cons, List.length_append, List.length_append]
    omega

/-! ## Sizes -/

/-- The size of a single opcode's instruction: in the table, or in the
varint the encoder wrote after the opcode. -/
theorem resolveSize_single (errPrefix : String) {code : UInt8} {info : InstructionInfo}
    {inst rest : List UInt8} {pos : Nat}
    (hd : (Emitted.single code info).Decodes) (hsize : info.size < 2 ^ 32)
    (h : inst.drop pos = (if (codeEntry code).size1 = 0 then encodeU64 info.size else []) ++ rest) :
    ∃ pos', resolveSize errPrefix inst pos (codeEntry code).size1 = .ok (info.size, pos') ∧
      inst.drop pos' = rest := by
  by_cases hz : (codeEntry code).size1 = 0
  · rw [if_pos hz] at h
    rw [hz]
    exact ⟨_, resolveSize_of_varint errPrefix hsize h, drop_add_of_drop_eq h⟩
  · rw [if_neg hz, List.nil_append] at h
    refine ⟨pos, ?_, h⟩
    rw [resolveSize_of_ne_zero errPrefix inst pos hz, hd.2.2 hz]

/-- Both sizes of a double opcode are in the table. -/
theorem resolveSize_double (errPrefix : String) {code : UInt8} {first second : InstructionInfo}
    (inst : List UInt8) (pos : Nat)
    (hd : (Emitted.double code first second).Decodes) (h1 : 0 < first.size) (h2 : 0 < second.size) :
    resolveSize errPrefix inst pos (codeEntry code).size1 = .ok (first.size, pos) ∧
      resolveSize errPrefix inst pos (codeEntry code).size2 = .ok (second.size, pos) := by
  obtain ⟨-, hs1, -, hs2⟩ := hd
  have hz1 : (codeEntry code).size1 ≠ 0 := by
    intro h; rw [h] at hs1; simp at hs1; omega
  have hz2 : (codeEntry code).size2 ≠ 0 := by
    intro h; rw [h] at hs2; simp at hs2; omega
  rw [resolveSize_of_ne_zero errPrefix inst pos hz1, resolveSize_of_ne_zero errPrefix inst pos hz2,
    hs1, hs2]
  exact ⟨rfl, rfl⟩

theorem itype_ne_noop {i : InstructionInfo} (h : i.TypeValid) : i.itype ≠ xd3Noop := by
  intro he
  have := h.1
  rw [he] at this
  simp [xd3Noop] at this

/-- What a reader of a COPY's half finds: a COPY type of the cache's modes,
and the address bytes, which the cache decodes to the address. -/
theorem copyHalf_reads {c : AddressCache} {addr here pos : Nat} {addrSec aRest : List UInt8}
    (hc : c.modeCount = 9) (hlt : addr < here) (hhere : here < 2 ^ 64)
    (haddr : addrSec.drop pos = (c.encode addr here).2.1.asBytes ++ aRest) :
    (xd3Cpy + (c.encode addr here).1 ≠ xd3Noop ∧ xd3Cpy + (c.encode addr here).1 ≠ xd3Run ∧
        xd3Cpy + (c.encode addr here).1 ≠ xd3Add) ∧
      pos ≤ addrSec.length ∧
      c.decode (c.encode addr here).1 (addrSec.drop pos) here =
        .ok (addr, (c.encode addr here).2.1.len, (c.encode addr here).2.2) ∧
      addrSec.drop (pos + (c.encode addr here).2.1.len) = aRest := by
  have hmode := c.encode_mode_lt hlt hhere
  rw [hc] at hmode
  have hcpy := copy_itype_toNat hmode
  -- the type is 3 + mode, past the three others
  have hne : ∀ t : UInt8, t.toNat < 3 → xd3Cpy + (c.encode addr here).1 ≠ t := by
    intro t ht h
    have := congrArg UInt8.toNat h
    omega
  refine ⟨⟨hne _ (by decide), hne _ (by decide), hne _ (by decide)⟩, ?_, ?_, ?_⟩
  · have := le_length_of_drop_eq haddr (c.encode_asBytes_ne_nil hlt hhere)
    omega
  · rw [haddr]
    exact c.decode_encode hlt hhere aRest
  · rw [EncodedAddr.len_eq_length]
    exact drop_add_of_drop_eq haddr

/-! ## The decoder, one half-instruction -/

section Decoder

variable {ctx : WindowCtx} {pre : List UInt8}

/-- **One half-instruction.**  Where the data and address sections hold the
bytes the encoder wrote for an operation, and the reader's cache is the
encoder's, the decoder executes the operation: it appends what the operation
appends, and moves past its bytes and on to the encoder's next cache. -/
theorem executeHalfInstruction_encodeHalf (hcwl : ctx.copyWindowLen = ctx.source.length)
    (hcwo : ctx.copyWindowOffset = 0) (hbase : ctx.baseOffset = pre.length)
    {st : WindowState} {ts : UInt8} {op : Op UInt8} {instPos : Nat} {out dRest aRest : List UInt8}
    (hcache : st.acache.modeCount = 9)
    (hres : resolveSize "bad instruction size: " ctx.instSection st.instPos ts = .ok (op.size, instPos))
    (hdata : ctx.dataSection.drop st.dataPos =
      (encodeHalf st.acache (ctx.copyWindowLen + st.targetPos) op).data ++ dRest)
    (haddr : ctx.addrSection.drop st.addrPos =
      (encodeHalf st.acache (ctx.copyWindowLen + st.targetPos) op).addr ++ aRest)
    (hout : st.output = pre ++ out) (hlen : out.length = st.targetPos)
    (hpos : 0 < op.size) (hin : op.InBounds ctx.copyWindowLen st.targetPos)
    (hbound : ctx.copyWindowLen + st.targetPos + op.size < 2 ^ 64) :
    ∃ st', executeHalfInstruction ctx
        (encodeHalf st.acache (ctx.copyWindowLen + st.targetPos) op).info.itype ts st = .ok st' ∧
      st'.instPos = instPos ∧
      ctx.dataSection.drop st'.dataPos = dRest ∧ ctx.addrSection.drop st'.addrPos = aRest ∧
      st'.acache = (encodeHalf st.acache (ctx.copyWindowLen + st.targetPos) op).cache ∧
      st'.targetPos = st.targetPos + op.size ∧
      st'.output = pre ++ apply ctx.source out op := by
  cases op with
  | add data =>
    simp only [Op.size] at hres hpos hbound ⊢
    simp only [encodeHalf, List.nil_append] at hdata haddr ⊢
    have hne : data ≠ [] := by rintro rfl; simp at hpos
    have hle := le_length_of_drop_eq hdata hne
    have htake : (ctx.dataSection.drop st.dataPos).take data.length = data := by
      rw [hdata, List.take_left']
      rfl
    refine ⟨_, executeHalfInstruction_add hres hle (by omega),
      rfl, drop_add_of_drop_eq hdata, haddr, rfl, rfl, ?_⟩
    rw [htake, hout, apply, List.append_assoc]
  | run len b =>
    simp only [Op.size] at hres hpos hbound ⊢
    simp only [encodeHalf, List.nil_append] at hdata haddr ⊢
    have hbyte : ctx.dataSection[st.dataPos]? = some b := getElem?_of_drop_eq_cons hdata
    refine ⟨_, executeHalfInstruction_run hres hbyte (by omega),
      rfl, drop_add_of_drop_eq hdata, haddr, rfl, rfl, ?_⟩
    rw [hout, apply, List.append_assoc]
  | copy len addr =>
    obtain ⟨hlt, hsrc⟩ := hin
    simp only [Op.size] at hres hpos hbound ⊢
    have hhere : ctx.copyWindowLen + st.targetPos < 2 ^ 64 := by omega
    simp only [encodeHalf, List.nil_append] at hdata haddr ⊢
    obtain ⟨⟨-, hrun, hadd⟩, hle, hdec, hrest⟩ := copyHalf_reads hcache hlt hhere haddr
    obtain ⟨st', hexec, rfl⟩ : ∃ st', executeHalfInstruction ctx _ ts st = .ok st' ∧ st' = _ :=
      ⟨_, executeHalfInstruction_copyOk hres hrun hadd hhere hle hdec (by omega)
        (fun h => ⟨hsrc (by omega), by rw [hcwo, ← hcwl]; have := hsrc (by omega); omega,
          by rw [hcwo]; have := hsrc (by omega); omega⟩)
        (fun h => by rw [hbase, hout, List.length_append, hlen]; omega), rfl⟩
    refine ⟨_, hexec, rfl, hdata, hrest, rfl, rfl, ?_⟩
    simp only [apply, ← hcwl, hcwo, Nat.zero_add]
    split
    · rw [hout, List.append_assoc]
    · rw [hbase, hout, overlapCopy_append]

/-- The decoder part way through a window of a program: the data and address
sections still to read hold the bytes of the remaining operations, encoded
from the decoder's own cache and position; the output is `pre`, the earlier
windows, then `out`, what the operations run so far have built.  The copy
window is the whole source, as the encoder declares it. -/
structure SectionsAt (ctx : WindowCtx) (pre : List UInt8) (st : WindowState) (ops : List (Op UInt8))
    (out : List UInt8) : Prop where
  cwl : ctx.copyWindowLen = ctx.source.length
  cwo : ctx.copyWindowOffset = 0
  base : ctx.baseOffset = pre.length
  data : ctx.dataSection.drop st.dataPos =
    (encodeHalves st.acache (ctx.copyWindowLen + st.targetPos) ops).flatMap Half.data
  addr : ctx.addrSection.drop st.addrPos =
    (encodeHalves st.acache (ctx.copyWindowLen + st.targetPos) ops).flatMap Half.addr
  modeCount : st.acache.modeCount = 9
  output : st.output = pre ++ out
  outLen : out.length = st.targetPos
  wf : WellFormed ctx.copyWindowLen st.targetPos ops
  total : (ops.map Op.size).sum < 2 ^ 32
  bound : ctx.copyWindowLen + (st.targetPos + (ops.map Op.size).sum) < 2 ^ 64

variable {st : WindowState} {op : Op UInt8} {ops : List (Op UInt8)} {out : List UInt8}

/-- The next operation's instruction has one of the encoder's types and the
operation's size. -/
theorem SectionsAt.head_info (hS : SectionsAt ctx pre st (op :: ops) out) :
    (encodeHalf st.acache (ctx.copyWindowLen + st.targetPos) op).info.TypeValid ∧
      (encodeHalf st.acache (ctx.copyWindowLen + st.targetPos) op).info.size = op.size :=
  encodeHalf_info_of_wellFormed hS.modeCount hS.wf hS.total hS.bound

/-- **The decoder runs the next operation** of the window, given its size. -/
theorem SectionsAt.half (hS : SectionsAt ctx pre st (op :: ops) out) {ts : UInt8} {instPos : Nat}
    (hres : resolveSize "bad instruction size: " ctx.instSection st.instPos ts = .ok (op.size, instPos)) :
    ∃ st', executeHalfInstruction ctx
        (encodeHalf st.acache (ctx.copyWindowLen + st.targetPos) op).info.itype ts st = .ok st' ∧
      st'.instPos = instPos ∧ st'.acache = (encodeHalf st.acache (ctx.copyWindowLen + st.targetPos) op).cache ∧
      st'.targetPos = st.targetPos + op.size ∧ SectionsAt ctx pre st' ops (apply ctx.source out op) := by
  obtain ⟨hpos, hin, hwf⟩ := hS.wf
  have htotal := hS.total
  have hbound := hS.bound
  simp only [List.map_cons, List.sum_cons] at htotal hbound
  have hdata := hS.data
  have haddr := hS.addr
  simp only [encodeHalves, List.flatMap_cons] at hdata haddr
  obtain ⟨st', hexec, hinst, hd, ha, hc, htp, hout⟩ :=
    executeHalfInstruction_encodeHalf hS.cwl hS.cwo hS.base hS.modeCount hres hdata haddr
      hS.output hS.outLen hpos hin (by omega)
  -- the remaining halves are encoded from the decoder's new cache and position
  have hhere : ctx.copyWindowLen + st'.targetPos = ctx.copyWindowLen + st.targetPos + op.size := by
    omega
  refine ⟨st', hexec, hinst, hc, htp, hS.cwl, hS.cwo, hS.base, by rw [hd, hc, hhere],
    by rw [ha, hc, hhere], by rw [hc, encodeHalf_modeCount, hS.modeCount], hout, ?_,
    by rw [htp]; exact hwf, by omega, by omega⟩
  rw [apply_length _ _ _ (by rw [← hS.cwl, hS.outLen]; exact hin), hS.outLen, htp]

/-- Reading an opcode moves the instruction position only. -/
theorem SectionsAt.setInstPos (hS : SectionsAt ctx pre st ops out) (k : Nat) :
    SectionsAt ctx pre { st with instPos := k } ops out :=
  ⟨hS.cwl, hS.cwo, hS.base, hS.data, hS.addr, hS.modeCount, hS.output, hS.outLen, hS.wf, hS.total,
    hS.bound⟩

/-- **One opcode.**  Where the instruction section holds the bytes of an
opcode naming the next instructions, one iteration of the loop runs the one
or two operations it names. -/
theorem SectionsAt.unit (hS : SectionsAt ctx pre st ops out) {u : Emitted} {us : List Emitted}
    (hinst : ctx.instSection.drop st.instPos = u.bytes ++ unitBytes us) (hdec : u.Decodes)
    (hinfos : u.infos ++ us.flatMap Emitted.infos =
      (encodeHalves st.acache (ctx.copyWindowLen + st.targetPos) ops).map Half.info) :
    ∃ st' done rest, ops = done ++ rest ∧ windowBody ctx st = .next st' ∧
      ctx.instSection.drop st'.instPos = unitBytes us ∧
      us.flatMap Emitted.infos =
        (encodeHalves st'.acache (ctx.copyWindowLen + st'.targetPos) rest).map Half.info ∧
      SectionsAt ctx pre st' rest (done.foldl (apply ctx.source) out) := by
  have hS₀ := hS.setInstPos (st.instPos + 1)
  cases u with
  | single code info =>
    rw [Emitted.bytes, List.cons_append] at hinst
    have hget := getElem?_of_drop_eq_cons hinst
    have hinst' := drop_succ_of_drop_eq_cons hinst
    obtain _ | ⟨op, ops⟩ := ops
    · simp [encodeHalves, Emitted.infos] at hinfos
    simp only [Emitted.infos, encodeHalves, List.map_cons, List.singleton_append,
      List.cons.injEq] at hinfos
    obtain ⟨rfl, hrest⟩ := hinfos
    obtain ⟨htype, hsize⟩ := hS.head_info
    obtain ⟨instPos, hres, hinstPos⟩ := resolveSize_single "bad instruction size: " hdec
      (by rw [hsize]; have := hS.total; simp at this; omega) hinst'
    rw [hsize] at hres
    obtain ⟨st', hexec, hpos, hc, htp, hS'⟩ := hS₀.half hres
    refine ⟨st', [op], ops, rfl, ?_, by rw [hpos]; exact hinstPos, ?_, hS'⟩
    · rw [windowBody_of_getElem? hget, executeOpcode_single _ (hdec.1 ▸ itype_ne_noop htype) hdec.2.1,
        hdec.1]
      dsimp only at hexec
      rw [hexec]
    · rw [hrest, hc, htp, Nat.add_assoc]
  | double code first second =>
    rw [Emitted.bytes, List.cons_append, List.nil_append] at hinst
    have hget := getElem?_of_drop_eq_cons hinst
    have hinst' := drop_succ_of_drop_eq_cons hinst
    obtain _ | ⟨op₁, _ | ⟨op₂, ops⟩⟩ := ops
    · simp [encodeHalves, Emitted.infos] at hinfos
    · simp [encodeHalves, Emitted.infos] at hinfos
    simp only [Emitted.infos, encodeHalves, List.map_cons, List.cons_append, List.nil_append,
      List.cons.injEq] at hinfos
    obtain ⟨rfl, rfl, hrest⟩ := hinfos
    obtain ⟨htype₁, hsize₁⟩ := hS.head_info
    obtain ⟨hpos₁, -, hpos₂, -⟩ := hS.wf
    have htotal := hS.total
    simp only [List.map_cons, List.sum_cons] at htotal
    have hsize₂ := @encodeHalf_size (encodeHalf st.acache (ctx.copyWindowLen + st.targetPos) op₁).cache
      (ctx.copyWindowLen + st.targetPos + op₁.size) op₂ (by omega)
    obtain ⟨hres₁, hres₂⟩ := resolveSize_double "bad instruction size: " ctx.instSection
      (st.instPos + 1) hdec (by rw [hsize₁]; exact hpos₁) (by rw [hsize₂]; exact hpos₂)
    rw [hsize₁] at hres₁
    rw [hsize₂] at hres₂
    obtain ⟨st₁, hexec₁, hi₁, hc₁, htp₁, hS₁⟩ := hS₀.half hres₁
    dsimp only at hexec₁ hc₁ htp₁
    -- the second half is encoded from the cache and position after the first
    have hsecond : encodeHalf st₁.acache (ctx.copyWindowLen + st₁.targetPos) op₂ =
        encodeHalf (encodeHalf st.acache (ctx.copyWindowLen + st.targetPos) op₁).cache
          (ctx.copyWindowLen + st.targetPos + op₁.size) op₂ := by
      rw [hc₁, htp₁, Nat.add_assoc]
    rw [← hi₁] at hres₂
    obtain ⟨st₂, hexec₂, hi₂, hc₂, htp₂, hS₂⟩ := hS₁.half hres₂
    have htype₂ := hS₁.head_info.1
    rw [hsecond] at hexec₂ htype₂
    refine ⟨st₂, [op₁, op₂], ops, rfl, ?_, by rw [hi₂, hi₁]; exact hinst', ?_, hS₂⟩
    · rw [windowBody_of_getElem? hget,
        executeOpcode_double _ (hdec.1 ▸ itype_ne_noop htype₁) (hdec.2.2.1 ▸ itype_ne_noop htype₂),
        hdec.1, hdec.2.2.1, hexec₁, bind_ok', hexec₂]
    · rw [hrest, hc₂, hsecond, htp₂, htp₁]
      simp only [Nat.add_assoc]

/-- Past the last opcode the loop stops with the state it has. -/
theorem windowBody_of_drop_eq_nil (h : ctx.instSection.drop st.instPos = []) :
    windowBody ctx st = .done (.ok st) := by
  have hle := List.drop_eq_nil_iff.1 h
  simp [windowBody, Nat.not_lt.2 hle]

/-- **The window's loop.**  From a state where the instruction section still
holds the opcodes naming the remaining operations, the loop stops within
one iteration per opcode, with the operations run on the output. -/
theorem SectionsAt.loop {us : List Emitted} :
    ∀ {st : WindowState} {ops : List (Op UInt8)} {out : List UInt8}, SectionsAt ctx pre st ops out →
      ctx.instSection.drop st.instPos = unitBytes us →
      us.flatMap Emitted.infos =
        (encodeHalves st.acache (ctx.copyWindowLen + st.targetPos) ops).map Half.info →
      (∀ u ∈ us, u.Decodes) → ∀ n, us.length < n →
      ∃ st', Loop.run (windowBody ctx) n st = some (.ok st') ∧
        st'.output = pre ++ ops.foldl (apply ctx.source) out := by
  induction us with
  | nil =>
    intro st ops out hS hinst hinfos _ n hn
    obtain ⟨m, rfl⟩ : ∃ m, n = m + 1 := ⟨n - 1, by simp at hn; omega⟩
    -- no opcode is left, so no operation is
    obtain rfl : ops = [] := by
      simpa [encodeHalves_eq_nil] using hinfos.symm
    exact ⟨st, Loop.run_of_done m (windowBody_of_drop_eq_nil hinst), by rw [hS.output]; rfl⟩
  | cons u us ih =>
    intro st ops out hS hinst hinfos hdec n hn
    obtain ⟨m, rfl⟩ : ∃ m, n = m + 1 := ⟨n - 1, by simp at hn; omega⟩
    rw [unitBytes_cons] at hinst
    rw [List.flatMap_cons] at hinfos
    obtain ⟨st', done, rest, rfl, hbody, hinst', hinfos', hS'⟩ :=
      hS.unit hinst (hdec u List.mem_cons_self) hinfos
    obtain ⟨st'', hrun, hout⟩ := ih hS' hinst' hinfos' (fun v hv => hdec v (List.mem_cons_of_mem _ hv))
      m (by simp at hn; omega)
    exact ⟨st'', by rw [Loop.run_of_next m hbody, hrun], by rw [hout, List.foldl_append]⟩

end Decoder

/-- **A window of a program.**  `decode_window_with_cache`, over the sections
of a program's halves and of opcodes naming its instructions, with the whole
source as copy window and a new cache, appends the program's target; the
header's target length and checksum are those of the target. -/
theorem decodeWindowWithCache_encoded {header : WindowHeader} {us : List Emitted}
    {ops : List (Op UInt8)} {source : List UInt8} (verify : Bool) (output : List UInt8)
    (hcwl : header.copyWindowLen = source.length) (hcwo : header.copyWindowOffset = 0)
    (hinfos : us.flatMap Emitted.infos =
      (encodeHalves AddressCache.new source.length ops).map Half.info)
    (hdec : ∀ u ∈ us, u.Decodes) (hwf : WellFormed source.length 0 ops)
    (htotal : (ops.map Op.size).sum < 2 ^ 32) (hbound : source.length + (ops.map Op.size).sum < 2 ^ 64)
    (htgt : header.targetWindowLen = (ops.map Op.size).sum)
    (hck : ∀ c, header.adler32 = some c → c = adler32 (exec source ops)) :
    ∃ acache, decodeWindowWithCache header
        ((encodeHalves AddressCache.new source.length ops).flatMap Half.data) (unitBytes us)
        ((encodeHalves AddressCache.new source.length ops).flatMap Half.addr) source verify output
        AddressCache.new = .ok (output ++ exec source ops, acache) := by
  -- the loop starts with the whole program still to run
  have hS : SectionsAt (windowCtx header ((encodeHalves AddressCache.new source.length ops).flatMap Half.data)
      (unitBytes us) ((encodeHalves AddressCache.new source.length ops).flatMap Half.addr) source output)
      output (windowInit output AddressCache.new) ops [] := by
    refine ⟨hcwl, hcwo, rfl, ?_, ?_, rfl, (List.append_nil output).symm, rfl, ?_, htotal, ?_⟩
    · show _ = (encodeHalves AddressCache.new (header.copyWindowLen + 0) ops).flatMap Half.data
      rw [hcwl, Nat.add_zero]
      exact List.drop_zero
    · show _ = (encodeHalves AddressCache.new (header.copyWindowLen + 0) ops).flatMap Half.addr
      rw [hcwl, Nat.add_zero]
      exact List.drop_zero
    · show WellFormed header.copyWindowLen 0 ops
      rw [hcwl]
      exact hwf
    · show header.copyWindowLen + (0 + _) < _
      omega
  have hinfos' : us.flatMap Emitted.infos =
      (encodeHalves AddressCache.new (header.copyWindowLen + 0) ops).map Half.info := by
    rw [hcwl, Nat.add_zero, hinfos]
  obtain ⟨st, hrun, hout⟩ := hS.loop List.drop_zero hinfos' hdec
    ((unitBytes us).length + 1) (Nat.lt_succ_of_le (length_le_unitBytes us))
  change st.output = output ++ exec source ops at hout
  have hlen := exec_length source ops hwf
  refine ⟨st.acache, ?_⟩
  unfold decodeWindowWithCache
  dsimp only
  rw [hrun]
  -- the window wrote its target, with its checksum
  simp only [windowCtx, hout, List.length_append, Nat.add_sub_cancel_left, hlen, htgt, ne_eq,
    not_true_eq_false, if_false, List.drop_left]
  cases hc : header.adler32 with
  | none => rfl
  | some c => simp [hck c hc]; rfl

/-! ## The instruction iterator -/

/-- An instruction names an operation: the same kind, length and absolute
address.  A COPY's mode is the encoder's choice and not part of the
operation. -/
def Instruction.Matches : Instruction → Op UInt8 → Prop
  | .add len, .add data => len = data.length
  | .run len, .run len' _ => len = len'
  | .copy len addr _, .copy len' addr' => len = len' ∧ addr = addr'
  | _, _ => False

section Iterator

open InstructionIterator

/-- The iterator part way through a program: the address section still to
read holds the addresses of the remaining operations, encoded from the
iterator's own cache and position. -/
structure IterAt (it : InstructionIterator) (ops : List (Op UInt8)) : Prop where
  addr : it.addrData.drop it.addrPos =
    (encodeHalves it.acache (it.copyWindowLen + it.targetPos) ops).flatMap Half.addr
  modeCount : it.acache.modeCount = 9
  wf : WellFormed it.copyWindowLen it.targetPos ops
  total : (ops.map Op.size).sum < 2 ^ 32
  bound : it.copyWindowLen + (it.targetPos + (ops.map Op.size).sum) < 2 ^ 64

variable {it : InstructionIterator} {op : Op UInt8} {ops : List (Op UInt8)}

/-- Reading an opcode moves the instruction position and the held-back half
only. -/
theorem IterAt.setInst (hI : IterAt it ops) (k : Nat) (p : Option (UInt8 × UInt8)) :
    IterAt { it with instPos := k, pendingSecond := p } ops :=
  ⟨hI.addr, hI.modeCount, hI.wf, hI.total, hI.bound⟩

/-- **The iterator reads the next operation** of the window, given its size:
it yields an instruction naming it, and moves on as the encoder did. -/
theorem IterAt.half (hI : IterAt it (op :: ops)) {ts : UInt8} {instPos : Nat}
    (hres : resolveSize "size varint: " it.instData it.instPos ts = .ok (op.size, instPos)) :
    ∃ inst it', it.resolveHalf (encodeHalf it.acache (it.copyWindowLen + it.targetPos) op).info.itype ts =
        .ok (some inst, it') ∧ inst.Matches op ∧ IterAt it' ops ∧
      it'.instData = it.instData ∧ it'.instPos = instPos ∧ it'.pendingSecond = it.pendingSecond ∧
      it'.copyWindowLen = it.copyWindowLen ∧
      it'.acache = (encodeHalf it.acache (it.copyWindowLen + it.targetPos) op).cache ∧
      it'.targetPos = it.targetPos + op.size := by
  obtain ⟨hpos, hin, hwf⟩ := hI.wf
  have htotal := hI.total
  have hbound := hI.bound
  simp only [List.map_cons, List.sum_cons] at htotal hbound
  have haddr := hI.addr
  simp only [encodeHalves, List.flatMap_cons] at haddr
  -- the rest of the program, from the position after this operation
  have hnext : IterAt { it with
      instPos := instPos
      addrPos := it.addrPos + (encodeHalf it.acache (it.copyWindowLen + it.targetPos) op).addr.length
      acache := (encodeHalf it.acache (it.copyWindowLen + it.targetPos) op).cache
      targetPos := it.targetPos + op.size } ops := by
    refine ⟨?_, by simp [encodeHalf_modeCount, hI.modeCount], hwf, by omega, by dsimp only; omega⟩
    dsimp only
    rw [drop_add_of_drop_eq haddr, Nat.add_assoc]
  suffices h : ∃ inst, it.resolveHalf (encodeHalf it.acache (it.copyWindowLen + it.targetPos) op).info.itype ts =
      .ok (some inst, { it with
        instPos := instPos
        addrPos := it.addrPos + (encodeHalf it.acache (it.copyWindowLen + it.targetPos) op).addr.length
        acache := (encodeHalf it.acache (it.copyWindowLen + it.targetPos) op).cache
        targetPos := it.targetPos + op.size }) ∧ inst.Matches op by
    obtain ⟨inst, hhalf, hm⟩ := h
    exact ⟨inst, _, hhalf, hm, hnext, rfl, rfl, rfl, rfl, rfl, rfl⟩
  clear hnext
  cases op with
  | add data =>
    simp only [Op.size] at hres htotal hbound
    refine ⟨.add data.length, ?_, rfl⟩
    simpa [encodeHalf, Op.size] using resolveHalf_add hres (by omega)
  | run len b =>
    simp only [Op.size] at hres htotal hbound
    refine ⟨.run len, ?_, rfl⟩
    simpa [encodeHalf, Op.size] using resolveHalf_run hres (by omega)
  | copy len addr =>
    simp only [Op.size] at hres htotal hbound
    have hhere : it.copyWindowLen + it.targetPos < 2 ^ 64 := by omega
    simp only [encodeHalf] at haddr ⊢
    obtain ⟨⟨hnoop, hrun, hadd⟩, hle, hdec, -⟩ := copyHalf_reads hI.modeCount hin.1 hhere haddr
    refine ⟨.copy len addr (it.acache.encode addr (it.copyWindowLen + it.targetPos)).1, ?_, rfl, rfl⟩
    rw [← EncodedAddr.len_eq_length]
    exact resolveHalf_copyOk hres hnoop hrun hadd hhere hle hdec (by omega)

/-- **One opcode.**  Where the instruction section holds the bytes of an
opcode naming the next instructions, `collect` takes one instruction per
half of it, each naming its operation. -/
theorem IterAt.unit (hI : IterAt it ops) (hpend : it.pendingSecond = none) {u : Emitted}
    {us : List Emitted} (hinst : it.instData.drop it.instPos = u.bytes ++ unitBytes us)
    (hdec : u.Decodes)
    (hinfos : u.infos ++ us.flatMap Emitted.infos =
      (encodeHalves it.acache (it.copyWindowLen + it.targetPos) ops).map Half.info) :
    ∃ it' done rest insts, ops = done ++ rest ∧ List.Forall₂ Instruction.Matches insts done ∧
      insts.length = u.infos.length ∧
      (∀ acc n, Loop.run collectBody (n + insts.length) (it, acc) =
        Loop.run collectBody n (it', acc ++ insts)) ∧
      it'.pendingSecond = none ∧ it'.instData.drop it'.instPos = unitBytes us ∧
      us.flatMap Emitted.infos =
        (encodeHalves it'.acache (it'.copyWindowLen + it'.targetPos) rest).map Half.info ∧
      IterAt it' rest := by
  have htotal := hI.total
  cases u with
  | single code info =>
    rw [Emitted.bytes, List.cons_append] at hinst
    have hget := getElem?_of_drop_eq_cons hinst
    have hinst' := drop_succ_of_drop_eq_cons hinst
    obtain _ | ⟨op, ops⟩ := ops
    · simp [encodeHalves, Emitted.infos] at hinfos
    simp only [Emitted.infos, encodeHalves, List.map_cons, List.singleton_append,
      List.cons.injEq] at hinfos
    obtain ⟨rfl, hrest⟩ := hinfos
    obtain ⟨htype, hsize⟩ := encodeHalf_info_of_wellFormed hI.modeCount hI.wf hI.total hI.bound
    simp only [List.map_cons, List.sum_cons] at htotal
    obtain ⟨instPos, hres, hinstPos⟩ := resolveSize_single "size varint: " hdec
      (by rw [hsize]; omega) hinst'
    rw [hsize] at hres
    obtain ⟨inst, it', hhalf, hm, hI', hd, hi, hp, hw, hc, htp⟩ :=
      (hI.setInst (it.instPos + 1) it.pendingSecond).half hres
    dsimp only at hhalf hd hi hp hw hc htp
    rw [← hdec.1] at hhalf
    have hnext := next_of_nextBody (nextBody_single hpend hget hdec.2.1 hhalf)
    refine ⟨it', [op], ops, [inst], rfl, .cons hm .nil, rfl, fun acc n => ?_, by rw [hp, hpend],
      by rw [hd, hi]; exact hinstPos, by rw [hrest, hc, hw, htp, Nat.add_assoc], hI'⟩
    exact Loop.run_of_next n (collectBody_some hnext)
  | double code first second =>
    rw [Emitted.bytes, List.cons_append, List.nil_append] at hinst
    have hget := getElem?_of_drop_eq_cons hinst
    have hinst' := drop_succ_of_drop_eq_cons hinst
    obtain _ | ⟨op₁, _ | ⟨op₂, ops⟩⟩ := ops
    · simp [encodeHalves, Emitted.infos] at hinfos
    · simp [encodeHalves, Emitted.infos] at hinfos
    simp only [Emitted.infos, encodeHalves, List.map_cons, List.cons_append, List.nil_append,
      List.cons.injEq] at hinfos
    obtain ⟨rfl, rfl, hrest⟩ := hinfos
    obtain ⟨htype₁, hsize₁⟩ := encodeHalf_info_of_wellFormed hI.modeCount hI.wf hI.total hI.bound
    obtain ⟨hpos₁, -, hpos₂, -⟩ := hI.wf
    simp only [List.map_cons, List.sum_cons] at htotal
    have hsize₂ := @encodeHalf_size (encodeHalf it.acache (it.copyWindowLen + it.targetPos) op₁).cache
      (it.copyWindowLen + it.targetPos + op₁.size) op₂ (by omega)
    obtain ⟨hres₁, hres₂⟩ := resolveSize_double "size varint: " it.instData
      (it.instPos + 1) hdec (by rw [hsize₁]; exact hpos₁) (by rw [hsize₂]; exact hpos₂)
    rw [hsize₁] at hres₁
    rw [hsize₂] at hres₂
    -- the first half is returned with the second held back
    obtain ⟨inst₁, it₁, hhalf₁, hm₁, hI₁, hd₁, hi₁, hp₁, hw₁, hc₁, htp₁⟩ :=
      (hI.setInst (it.instPos + 1) (some ((codeEntry code).type2, (codeEntry code).size2))).half hres₁
    dsimp only at hhalf₁ hd₁ hi₁ hp₁ hw₁ hc₁ htp₁
    rw [← hdec.1] at hhalf₁
    have hsecond : encodeHalf it₁.acache (it₁.copyWindowLen + it₁.targetPos) op₂ =
        encodeHalf (encodeHalf it.acache (it.copyWindowLen + it.targetPos) op₁).cache
          (it.copyWindowLen + it.targetPos + op₁.size) op₂ := by
      rw [hc₁, hw₁, htp₁, Nat.add_assoc]
    have htype₂ := (encodeHalf_info_of_wellFormed hI₁.modeCount hI₁.wf hI₁.total hI₁.bound).1
    rw [hsecond] at htype₂
    have hnext₁ := next_of_nextBody (nextBody_double hpend hget
      (hdec.2.2.1 ▸ itype_ne_noop htype₂) hhalf₁)
    -- then the second, from the next call
    rw [← hd₁, ← hi₁] at hres₂
    obtain ⟨inst₂, it₂, hhalf₂, hm₂, hI₂, hd₂, hi₂, hp₂, hw₂, hc₂, htp₂⟩ :=
      (hI₁.setInst it₁.instPos none).half hres₂
    dsimp only at hhalf₂ hd₂ hi₂ hp₂ hw₂ hc₂ htp₂
    rw [hsecond, ← hdec.2.2.1] at hhalf₂
    have hnext₂ := next_of_nextBody (nextBody_pending hp₁ hhalf₂)
    refine ⟨it₂, [op₁, op₂], ops, [inst₁, inst₂], rfl, .cons hm₁ (.cons hm₂ .nil), rfl,
      fun acc n => ?_, hp₂, by rw [hd₂, hi₂, hd₁, hi₁]; exact hinst', ?_, hI₂⟩
    · rw [show n + [inst₁, inst₂].length = n + 1 + 1 from rfl, Loop.run_of_next _ (collectBody_some hnext₁),
        Loop.run_of_next _ (collectBody_some hnext₂), List.append_assoc]
      rfl
    · rw [hrest, hc₂, hsecond, hw₂, htp₂, hw₁, htp₁]
      simp only [Nat.add_assoc]

/-- **The iterator's loop.**  From an iterator with no half held back, where
the instruction section still holds the opcodes naming the remaining
operations, `collect` stops within one iteration per instruction, having
yielded one instruction naming each operation. -/
theorem IterAt.loop {us : List Emitted} :
    ∀ {it : InstructionIterator} {ops : List (Op UInt8)}, IterAt it ops → it.pendingSecond = none →
      it.instData.drop it.instPos = unitBytes us →
      us.flatMap Emitted.infos =
        (encodeHalves it.acache (it.copyWindowLen + it.targetPos) ops).map Half.info →
      (∀ u ∈ us, u.Decodes) → ∀ acc n, (us.flatMap Emitted.infos).length < n →
      ∃ insts, Loop.run collectBody n (it, acc) = some (.ok (acc ++ insts)) ∧
        List.Forall₂ Instruction.Matches insts ops := by
  induction us with
  | nil =>
    intro it ops hI hpend hinst hinfos _ acc n hn
    obtain ⟨m, rfl⟩ : ∃ m, n = m + 1 := ⟨n - 1, by simp at hn; omega⟩
    obtain rfl : ops = [] := by
      simpa [encodeHalves_eq_nil] using hinfos.symm
    have hend := next_of_nextBody (nextBody_end hpend (List.drop_eq_nil_iff.1 hinst))
    exact ⟨[], by rw [List.append_nil]; exact Loop.run_of_done m (collectBody_none hend), .nil⟩
  | cons u us ih =>
    intro it ops hI hpend hinst hinfos hdec acc n hn
    rw [unitBytes_cons] at hinst
    rw [List.flatMap_cons] at hinfos hn
    obtain ⟨it', done, rest, insts, rfl, hm, hlen, hrun, hpend', hinst', hinfos', hI'⟩ :=
      hI.unit hpend hinst (hdec u List.mem_cons_self) hinfos
    rw [List.length_append, ← hlen] at hn
    obtain ⟨m, rfl⟩ : ∃ m, n = m + insts.length := ⟨n - insts.length, by omega⟩
    obtain ⟨insts', hrun', hm'⟩ := ih hI' hpend' hinst' hinfos'
      (fun v hv => hdec v (List.mem_cons_of_mem _ hv)) (acc ++ insts) m (by omega)
    exact ⟨insts ++ insts', by rw [hrun acc m, hrun', List.append_assoc], List.rel_append hm hm'⟩

/-- **The iterator over a program's sections.**  A new iterator over the
instruction section of the opcodes naming a program's instructions and the
address section of its halves yields one instruction naming each operation. -/
theorem collect_encoded {us : List Emitted} {ops : List (Op UInt8)} {cwl : Nat}
    (hinfos : us.flatMap Emitted.infos = (encodeHalves AddressCache.new cwl ops).map Half.info)
    (hdec : ∀ u ∈ us, u.Decodes) (hwf : WellFormed cwl 0 ops) (htotal : (ops.map Op.size).sum < 2 ^ 32)
    (hbound : cwl + (ops.map Op.size).sum < 2 ^ 64) :
    ∃ insts, (InstructionIterator.new (unitBytes us)
        ((encodeHalves AddressCache.new cwl ops).flatMap Half.addr) cwl).collect = .ok insts ∧
      List.Forall₂ Instruction.Matches insts ops := by
  have hI : IterAt (InstructionIterator.new (unitBytes us)
      ((encodeHalves AddressCache.new cwl ops).flatMap Half.addr) cwl) ops :=
    ⟨rfl, rfl, hwf, htotal, by simpa [InstructionIterator.new] using hbound⟩
  -- at most two instructions per opcode, and an opcode per byte
  have hlen : (us.flatMap Emitted.infos).length < 2 * (unitBytes us).length + 2 := by
    have := length_flatMap_infos_le us
    have := length_le_unitBytes us
    omega
  obtain ⟨insts, hrun, hm⟩ := hI.loop rfl rfl hinfos hdec [] _ hlen
  refine ⟨insts, ?_, hm⟩
  rw [collect]
  dsimp only [InstructionIterator.new] at hrun ⊢
  rw [hrun, List.nil_append]

end Iterator

/-! ## The stream -/

/-- **A delta of one window.**  `decode_memory` of the file header a new
stream encoder writes, followed by one window without secondary compression,
returns what `decode_window_with_cache` builds on an empty output. -/
theorem decodeMemory_oneWindow (cs : Compress.Codecs) (source : List UInt8) {w : WindowHeader}
    {data inst addr output : List UInt8} {acache : AddressCache} (hw : w.Valid)
    (htgt : w.winInd &&& vcdTarget = 0) (hdata : w.dataLen = data.length)
    (hinst : w.instLen = inst.length) (haddr : w.addrLen = addr.length) (hdel : w.delInd = 0)
    (hwin : decodeWindowWithCache w data inst addr source true [] AddressCache.new =
      .ok (output, acache)) :
    decodeMemory cs (FileHeader.default.encode ++ (w.encode ++ data ++ inst ++ addr)) source =
      .ok output := by
  -- the first call reads the file header and the window
  have hwh : WindowHeader.decode (w.encode ++ data ++ inst ++ addr) =
      .ok (some w, data ++ inst ++ addr ++ []) := by
    rw [List.append_nil, List.append_assoc, List.append_assoc]
    simpa only [List.append_assoc] using WindowHeader.decode_encode w hw (data ++ inst ++ addr)
  have hfirst := (StreamDecoder.decodeWindow_first cs source
      (d := StreamDecoder.new (FileHeader.default.encode ++ (w.encode ++ data ++ inst ++ addr)) true) []
      rfl (FileHeader.decode_encode _ FileHeader.default_valid _)).trans
    (StreamDecoder.decodeWindow_window cs source rfl hwh htgt hdata hinst haddr hdel hwin)
  dsimp only at hfirst
  -- the second finds the end of the input
  have hend := StreamDecoder.decodeWindow_end cs source (d := { StreamDecoder.new
      (FileHeader.default.encode ++ (w.encode ++ data ++ inst ++ addr)) true with
        reader := [], secondaryId := FileHeader.default.secondaryId,
        fileHeader := some FileHeader.default, acache := acache })
    output rfl rfl
  have hstep₁ : decodeAllBody cs source
      (StreamDecoder.new (FileHeader.default.encode ++ (w.encode ++ data ++ inst ++ addr)) true, []) =
      .next ({ StreamDecoder.new (FileHeader.default.encode ++ (w.encode ++ data ++ inst ++ addr)) true with
        reader := [], secondaryId := FileHeader.default.secondaryId,
        fileHeader := some FileHeader.default, acache := acache }, output) := by
    simp only [decodeAllBody, hfirst]
  have hstep₂ : decodeAllBody cs source ({ StreamDecoder.new
      (FileHeader.default.encode ++ (w.encode ++ data ++ inst ++ addr)) true with
        reader := [], secondaryId := FileHeader.default.secondaryId,
        fileHeader := some FileHeader.default, acache := acache }, output) =
      .done (.ok ({ StreamDecoder.new
      (FileHeader.default.encode ++ (w.encode ++ data ++ inst ++ addr)) true with
        reader := [], secondaryId := FileHeader.default.secondaryId,
        fileHeader := some FileHeader.default, acache := acache }, output)) := by
    simp only [decodeAllBody, hend]
  rw [decodeMemory, StreamDecoder.decodeAll, Loop.run_of_next _ hstep₁, Loop.run_of_done _ hstep₂]

/-- The copy window the decoder's round-trip tests declare: the whole source,
when there is one. -/
def sourceWindowOf (source : List UInt8) : Option SourceWindow :=
  if source.isEmpty then none else some ⟨source.length, 0⟩

/-- A program fed to a new window encoder that emits checksums. -/
def programWindow (source : List UInt8) (ops : List (Op UInt8)) : WindowEncoder :=
  (WindowEncoder.new (sourceWindowOf source) true).feedAll ops

/-- The delta of a program: its window, with the checksum of the target the
program builds, written through a new stream encoder. -/
def programDelta (source : List UInt8) (ops : List (Op UInt8)) : Result IoError (List UInt8) := do
  let enc ← (StreamEncoder.new true).writeWindow (programWindow source ops) (some (exec source ops))
  pure enc.finish

theorem sourceWindowOf_len (source : List UInt8) :
    ((sourceWindowOf source).map (·.len)).getD 0 = source.length := by
  unfold sourceWindowOf
  split
  · next h => simp [List.isEmpty_iff.1 h]
  · rfl

theorem sourceWindowOf_offset (source : List UInt8) :
    ((sourceWindowOf source).map (·.offset)).getD 0 = 0 := by
  unfold sourceWindowOf
  split <;> rfl

/-- The delta of a program is the file header, then the window `assemble`
writes. -/
theorem programDelta_eq {source : List UInt8} {ops : List (Op UInt8)} {s : WindowSections}
    (hs : (programWindow source ops).finishSections (some (exec source ops)) = s)
    (h : (s.header 0).encLenSum < 2 ^ 64) :
    programDelta source ops = .ok (FileHeader.default.encode ++
      ((s.assembledHeader 0).encode ++ s.dataSection ++ s.instSection ++ s.addrSection)) := by
  simp [programDelta, StreamEncoder.writeWindow, WindowEncoder.finish, hs,
    WindowSections.assemble_eq _ _ h, StreamEncoder.writeHeader, StreamEncoder.new, StreamEncoder.finish]

/-- **The window round trip.**  A well-formed program against any source,
of a target within the hard window limit, fed to a window encoder and
written with the checksum of its target, is read back by the instruction
iterator as its own instructions, and decoded by `decode_memory` into the
target it builds. -/
theorem window_roundtrip (cs : Compress.Codecs) (source : List UInt8) (ops : List (Op UInt8))
    (hwf : WellFormed source.length 0 ops) (hmax : (ops.map Op.size).sum ≤ hardMaxWinsize)
    (hsrc : source.length < 2 ^ 63) :
    (∃ insts, (InstructionIterator.new
        ((programWindow source ops).finishSections (some (exec source ops))).instSection
        ((programWindow source ops).finishSections (some (exec source ops))).addrSection
        source.length).collect = .ok insts ∧ List.Forall₂ Instruction.Matches insts ops) ∧
    ∃ delta, programDelta source ops = .ok delta ∧ decodeMemory cs delta source = .ok (exec source ops) := by
  have hmax' : (ops.map Op.size).sum ≤ 2 ^ 24 := hmax
  have htotal : (ops.map Op.size).sum < 2 ^ 32 := by omega
  have hbound : source.length + (ops.map Op.size).sum < 2 ^ 64 := by omega
  have hsec := WindowEncoder.finishSections_feedAll (sourceWindowOf source) true ops hwf.size_pos
    (some (exec source ops))
  rw [sourceWindowOf_len] at hsec
  -- the instructions of the program, and the opcodes naming them
  have hvalid := encodeHalves_info_valid (rfl : AddressCache.new.modeCount = 9) hwf htotal (by omega)
  rw [Nat.add_zero] at hvalid
  have hinfos := packUnits_infos ((encodeHalves AddressCache.new source.length ops).map Half.info) none
  rw [pendingInfos, List.nil_append] at hinfos
  have hdec := packUnits_decodes _ (fun i hi => ⟨(hvalid i hi).1, (hvalid i hi).2.1⟩) none
    (fun _ h => by cases h)
  refine ⟨?_, ?_⟩
  · rw [programWindow, hsec]
    exact collect_encoded hinfos hdec hwf htotal hbound
  -- the sections are small enough for the header's `u64` fields
  have hdata := flatMap_data_length_le (rfl : AddressCache.new.modeCount = 9) hwf htotal (by omega)
  have haddr := flatMap_addr_length_le (rfl : AddressCache.new.modeCount = 9) hwf htotal (by omega)
  rw [Nat.add_zero] at hdata haddr
  have hinst := unitBytes_length_le (packUnits none ((encodeHalves AddressCache.new source.length ops).map Half.info))
    (fun u hu i hi => (hvalid i (hinfos ▸ List.mem_flatMap.2 ⟨u, hu, hi⟩)).2.2)
  rw [hinfos, List.length_map, ← List.length_map Half.op, encodeHalves_map_op] at hinst
  have hlen : ops.length ≤ (ops.map Op.size).sum := by
    have := List.length_le_sum_of_one_le (ops.map Op.size) fun n hn => by
      obtain ⟨op, hop, rfl⟩ := List.mem_map.1 hn
      exact hwf.size_pos op hop
    rwa [List.length_map] at this
  -- the window the stream encoder writes, field by field
  obtain ⟨S, hS⟩ : ∃ S, (programWindow source ops).finishSections (some (exec source ops)) = S :=
    ⟨_, rfl⟩
  obtain ⟨hSw, hSt, hSc, hSd, hSi, hSa⟩ : S.sourceWindow = sourceWindowOf source ∧
      S.targetLen = (ops.map Op.size).sum ∧ S.checksum = some (adler32 (exec source ops)) ∧
      S.dataSection = (encodeHalves AddressCache.new source.length ops).flatMap Half.data ∧
      S.instSection = unitBytes (packUnits none ((encodeHalves AddressCache.new source.length ops).map Half.info)) ∧
      S.addrSection = (encodeHalves AddressCache.new source.length ops).flatMap Half.addr := by
    rw [← hS, programWindow, hsec]
    simp
  have hsum : (S.header 0).encLenSum < 2 ^ 64 := by
    have h1 := sizeofU64_le S.targetLen
    have h2 := sizeofU64_le S.dataSection.length
    have h3 := sizeofU64_le S.instSection.length
    have h4 := sizeofU64_le S.addrSection.length
    have e2 := congrArg List.length hSd
    have e3 := congrArg List.length hSi
    have e4 := congrArg List.length hSa
    have h5 : (if (S.header 0).hasChecksum then 4 else 0) ≤ 4 := by split <;> omega
    simp only [WindowHeader.encLenSum, WindowSections.header] at h5 ⊢
    omega
  -- the header the decoder reads back, over the whole source
  have hheader := WindowSections.assembledHeader_valid S 0 (by decide) (by rw [hSt]; exact hmax)
    (fun c hc => by rw [hSc] at hc; cases hc; exact adler32_lt _)
    (fun sw hsw => by
      rw [hSw] at hsw
      unfold sourceWindowOf at hsw
      split at hsw
      · cases hsw
      · cases hsw
        exact ⟨show source.length < 2 ^ 64 by omega, show 0 < 2 ^ 64 by decide⟩)
    hsum
  have hcwl : (S.assembledHeader 0).copyWindowLen = source.length := by
    show ((S.sourceWindow.map (·.len)).getD 0) = _
    rw [hSw, sourceWindowOf_len]
  have hcwo : (S.assembledHeader 0).copyWindowOffset = 0 := by
    show ((S.sourceWindow.map (·.offset)).getD 0) = _
    rw [hSw, sourceWindowOf_offset]
  obtain ⟨acache, hwin⟩ := decodeWindowWithCache_encoded true [] hcwl hcwo hinfos hdec hwf htotal hbound
    hSt (fun c hc => (Option.some.inj (hSc.symm.trans hc)).symm)
  rw [List.nil_append, ← hSd, ← hSi, ← hSa] at hwin
  exact ⟨_, programDelta_eq hS hsum, decodeMemory_oneWindow cs source hheader
    (WindowSections.header_winInd S 0).2.2.1 rfl rfl rfl rfl hwin⟩

/-- A source COPY, an ADD, and a target COPY that reads the bytes it writes,
decoded by codecs that are never called. -/
theorem window_roundtrip_mixed :
    let ops : List (Op UInt8) := [.copy 2 1, .add [9], .copy 3 3]
    WellFormed [1, 2, 3].length 0 ops ∧ (ops.map Op.size).sum ≤ hardMaxWinsize ∧
      [1, 2, 3].length < 2 ^ 63 ∧
      ∃ delta, programDelta [1, 2, 3] ops = .ok delta ∧
        decodeMemory ⟨.ok, .ok, fun _ => .ok, .ok⟩ delta [1, 2, 3] = .ok [2, 3, 9, 2, 3, 9] := by
  intro ops
  have hwf : WellFormed [1, 2, 3].length 0 ops := by
    simp [ops, WellFormed, Op.InBounds, Op.size]
  have hmax : (ops.map Op.size).sum ≤ hardMaxWinsize := by
    simp [ops, Op.size, hardMaxWinsize]
  have hsrc : [1, 2, 3].length < 2 ^ 63 := by decide
  have hexec : exec [1, 2, 3] ops = [2, 3, 9, 2, 3, 9] := by decide
  refine ⟨hwf, hmax, hsrc, ?_⟩
  rw [← hexec]
  exact (window_roundtrip ⟨.ok, .ok, fun _ => .ok, .ok⟩ [1, 2, 3] ops hwf hmax hsrc).2

end Oxidelta.Vcdiff
