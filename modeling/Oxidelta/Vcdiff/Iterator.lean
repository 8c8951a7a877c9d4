import Oxidelta.Vcdiff.Decoder

/-!
# The instruction iterator (`InstructionIterator` of `vcdiff/decoder.rs`)

The iterator walks a window's instruction and address sections as the
decoder's loop does, without the data section or the output: it yields one
`Instruction` per half-instruction, holding the second half of a double
opcode back for the next call.  It keeps its own address cache and
`target_pos`.  A `NOOP` half makes `next` call itself; the model runs those
calls as a loop under a bound the calls cannot exceed.

`collect` is `iter.collect::<Result<Vec<_>, _>>()`: the instructions up to
the end of the section, or the first error.
-/

namespace Oxidelta.Vcdiff

open Rust

/-- `InstructionIterator`. -/
structure InstructionIterator where
  instData : List UInt8
  addrData : List UInt8
  instPos : Nat
  addrPos : Nat
  acache : AddressCache
  copyWindowLen : Nat
  targetPos : Nat
  pendingSecond : Option (UInt8 × UInt8)

namespace InstructionIterator

/-- `InstructionIterator::new`. -/
def new (instSection addrSection : List UInt8) (copyWindowLen : Nat) : InstructionIterator :=
  ⟨instSection, addrSection, 0, 0, AddressCache.new, copyWindowLen, 0, none⟩

/-- `resolve_half`: `none` for a `NOOP`, else the instruction with its size
and, for a COPY, its decoded address. -/
def resolveHalf (it : InstructionIterator) (itype tableSize : UInt8) :
    Result DecodeError (Option Instruction × InstructionIterator) :=
  if itype = xd3Noop then pure (none, it)
  else do
    let (size, instPos) ← resolveSize "size varint: " it.instData it.instPos tableSize
    let it := { it with instPos }
    let (inst, it) ←
      if itype = xd3Run then pure (Instruction.run size, it)
      else if itype = xd3Add then pure (Instruction.add size, it)
      else do
        let mode := itype - xd3Cpy
        let here ← addChecked 64 it.copyWindowLen it.targetPos
        let addrData ← sliceFrom it.addrData it.addrPos
        let (addr, consumed, acache) ←
          mapErr (fun e => DecodeError.invalidInput ("address: " ++ e.display))
            (it.acache.decode mode addrData here)
        pure (Instruction.copy size addr mode, { it with addrPos := it.addrPos + consumed, acache })
    let targetPos ← addChecked 64 it.targetPos size
    pure (some inst, { it with targetPos })

/-- One pass of `next`: the buffered second half if there is one, else the
next opcode, whose second half is buffered; `.next` where a `NOOP` half makes
`next` call itself. -/
def nextBody (it : InstructionIterator) :
    Loop.Step InstructionIterator (Result DecodeError (Option Instruction × InstructionIterator)) :=
  let attempt (it : InstructionIterator) (itype tableSize : UInt8) :
      Loop.Step InstructionIterator (Result DecodeError (Option Instruction × InstructionIterator)) :=
    match it.resolveHalf itype tableSize with
    | .ok (some inst, it) => .done (.ok (some inst, it))
    | .ok (none, it) => .next it
    | .error e => .done (.error e)
  match it.pendingSecond with
  | some (type2, size2) => attempt { it with pendingSecond := none } type2 size2
  | none =>
    if h : it.instPos < it.instData.length then
      let opcode := it.instData[it.instPos]
      let it := { it with instPos := it.instPos + 1 }
      let entry := codeEntry opcode
      let it := if entry.type2 ≠ xd3Noop then { it with pendingSecond := some (entry.type2, entry.size2) }
        else it
      attempt it entry.type1 entry.size1
    else .done (.ok (none, it))

/-- `Iterator::next`: `none` at the end of the instruction section. -/
def next (it : InstructionIterator) : Result DecodeError (Option Instruction × InstructionIterator) :=
  match Loop.run nextBody (2 * it.instData.length + 2) it with
  | some r => r
  | none => .error .diverge

/-- One item of `collect`. -/
def collectBody (s : InstructionIterator × List Instruction) :
    Loop.Step (InstructionIterator × List Instruction) (Result DecodeError (List Instruction)) :=
  match s.1.next with
  | .ok (some inst, it) => .next (it, s.2 ++ [inst])
  | .ok (none, _) => .done (.ok s.2)
  | .error e => .done (.error e)

/-- `collect::<Result<Vec<_>, _>>()`. -/
def collect (it : InstructionIterator) : Result DecodeError (List Instruction) :=
  match Loop.run collectBody (2 * it.instData.length + 2) (it, []) with
  | some r => r
  | none => .error .diverge

/-! ## Running the iterator forwards -/

theorem resolveHalf_run {it : InstructionIterator} {tableSize : UInt8} {size instPos : Nat}
    (hres : resolveSize "size varint: " it.instData it.instPos tableSize = .ok (size, instPos))
    (htp : it.targetPos + size < 2 ^ 64) :
    it.resolveHalf xd3Run tableSize =
      .ok (some (.run size), { it with instPos, targetPos := it.targetPos + size }) := by
  simp [resolveHalf, hres, addChecked_of_lt htp, xd3Run, xd3Noop]

theorem resolveHalf_add {it : InstructionIterator} {tableSize : UInt8} {size instPos : Nat}
    (hres : resolveSize "size varint: " it.instData it.instPos tableSize = .ok (size, instPos))
    (htp : it.targetPos + size < 2 ^ 64) :
    it.resolveHalf xd3Add tableSize =
      .ok (some (.add size), { it with instPos, targetPos := it.targetPos + size }) := by
  simp [resolveHalf, hres, addChecked_of_lt htp, xd3Add, xd3Run, xd3Noop]

/-- A COPY whose address the iterator's cache decodes. -/
theorem resolveHalf_copyOk {it : InstructionIterator} {tableSize mode : UInt8}
    {size instPos addr consumed : Nat} {acache : AddressCache}
    (hres : resolveSize "size varint: " it.instData it.instPos tableSize = .ok (size, instPos))
    (hnoop : xd3Cpy + mode ≠ xd3Noop) (hrun : xd3Cpy + mode ≠ xd3Run) (hadd : xd3Cpy + mode ≠ xd3Add)
    (hhere : it.copyWindowLen + it.targetPos < 2 ^ 64) (hpos : it.addrPos ≤ it.addrData.length)
    (hdec : it.acache.decode mode (it.addrData.drop it.addrPos) (it.copyWindowLen + it.targetPos) =
      .ok (addr, consumed, acache))
    (htp : it.targetPos + size < 2 ^ 64) :
    it.resolveHalf (xd3Cpy + mode) tableSize =
      .ok (some (.copy size addr mode),
        { it with instPos, addrPos := it.addrPos + consumed, acache, targetPos := it.targetPos + size }) := by
  have hmode : xd3Cpy + mode - xd3Cpy = mode := by grind
  simp [resolveHalf, hres, hnoop, hrun, hadd, hmode, addChecked_of_lt hhere, sliceFrom_of_le hpos,
    hdec, addChecked_of_lt htp]

/-- A single opcode: its one half is the instruction `next` returns. -/
theorem nextBody_single {it it' : InstructionIterator} {code : UInt8} {inst : Instruction}
    (hpend : it.pendingSecond = none) (hget : it.instData[it.instPos]? = some code)
    (h2 : (codeEntry code).type2 = xd3Noop)
    (hres : { it with instPos := it.instPos + 1 }.resolveHalf (codeEntry code).type1
      (codeEntry code).size1 = .ok (some inst, it')) :
    it.nextBody = .done (.ok (some inst, it')) := by
  obtain ⟨hlt, rfl⟩ := List.getElem?_eq_some_iff.1 hget
  simp only [hpend] at hres
  simp [nextBody, hpend, hlt, h2, hres]

/-- A double opcode: its first half is returned, its second held back. -/
theorem nextBody_double {it it' : InstructionIterator} {code : UInt8} {inst : Instruction}
    (hpend : it.pendingSecond = none) (hget : it.instData[it.instPos]? = some code)
    (h2 : (codeEntry code).type2 ≠ xd3Noop)
    (hres : { it with
        instPos := it.instPos + 1
        pendingSecond := some ((codeEntry code).type2, (codeEntry code).size2) }.resolveHalf
      (codeEntry code).type1 (codeEntry code).size1 = .ok (some inst, it')) :
    it.nextBody = .done (.ok (some inst, it')) := by
  obtain ⟨hlt, rfl⟩ := List.getElem?_eq_some_iff.1 hget
  simp [nextBody, hpend, hlt, h2, hres]

/-- The half held back is returned by the next call. -/
theorem nextBody_pending {it it' : InstructionIterator} {itype tableSize : UInt8} {inst : Instruction}
    (hpend : it.pendingSecond = some (itype, tableSize))
    (hres : { it with pendingSecond := none }.resolveHalf itype tableSize = .ok (some inst, it')) :
    it.nextBody = .done (.ok (some inst, it')) := by
  simp [nextBody, hpend, hres]

theorem nextBody_end {it : InstructionIterator} (hpend : it.pendingSecond = none)
    (hend : it.instData.length ≤ it.instPos) :
    it.nextBody = .done (.ok (none, it)) := by
  simp [nextBody, hpend, Nat.not_lt.2 hend]

/-- A pass that returns is what `next` returns. -/
theorem next_of_nextBody {it : InstructionIterator}
    {r : Result DecodeError (Option Instruction × InstructionIterator)} (h : it.nextBody = .done r) :
    it.next = r := by
  simp [next, Loop.run_of_done (2 * it.instData.length + 1) h]

theorem collectBody_some {it it' : InstructionIterator} {acc : List Instruction} {inst : Instruction}
    (h : it.next = .ok (some inst, it')) : collectBody (it, acc) = .next (it', acc ++ [inst]) := by
  simp [collectBody, h]

theorem collectBody_none {it it' : InstructionIterator} {acc : List Instruction}
    (h : it.next = .ok (none, it')) : collectBody (it, acc) = .done (.ok acc) := by
  simp [collectBody, h]

end InstructionIterator

end Oxidelta.Vcdiff
