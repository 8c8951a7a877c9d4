import Oxidelta.Lib.CopyProgram
import Oxidelta.Lib.Segments
import Oxidelta.Vcdiff.CodeTable

/-!
# What an instruction list means

The match engine describes a target window by a list of `Instruction`s laid
end to end over it.  An ADD or a RUN carries only its length: the encoder
reads an ADD's bytes, and a RUN's byte, from the target where the instruction
starts (`emit_instructions`).  A COPY reads from the source when its address
is below the source's length, and otherwise from earlier in the target.

The property every producer of such a list must keep, and every pass over it
must preserve, is that the list is a tiling of the target (`Segments.Tiles`)
in which each instruction reproduces its slice:

* `Instruction.Reproduces` — one instruction at one position;
* `Covers`, `Valid` — a list, over a range and over the whole target;
* `toOps` — the copy program the list stands for;
* `validFrom_toOps`, `exec_toOps` — a valid list, executed against the source,
  rebuilds the target.
-/

namespace Oxidelta.Vcdiff

open CopyProgram Segments

/-- `inst_len` (`compress/pipeline.rs`): the number of target bytes an
instruction stands for. -/
def instLen : Instruction → Nat
  | .add len | .copy len _ _ | .run len => len

@[simp] theorem instLen_add (len : Nat) : instLen (.add len) = len := rfl
@[simp] theorem instLen_copy (len addr : Nat) (mode : UInt8) : instLen (.copy len addr mode) = len :=
  rfl
@[simp] theorem instLen_run (len : Nat) : instLen (.run len) = len := rfl

/-- The instruction is an ADD. -/
def Instruction.isAdd : Instruction → Bool
  | .add _ => true
  | _ => false

@[simp] theorem isAdd_add (len : Nat) : (Instruction.add len).isAdd = true := rfl
@[simp] theorem isAdd_copy (len addr : Nat) (mode : UInt8) :
    (Instruction.copy len addr mode).isAdd = false := rfl
@[simp] theorem isAdd_run (len : Nat) : (Instruction.run len).isAdd = false := rfl

/-- The instruction starting at position `p` of the target reproduces its
slice: it ends inside the target, a RUN covers bytes all equal, and a COPY
reads bytes equal to its slice either wholly inside the source or wholly
from earlier in the target, never across their boundary. -/
def Instruction.Reproduces (source target : List UInt8) (p : Nat) : Instruction → Prop
  | .add len => p + len ≤ target.length
  | .run len => p + len ≤ target.length ∧ ∀ i < len, target[p + i]? = target[p]?
  | .copy len addr _ =>
    p + len ≤ target.length ∧
      if addr < source.length then
        addr + len ≤ source.length ∧ ∀ i < len, source[addr + i]? = target[p + i]?
      else addr - source.length < p ∧ ∀ i < len, target[addr - source.length + i]? = target[p + i]?

instance Instruction.decReproduces (source target : List UInt8) (p : Nat) :
    (inst : Instruction) → Decidable (inst.Reproduces source target p)
  | .add len => inferInstanceAs (Decidable (p + len ≤ target.length))
  | .run len =>
    inferInstanceAs (Decidable (p + len ≤ target.length ∧ ∀ i < len, target[p + i]? = target[p]?))
  | .copy len addr _ =>
    inferInstanceAs (Decidable (p + len ≤ target.length ∧
      if addr < source.length then
        addr + len ≤ source.length ∧ ∀ i < len, source[addr + i]? = target[p + i]?
      else addr - source.length < p ∧ ∀ i < len, target[addr - source.length + i]? = target[p + i]?))

/-- `Covers source target p q insts`: laid end to end from `p`, the
instructions are non-empty, each reproduces its slice of the target, and
they end at `q`. -/
abbrev Covers (source target : List UInt8) : Nat → Nat → List Instruction → Prop :=
  Tiles instLen (fun p inst => inst.Reproduces source target p)

/-- The match-engine property: the instructions cover the whole target, and
each reproduces its slice of it. -/
abbrev Valid (source target : List UInt8) (insts : List Instruction) : Prop :=
  Covers source target 0 target.length insts

/-- An instruction that reproduces its slice ends inside the target. -/
theorem Instruction.Reproduces.end_le {source target : List UInt8} {p : Nat} :
    ∀ {inst : Instruction}, inst.Reproduces source target p → p + instLen inst ≤ target.length
  | .add _, h => h
  | .run _, h => h.1
  | .copy _ _ _, h => h.1

/-- A COPY that reproduces its slice ends inside the address space of the
source followed by the target. -/
theorem Instruction.Reproduces.copy_end_le {source target : List UInt8} {p len addr : Nat}
    {mode : UInt8} (h : (Instruction.copy len addr mode).Reproduces source target p) :
    addr + len ≤ source.length + target.length := by
  obtain ⟨hend, hrd⟩ := h
  split at hrd
  · omega
  · omega

/-! ## The copy program a list stands for -/

/-- The copy program of an instruction list laid from position `p` of the
target, as `emit_instructions` feeds it to the window encoder: an ADD's bytes
and a RUN's byte are read from the target where the instruction starts. -/
def toOps (target : List UInt8) : Nat → List Instruction → List (Op UInt8)
  | _, [] => []
  | p, .add len :: insts => .add ((target.drop p).take len) :: toOps target (p + len) insts
  | p, .copy len addr _ :: insts => .copy len addr :: toOps target (p + len) insts
  | p, .run len :: insts => .run len (target[p]?.getD 0) :: toOps target (p + len) insts

/-- The operation an instruction stands for reproduces the same slice as the
instruction, and has its length. -/
theorem reproduces_toOp {source target : List UInt8} {p : Nat} :
    ∀ {inst : Instruction}, 0 < instLen inst → inst.Reproduces source target p →
      ∃ op, (∀ insts,
          toOps target p (inst :: insts) = op :: toOps target (p + instLen inst) insts) ∧
        op.size = instLen inst ∧ CopyProgram.Reproduces source target p op
  | .add len, _, (h : p + len ≤ target.length) => by
    have hlen : ((target.drop p).take len).length = len := by simp; omega
    refine ⟨_, fun _ => rfl, hlen, by rw [hlen]; exact h, fun i hi => ?_⟩
    rw [hlen] at hi
    simp [hi]
  | .run len, hpos, ⟨hend, hconst⟩ => by
    -- the RUN's byte is the target's byte where it starts
    have hp : target[p]? = some (target[p]?.getD 0) := by
      rw [List.getElem?_eq_getElem (by simp at hpos; omega)]
      rfl
    exact ⟨_, fun _ => rfl, rfl, hend, fun i hi => (hconst i hi).trans hp⟩
  | .copy len addr _, _, h => ⟨_, fun _ => rfl, rfl, h⟩

/-- **A valid list is a valid program.**  The copy program of a list that
covers the target from `p` to its end covers it in the sense of
`CopyProgram.ValidFrom`. -/
theorem validFrom_toOps (source target : List UInt8) :
    ∀ {p : Nat} {insts : List Instruction}, Covers source target p target.length insts →
      ValidFrom source target p (toOps target p insts)
  | _, [], h => h
  | p, inst :: insts, ⟨hpos, hrep, hrest⟩ => by
    obtain ⟨op, hcons, hsize, hrep'⟩ := reproduces_toOp hpos hrep
    have htail := validFrom_toOps source target hrest
    rw [hcons]
    exact ⟨hsize ▸ hpos, hrep', hsize ▸ htail⟩

/-- Executing a valid list against the source rebuilds the target. -/
theorem exec_toOps {source target : List UInt8} {insts : List Instruction}
    (h : Valid source target insts) : exec source (toOps target 0 insts) = target :=
  exec_of_validFrom source target _ (validFrom_toOps source target h)

end Oxidelta.Vcdiff
