import Oxidelta.Hash.Rolling

/-!
# Hash tables (`hash/table.rs`)

The small table maps the small checksum of the target at a position to the
last position with that checksum, and keeps the heads it replaces in a
circular chain indexed by `pos & prev_mask`, so that earlier positions with
the same checksum can be walked back.  The large table maps the large
checksum of the source to one source position, the last written.  Both store
a position plus `HASH_CKOFFSET`, so that `0` is an empty bucket.

Every access of the source is unchecked (`get_unchecked`).  The model states
the bounds the unsafe code relies on as fields of the tables: a table has
`cfg.size` buckets and a chain `prev_mask + 1` entries.  Each access then
needs a proof that its index is inside, which `HashCfg.bucket_lt` and
`and_prevMask_lt` give; `tables_in_bounds` collects them.
-/

namespace Oxidelta.Hash

/-- `SmallTable`, with the lengths its unchecked accesses rely on. -/
structure SmallTable where
  table : List Nat
  cfg : HashCfg
  prev : Option (List Nat)
  prevMask : Nat
  table_length : table.length = cfg.size
  prev_length : ∀ p ∈ prev, p.length = prevMask + 1

/-- `LargeTable`, with the length its unchecked accesses rely on. -/
structure LargeTable where
  table : List Nat
  cfg : HashCfg
  table_length : table.length = cfg.size

theorem SmallTable.bucket_lt (t : SmallTable) (cksum : Nat) : t.cfg.bucket cksum < t.table.length := by
  rw [t.table_length]
  exact t.cfg.bucket_lt cksum

theorem LargeTable.bucket_lt (t : LargeTable) (cksum : Nat) : t.cfg.bucket cksum < t.table.length := by
  rw [t.table_length]
  exact t.cfg.bucket_lt cksum

/-- The chain index of a position is inside a chain of `mask + 1` entries. -/
theorem and_prevMask_lt (pos mask : Nat) : pos &&& mask < mask + 1 :=
  Nat.lt_succ_of_le Nat.and_le_right

/-! ## The small table -/

/-- `SmallTable::new`.  The source asserts in debug builds that `sprevsz` is
a power of two; the engine only passes powers of two. -/
def SmallTable.new (slots sprevsz : Nat) : SmallTable where
  table := List.replicate (HashCfg.new slots).size 0
  cfg := HashCfg.new slots
  prev := if 0 < sprevsz then some (List.replicate sprevsz 0) else none
  prevMask := if 0 < sprevsz then sprevsz - 1 else 0
  table_length := List.length_replicate
  prev_length := by
    intro p hp
    split at hp
    · next hpos =>
      cases Option.mem_def.mp hp
      rw [if_pos hpos, List.length_replicate]
      omega
    · cases hp

/-- `SmallTable::reset`: every bucket and chain entry emptied. -/
def SmallTable.reset (t : SmallTable) : SmallTable where
  table := List.replicate t.table.length 0
  cfg := t.cfg
  prev := t.prev.map fun p => List.replicate p.length 0
  prevMask := t.prevMask
  table_length := by rw [List.length_replicate, t.table_length]
  prev_length := by
    intro p hp
    obtain ⟨q, hq, rfl⟩ := Option.mem_map.mp hp
    rw [List.length_replicate, t.prev_length q hq]

/-- `SmallTable::lookup`: the position in the bucket of `cksum`, if any. -/
def SmallTable.lookup (t : SmallTable) (cksum : Nat) : Option Nat :=
  let val := t.table.get ⟨t.cfg.bucket cksum, t.bucket_lt cksum⟩
  if val ≠ 0 then some (val - hashCkoffset) else none

/-- `SmallTable::insert`: `pos` becomes the head of its bucket, the head it
replaces is kept in the chain at `pos & prev_mask`, and a position too large
for a `u32` is not stored. -/
def SmallTable.insert (t : SmallTable) (cksum pos : Nat) : SmallTable :=
  if pos + hashCkoffset < 2 ^ 32 then
    let bucket : Fin t.table.length := ⟨t.cfg.bucket cksum, t.bucket_lt cksum⟩
    { table := t.table.set bucket (pos + hashCkoffset)
      cfg := t.cfg
      prev := t.prev.map fun p => p.set (pos &&& t.prevMask) (t.table.get bucket)
      prevMask := t.prevMask
      table_length := by rw [List.length_set, t.table_length]
      prev_length := by
        intro p hp
        obtain ⟨q, hq, rfl⟩ := Option.mem_map.mp hp
        rw [List.length_set, t.prev_length q hq] }
  else t

/-- `SmallTable::chain_prev`: the head that `pos` replaced in its bucket,
unless the chain is empty there, or holds a later or too distant position
(the circular chain has wrapped). -/
def SmallTable.chainPrev (t : SmallTable) (pos currentInputPos : Nat) : Option Nat :=
  match h : t.prev with
  | none => none
  | some prev =>
    have hlen : pos &&& t.prevMask < prev.length := by
      rw [t.prev_length prev h]
      exact and_prevMask_lt pos t.prevMask
    let prevVal := prev.get ⟨pos &&& t.prevMask, hlen⟩
    if prevVal = 0 then none
    else
      let prevPos := prevVal - hashCkoffset
      if prevPos > pos then none
      else if currentInputPos - prevPos > t.prevMask then none
      else some prevPos

/-- `SmallTable::prefetch_bucket`: the bucket it points the prefetch at. -/
def SmallTable.prefetchBucket (t : SmallTable) (cksum : Nat) : Fin t.table.length :=
  ⟨t.cfg.bucket cksum, t.bucket_lt cksum⟩

/-! ## The large table -/

/-- `LargeTable::new`: at least eight slots. -/
def LargeTable.new (slots : Nat) : LargeTable where
  table := List.replicate (HashCfg.new (max slots 8)).size 0
  cfg := HashCfg.new (max slots 8)
  table_length := List.length_replicate

/-- `LargeTable::lookup`: the source position in the bucket of `cksum`, if
any. -/
def LargeTable.lookup (t : LargeTable) (cksum : Nat) : Option Nat :=
  let val := t.table.get ⟨t.cfg.bucket cksum, t.bucket_lt cksum⟩
  if val ≠ 0 then some (val - hashCkoffset) else none

/-- `LargeTable::insert`: the last write to a bucket wins. -/
def LargeTable.insert (t : LargeTable) (cksum pos : Nat) : LargeTable where
  table := t.table.set (t.cfg.bucket cksum) (pos + hashCkoffset)
  cfg := t.cfg
  table_length := by rw [List.length_set, t.table_length]

/-- `LargeTable::prefetch_bucket`: the bucket it points the prefetch at. -/
def LargeTable.prefetchBucket (t : LargeTable) (cksum : Nat) : Fin t.table.length :=
  ⟨t.cfg.bucket cksum, t.bucket_lt cksum⟩

/-- **The unchecked accesses are in bounds.**  For every slot count and
checksum, the bucket `HashCfg::new` computes is below its size; so every
bucket the small and the large table read, write or prefetch is inside the
table, and every chain index is inside the chain.  For the chain that
`SmallTable::new` allocates, `pos & prev_mask` is below `sprevsz` whenever
`sprevsz` is a power of two. -/
theorem tables_in_bounds :
    (∀ slots cksum : Nat, (HashCfg.new slots).bucket cksum < (HashCfg.new slots).size) ∧
    (∀ (t : SmallTable) (cksum : Nat), t.cfg.bucket cksum < t.table.length) ∧
    (∀ (t : LargeTable) (cksum : Nat), t.cfg.bucket cksum < t.table.length) ∧
    (∀ (t : SmallTable) (pos : Nat), ∀ p ∈ t.prev, pos &&& t.prevMask < p.length) ∧
    (∀ slots sprevsz pos : Nat, (∃ k, sprevsz = 2 ^ k) →
      pos &&& (SmallTable.new slots sprevsz).prevMask < sprevsz) := by
  refine ⟨fun slots cksum => HashCfg.bucket_lt _ cksum, SmallTable.bucket_lt, LargeTable.bucket_lt,
    fun t pos p hp => ?_, fun slots sprevsz pos ⟨k, hk⟩ => ?_⟩
  · rw [t.prev_length p hp]
    exact and_prevMask_lt pos t.prevMask
  · have hpos : 0 < sprevsz := hk ▸ Nat.two_pow_pos k
    have := and_prevMask_lt pos (sprevsz - 1)
    simp only [SmallTable.new, if_pos hpos]
    omega

end Oxidelta.Hash
