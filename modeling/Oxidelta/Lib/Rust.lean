import Mathlib.Data.List.Basic
import Mathlib.Algebra.Group.Nat.Defs

/-!
# The parts of Rust's semantics the model needs

A Rust function returning `Result<T, E>` can, besides `Ok` and `Err`, panic:
an arithmetic overflow in a build with overflow checks (the test and fuzzing
profiles), an index or a slice out of bounds.  `Fault ε` adds a panic, and
`diverge` for a loop that the model's iteration bound stopped, to the error
type `ε`, so that a model keeps the three outcomes apart (as Aeneas' `Result`
does).

The module also models `std::io`: an `io::Error` with its `ErrorKind`, and
`Read::read_exact` on an in-memory `Cursor`, whose state is the unread rest.

Nothing here names the program being modelled.
-/

namespace Rust

universe u v w

/-- What can go wrong when running a Rust function: an `Err` value, a panic,
or (for the model) an iteration bound reached. -/
inductive Fault (ε : Type u) where
  | err (e : ε)
  | panic (msg : String)
  | diverge
  deriving Repr, DecidableEq

/-- A Rust computation: its value, or the fault that stopped it. -/
abbrev Result (ε : Type u) (α : Type v) := Except (Fault ε) α

variable {ε : Type u} {α β : Type v}

/-- Return `Err(e)`. -/
def fail (e : ε) : Result ε α := .error (.err e)

/-- Panic with a message. -/
def panic (msg : String) : Result ε α := .error (.panic msg)

/-- The `?` operator on a fallible call whose error converts into `ε`. -/
def lift (conv : ε' → ε) : Except ε' α → Result ε α
  | .ok a => .ok a
  | .error e => .error (.err (conv e))

theorem lift_eq_ok {ε' : Type u} {conv : ε' → ε} {x : Except ε' α} {a : α}
    (h : (lift conv x : Result ε α) = .ok a) : x = .ok a := by
  cases x with
  | error e => cases h
  | ok a' => cases h; rfl

/-- An unsigned `bits`-wide addition as in a build with overflow checks. -/
def addChecked (bits a b : Nat) : Result ε Nat :=
  if a + b < 2 ^ bits then .ok (a + b) else panic "attempt to add with overflow"

/-- An unsigned subtraction as in a build with overflow checks. -/
def subChecked (a b : Nat) : Result ε Nat :=
  if b ≤ a then .ok (a - b) else panic "attempt to subtract with overflow"

/-- `xs[i]`: the element at `i`, or a panic. -/
def index (xs : List α) (i : Nat) : Result ε α :=
  match xs[i]? with
  | some a => .ok a
  | none => panic "index out of bounds"

/-- `&xs[lo..]`: the suffix from `lo`, or a panic when `lo` is past the end. -/
def sliceFrom (xs : List α) (lo : Nat) : Result ε (List α) :=
  if lo ≤ xs.length then .ok (xs.drop lo) else panic "range start index out of range for slice"

/-- `.map_err(conv)?` on a call that may also panic. -/
def mapErr {ε' : Type u} (conv : ε' → ε) : Result ε' α → Result ε α
  | .ok a => .ok a
  | .error (.err e) => .error (.err (conv e))
  | .error (.panic msg) => .error (.panic msg)
  | .error .diverge => .error .diverge

/-- `&xs[lo..hi]`: a subslice, or a panic when the range is not inside `xs`. -/
def slice (xs : List α) (lo hi : Nat) : Result ε (List α) :=
  if lo ≤ hi then
    if hi ≤ xs.length then .ok ((xs.drop lo).take (hi - lo))
    else panic "range end index out of range for slice"
  else panic "slice index starts after it ends"

/-! ### Reasoning about results -/

/-- `Except`'s bind on a success, which `simp` does not see through as a `pure`. -/
@[simp] theorem bind_ok' {ε' : Type u} (a : α) (f : α → Except ε' β) :
    (Except.ok a >>= f) = f a := rfl

@[simp] theorem bind_error' {ε' : Type u} (e : ε') (f : α → Except ε' β) :
    (Except.error e >>= f) = .error e := rfl

/-- Peel one successful call off a chain of binds. -/
theorem bind_eq_ok {x : Result ε α} {f : α → Result ε β} {b : β}
    (h : (x >>= f) = .ok b) : ∃ a, x = .ok a ∧ f a = .ok b := by
  cases x with
  | error e => simp at h
  | ok a => exact ⟨a, rfl, h⟩

/-- A chain of binds that did not fault at `x` faults only where its
continuation does. -/
theorem bind_eq_error {x : Result ε α} {f : α → Result ε β} {e : Fault ε}
    (h : (x >>= f) = .error e) : x = .error e ∨ ∃ a, x = .ok a ∧ f a = .error e := by
  cases x with
  | error e' => left; simpa using h
  | ok a => right; exact ⟨a, rfl, h⟩

/-- **Invariant rule for a fallible loop over a slice.**  An invariant of the
state and of the elements still to come, from which every iteration succeeds
and which it keeps, makes the whole loop succeed in a state where it holds
with nothing left. -/
theorem foldlM_invariant {γ : Type w} {σ : Type v} (f : σ → γ → Result ε σ)
    (Inv : σ → List γ → Prop)
    (hstep : ∀ s x xs, Inv s (x :: xs) → ∃ s', f s x = .ok s' ∧ Inv s' xs) :
    ∀ (xs : List γ) (s : σ), Inv s xs → ∃ s', xs.foldlM f s = .ok s' ∧ Inv s' [] := by
  intro xs
  induction xs with
  | nil => intro s hs; exact ⟨s, rfl, hs⟩
  | cons x xs ih =>
    intro s hs
    obtain ⟨s', hf, hs'⟩ := hstep s x xs hs
    rw [List.foldlM_cons, hf, bind_ok']
    exact ih s' hs'

/-- **A fallible map over a slice succeeds** when every element maps to a
value: it returns the values in order, each paired here with the element it
comes from. -/
theorem mapM_eq_ok_of_forall {γ : Type w} (f : γ → Result ε α) (P : γ → α → Prop) :
    ∀ xs : List γ, (∀ x ∈ xs, ∃ a, f x = .ok a ∧ P x a) →
      ∃ ps : List (α × γ), xs.mapM f = .ok (ps.map Prod.fst) ∧ ps.map Prod.snd = xs ∧
        ∀ p ∈ ps, P p.2 p.1 := by
  intro xs
  induction xs with
  | nil => intro _; exact ⟨[], rfl, rfl, by simp⟩
  | cons x xs ih =>
    intro hall
    obtain ⟨a, hf, hp⟩ := hall x List.mem_cons_self
    obtain ⟨ps, hrest, hsnd, hps⟩ := ih fun y hy => hall y (List.mem_cons_of_mem x hy)
    refine ⟨(a, x) :: ps, ?_, by rw [List.map_cons, hsnd], ?_⟩
    · rw [List.mapM_cons, hf, bind_ok', hrest, bind_ok']
      rfl
    · intro p hp'
      rcases List.mem_cons.1 hp' with rfl | hp'
      · exact hp
      · exact hps p hp'

theorem addChecked_of_lt {bits a b : Nat} (h : a + b < 2 ^ bits) :
    (addChecked bits a b : Result ε Nat) = .ok (a + b) := by
  simp [addChecked, h]

theorem addChecked_eq_ok {bits a b c : Nat} (h : (addChecked bits a b : Result ε Nat) = .ok c) :
    c = a + b ∧ a + b < 2 ^ bits := by
  unfold addChecked at h
  split at h
  · next hlt => cases h; exact ⟨rfl, hlt⟩
  · simp [panic] at h

theorem subChecked_of_le {a b : Nat} (h : b ≤ a) :
    (subChecked a b : Result ε Nat) = .ok (a - b) := by
  simp [subChecked, h]

theorem index_of_lt {xs : List α} {i : Nat} (h : i < xs.length) :
    (index xs i : Result ε α) = .ok xs[i] := by
  simp [index, List.getElem?_eq_getElem h]

theorem index_eq_ok {xs : List α} {i : Nat} {a : α} (h : (index xs i : Result ε α) = .ok a) :
    xs[i]? = some a := by
  unfold index at h
  split at h
  · next a' ha => cases h; exact ha
  · simp [panic] at h

theorem slice_of_le {xs : List α} {lo hi : Nat} (h1 : lo ≤ hi) (h2 : hi ≤ xs.length) :
    (slice xs lo hi : Result ε (List α)) = .ok ((xs.drop lo).take (hi - lo)) := by
  simp [slice, h1, h2]

theorem sliceFrom_of_le {xs : List α} {lo : Nat} (h : lo ≤ xs.length) :
    (sliceFrom xs lo : Result ε (List α)) = .ok (xs.drop lo) := by
  simp [sliceFrom, h]

@[simp] theorem mapErr_ok {ε' : Type u} (conv : ε' → ε) (a : α) :
    (mapErr conv (.ok a : Result ε' α) : Result ε α) = .ok a := rfl

theorem mapErr_eq_ok {ε' : Type u} {conv : ε' → ε} {r : Result ε' α} {a : α}
    (h : (mapErr conv r : Result ε α) = .ok a) : r = .ok a := by
  rcases r with (_ | _ | _) | a' <;> simp [mapErr] at h
  rw [h]

/-! ## `std::io` -/

/-- `std::io::ErrorKind`, the kinds the model produces. -/
inductive ErrorKind where
  | unexpectedEof
  | invalidData
  | unsupported
  deriving Repr, DecidableEq

/-- `std::io::Error`: a kind and a message. -/
structure IoError where
  kind : ErrorKind
  msg : String
  deriving Repr, DecidableEq

/-- `io::Error::new(kind, msg)`. -/
def IoError.new (kind : ErrorKind) (msg : String) : IoError := ⟨kind, msg⟩

/-- The error `read_exact` returns at the end of the input. -/
def IoError.eof : IoError := ⟨.unexpectedEof, "failed to fill whole buffer"⟩

/-- Reading from an in-memory stream (a `Cursor`): the state is the unread
rest, and a read can fail with an error or panic. -/
abbrev ReadM (ε : Type) (α : Type) := StateT (List UInt8) (Except (Fault ε)) α

/-- `Read::read_exact` into a buffer of `n` bytes. -/
def readExact (n : Nat) : ReadM IoError (List UInt8) := fun rest =>
  if n ≤ rest.length then .ok (rest.take n, rest.drop n) else .error (.err IoError.eof)

/-- `read_exact` into a one-byte buffer, returning the byte. -/
def readByte : ReadM IoError UInt8 := fun rest =>
  match rest with
  | b :: rest => .ok (b, rest)
  | [] => .error (.err IoError.eof)

/-- Run a computation that does not read. -/
def ReadM.ofResult {ε α : Type} (r : Result ε α) : ReadM ε α := fun s =>
  match r with
  | .ok a => .ok (a, s)
  | .error e => .error e

/-- The `?` operator on a read whose error converts into `ε'`. -/
def ReadM.liftErr {ε ε' α : Type} (conv : ε → ε') (m : ReadM ε α) : ReadM ε' α := fun s =>
  match m s with
  | .ok r => .ok r
  | .error (.err e) => .error (.err (conv e))
  | .error (.panic msg) => .error (.panic msg)
  | .error .diverge => .error .diverge

theorem readExact_append (xs rest : List UInt8) :
    readExact xs.length (xs ++ rest) = .ok (xs, rest) := by
  simp [readExact]

theorem readByte_cons (b : UInt8) (rest : List UInt8) :
    readByte (b :: rest) = .ok (b, rest) := rfl

/-- Peel one successful read off a chain of reads. -/
theorem ReadM.bind_of_ok {ε α β : Type} {x : ReadM ε α} {f : α → ReadM ε β}
    {s s' : List UInt8} {a : α} (h : x s = .ok (a, s')) : (x >>= f) s = f a s' := by
  show (StateT.bind x f) s = f a s'
  simp only [StateT.bind, h]
  rfl

theorem ReadM.bind_of_error {ε α β : Type} {x : ReadM ε α} {f : α → ReadM ε β}
    {s : List UInt8} {e : Fault ε} (h : x s = .error e) : (x >>= f) s = .error e := by
  show (StateT.bind x f) s = .error e
  simp [StateT.bind, h]

@[simp] theorem ReadM.pure_run {ε α : Type} (a : α) (s : List UInt8) :
    (pure a : ReadM ε α) s = .ok (a, s) := rfl

/-- Running a chain of reads runs its first read, then the rest on what is
left. -/
@[simp] theorem ReadM.bind_run {ε α β : Type} (x : ReadM ε α) (f : α → ReadM ε β)
    (s : List UInt8) : (x >>= f) s = (x s >>= fun p => f p.1 p.2) := rfl

@[simp] theorem ReadM.map_run {ε α β : Type} (g : α → β) (x : ReadM ε α) (s : List UInt8) :
    (g <$> x) s = (x s >>= fun p => .ok (g p.1, p.2)) := rfl

theorem ReadM.liftErr_of_ok {ε ε' α : Type} (conv : ε → ε') {m : ReadM ε α} {s s' : List UInt8}
    {a : α} (h : m s = .ok (a, s')) : ReadM.liftErr conv m s = .ok (a, s') := by
  simp [ReadM.liftErr, h]

theorem ReadM.liftErr_eq_ok {ε ε' α : Type} {conv : ε → ε'} {m : ReadM ε α} {s : List UInt8}
    {r : α × List UInt8} (h : ReadM.liftErr conv m s = .ok r) : m s = .ok r := by
  unfold ReadM.liftErr at h
  split at h
  · next hm => cases h; exact hm
  all_goals cases h

/-! ### Inverting successful reads -/

/-- Peel one successful read off a chain of reads, the converse of
`ReadM.bind_of_ok`. -/
theorem ReadM.bind_eq_ok {ε α β : Type} {x : ReadM ε α} {f : α → ReadM ε β} {s : List UInt8}
    {b : β × List UInt8} (h : (x >>= f) s = .ok b) : ∃ a s', x s = .ok (a, s') ∧ f a s' = .ok b := by
  rw [ReadM.bind_run] at h
  cases hx : x s with
  | error e => rw [hx] at h; cases h
  | ok p => rw [hx] at h; exact ⟨p.1, p.2, rfl, h⟩

theorem ReadM.map_eq_ok {ε α β : Type} {g : α → β} {x : ReadM ε α} {s : List UInt8}
    {b : β × List UInt8} (h : (g <$> x) s = .ok b) : ∃ a s', x s = .ok (a, s') ∧ b = (g a, s') := by
  rw [ReadM.map_run] at h
  cases hx : x s with
  | error e => rw [hx] at h; cases h
  | ok p => rw [hx] at h; cases h; exact ⟨p.1, p.2, rfl, rfl⟩

theorem ReadM.ofResult_eq_ok {ε α : Type} {r : Result ε α} {s s' : List UInt8} {a : α}
    (h : ReadM.ofResult r s = .ok (a, s')) : r = .ok a ∧ s' = s := by
  unfold ReadM.ofResult at h
  split at h
  · cases h; exact ⟨rfl, rfl⟩
  · cases h

/-- A successful `read_exact` took the first `n` bytes. -/
theorem readExact_eq_ok {n : Nat} {r b r' : List UInt8} (h : readExact n r = .ok (b, r')) :
    n ≤ r.length ∧ b = r.take n ∧ r' = r.drop n := by
  unfold readExact at h
  split at h
  · next hn => cases h; exact ⟨hn, rfl, rfl⟩
  · cases h

end Rust
