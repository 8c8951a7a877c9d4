import Mathlib.Data.List.Basic

/-!
# Encoders and decoders that keep a state in lockstep

An adaptive codec (move-to-front, an address cache, a dictionary coder)
encodes each symbol against a state and then updates the state; the decoder
keeps a copy of the state of its own and must update it in the same way.
`encodeTrace` and `decodeTrace` run one step of each side over a sequence,
recording the state after every step.

`decodeTrace_encodeTrace` is the rule the codecs use: an agreement on one
step (the decoder, in the encoder's state, given what goes over the wire,
recovers the symbol and reaches the encoder's next state) gives the agreement
over every run: every decode succeeds, and after every step the two states
are equal.  `wire` builds the decoder's input from the symbol (the side
information both parties know) and the encoder's output; `out` says what the
decoder must return.
-/

namespace Lockstep

universe u

variable {σ α β γ δ ε : Type u}

/-- Run an encoder step over a sequence: each output with the state after it. -/
def encodeTrace (enc : σ → α → β × σ) : σ → List α → List (β × σ)
  | _, [] => []
  | s, a :: as => enc s a :: encodeTrace enc (enc s a).2 as

/-- Run a decoder step over a sequence of inputs, stopping at the first
error: each result with the state after it. -/
def decodeTrace (dec : σ → δ → Except ε (γ × σ)) : σ → List δ → Except ε (List (γ × σ))
  | _, [] => .ok []
  | s, d :: ds =>
    match dec s d with
    | .error e => .error e
    | .ok r =>
      match decodeTrace dec r.2 ds with
      | .error e => .error e
      | .ok rs => .ok (r :: rs)

section Rule

variable (enc : σ → α → β × σ) (dec : σ → δ → Except ε (γ × σ))
  (wire : α → β → δ) (out : α → β → γ)

/-- **Lockstep rule.**  If one decoder step undoes one encoder step from any
state, for every symbol satisfying `P`, then the decoder undoes every run of
the encoder on such symbols, passing through the encoder's states. -/
theorem decodeTrace_encodeTrace (P : α → Prop)
    (hstep : ∀ s a, P a → dec s (wire a (enc s a).1) = .ok (out a (enc s a).1, (enc s a).2)) :
    ∀ (as : List α) (s : σ), (∀ a ∈ as, P a) →
      decodeTrace dec s (List.zipWith (fun a r => wire a r.1) as (encodeTrace enc s as)) =
        .ok (List.zipWith (fun a r => (out a r.1, r.2)) as (encodeTrace enc s as)) := by
  intro as
  induction as with
  | nil => intro s _; rfl
  | cons a as ih =>
    intro s hP
    have hhead := hstep s a (hP a (by simp))
    have htail := ih (enc s a).2 (fun a' ha' => hP a' (by simp [ha']))
    simp only [encodeTrace, List.zipWith_cons_cons, decodeTrace, hhead, htail]

end Rule

end Lockstep
