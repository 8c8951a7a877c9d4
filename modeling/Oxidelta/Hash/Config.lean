import Oxidelta.Lib.Rust
import Oxidelta.Vcdiff.CodeTable

/-!
# Matcher profiles (`hash/config.rs`)

The match engine is tuned by a profile: the widths of the large (source) and
small (target) hashes, the step between indexed source positions, how far
the small hash chains are followed, and when a match is long enough to stop
looking or to skip lazy matching.  A compression level names one of five
profiles (`config_for_level`), the ones of xdelta3.

The encoders (`compress/encoder.rs`, `engine.rs`) use the engine through
three calls only: creating it for a profile, indexing the source, and finding
the matches of a window, which changes the engine's state for the next one;
their models call the engine of `Hash.Scan`.
-/

namespace Oxidelta.Hash

open Rust Oxidelta.Vcdiff

/-- `MIN_MATCH`: the shortest COPY. -/
def minMatch : Nat := 4

/-- `MIN_RUN`: the shortest repeat worth a RUN. -/
def minRun : Nat := 8

/-- `DEFAULT_SPREVSZ`: the largest previous-position chain. -/
def defaultSprevsz : Nat := 2 ^ 18

/-- `MatcherConfig`, without the display name. -/
structure MatcherConfig where
  largeLook : Nat
  largeStep : Nat
  smallLook : Nat
  smallChain : Nat
  smallLchain : Nat
  maxLazy : Nat
  longEnough : Nat
  deriving DecidableEq, Repr

namespace MatcherConfig

/-- `FASTEST`. -/
def fastest : MatcherConfig := ⟨9, 26, 4, 1, 1, 6, 6⟩
/-- `FASTER`. -/
def faster : MatcherConfig := ⟨9, 15, 4, 1, 1, 18, 18⟩
/-- `FAST`. -/
def fast : MatcherConfig := ⟨9, 8, 4, 4, 1, 18, 35⟩
/-- `DEFAULT`. -/
def default : MatcherConfig := ⟨9, 3, 4, 8, 2, 36, 70⟩
/-- `SLOW`. -/
def slow : MatcherConfig := ⟨9, 2, 4, 44, 13, 90, 70⟩

/-- The five profiles. -/
def profiles : List MatcherConfig := [fastest, faster, fast, default, slow]

end MatcherConfig

/-- `config_for_level`. -/
def configForLevel : Nat → MatcherConfig
  | 0 | 1 => .fastest
  | 2 => .faster
  | 3 | 4 | 5 => .fast
  | 6 => .default
  | _ => .slow

theorem configForLevel_mem (level : Nat) : configForLevel level ∈ MatcherConfig.profiles := by
  unfold configForLevel
  split <;> simp [MatcherConfig.profiles]

/-- What every profile has: a small hash of `MIN_MATCH` bytes, a large hash
of nine, a positive source step, and chains followed at least once. -/
structure MatcherConfig.Profile (c : MatcherConfig) : Prop where
  smallLook : c.smallLook = minMatch
  largeLook : c.largeLook = 9
  largeStep : 0 < c.largeStep
  smallChain : 0 < c.smallChain
  smallLchain : 0 < c.smallLchain

theorem MatcherConfig.profile_of_mem {c : MatcherConfig} (h : c ∈ MatcherConfig.profiles) :
    c.Profile := by
  simp only [profiles, List.mem_cons, List.not_mem_nil, or_false] at h
  rcases h with rfl | rfl | rfl | rfl | rfl <;> exact ⟨rfl, rfl, by decide, by decide, by decide⟩

end Oxidelta.Hash
