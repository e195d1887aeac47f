/-
# The largest use in a run

A machine that keeps things for reuse hands out one that is free, and makes a
new one when there is none. How many it has made then tells how many were in
use at one time: as many as ever were (`ReachPeak.made_eq`).

`ReachPeak` is reachability together with the largest value that a measure
had on the way.

Key definitions: `Trace.ReachPeak`, `Trace.Thrifty`.
Key theorem: `Trace.ReachPeak.made_eq`.
-/
import Mathlib.Data.Nat.Notation
import Mathlib.Order.Nat
import ComputeSideLog.Lib.Trace

namespace ComputeSideLog
namespace Trace

variable {σ ε : Type*} {step : σ → ε → Option σ} {held made : σ → ℕ} {s₀ s : σ} {n : ℕ}

/-- The states reachable from `s₀`, with the largest `held` of a run to each. -/
inductive ReachPeak (step : σ → ε → Option σ) (held : σ → ℕ) (s₀ : σ) : σ → ℕ → Prop
  | init : ReachPeak step held s₀ s₀ (held s₀)
  | next {s t : σ} {n : ℕ} (e : ε) : ReachPeak step held s₀ s n → step s e = some t →
      ReachPeak step held s₀ t (max n (held t))

theorem ReachPeak.reach (h : ReachPeak step held s₀ s n) : Reach step s₀ s := by
  induction h with
  | init => exact .init
  | next e _ he ih => exact ih.next e he

theorem Reach.exists_peak (held : σ → ℕ) (h : Reach step s₀ s) : ∃ n, ReachPeak step held s₀ s n := by
  induction h with
  | init => exact ⟨_, .init⟩
  | next e _ he ih =>
    obtain ⟨n, hn⟩ := ih
    exact ⟨_, hn.next e he⟩

/-- Where `I` holds, no more are held than were made, and one is made only when
all others are held. -/
structure Thrifty (step : σ → ε → Option σ) (I : σ → Prop) (made held : σ → ℕ) : Prop where
  held_le : ∀ s, I s → held s ≤ made s
  step : ∀ s e t, I s → I t → step s e = some t → made t = made s ∨ (made t = made s + 1 ∧ held t = made t)

/-- **As many are made as were held at one time**, or as there were at the start. -/
theorem ReachPeak.made_eq {I : σ → Prop} (hT : Thrifty step I made held) (hI : ∀ s, Reach step s₀ s → I s)
    (h : ReachPeak step held s₀ s n) : made s = max (made s₀) n := by
  induction h with
  | init =>
    have hle := hT.held_le s₀ (hI s₀ .init)
    omega
  | next e hs he ih =>
    have hI' := hI _ (hs.reach.next e he)
    have hle := hT.held_le _ hI'
    rcases hT.step _ e _ (hI _ hs.reach) hI' he with hsame | ⟨hnew, hall⟩
    · omega
    · omega

end Trace
end ComputeSideLog
