/-
# Executable machines and their runs

A machine is a partial step function `step : σ → ε → Option σ`: an event is
either not enabled (`none`) or leads to one state. `exec` runs a list of
events, `Reach` is reachability by enabled events, and `restrict` keeps only
the steps that meet a condition on the state before them, so that "every
run whose steps meet the condition" is reachability in the restricted
machine. An invariant is proved once per step (`Reach.inv`, and
`Reach.inv_restrict` for the restricted machine), and a machine that
projects onto another one inherits its invariants (`Reach.project`).
-/
import Mathlib.Logic.Basic

namespace ComputeSideLog
namespace Trace

variable {σ τ ε : Type*}

/-- The state after the events, `none` if one of them was not enabled. -/
def exec (step : σ → ε → Option σ) : σ → List ε → Option σ
  | s, [] => some s
  | s, e :: es => (step s e).bind fun t => exec step t es

/-- The states reachable from `s₀`. -/
inductive Reach (step : σ → ε → Option σ) (s₀ : σ) : σ → Prop
  | init : Reach step s₀ s₀
  | next {s t : σ} (e : ε) : Reach step s₀ s → step s e = some t → Reach step s₀ t

/-- The machine that only takes the steps that meet `ok`. -/
def restrict (ok : σ → ε → Prop) [∀ s e, Decidable (ok s e)] (step : σ → ε → Option σ) :
    σ → ε → Option σ :=
  fun s e => if ok s e then step s e else none

/-- The invariant rule: what holds at the start and survives every step holds
in every reachable state. -/
theorem Reach.inv {step : σ → ε → Option σ} {s₀ s : σ} (h : Reach step s₀ s) {I : σ → Prop}
    (h₀ : I s₀) (hstep : ∀ s e t, I s → step s e = some t → I t) : I s := by
  induction h with
  | init => exact h₀
  | next e _ he ih => exact hstep _ e _ ih he

/-- The invariant rule with an invariant `J` already proved. -/
theorem Reach.inv_of {step : σ → ε → Option σ} {s₀ s : σ} (h : Reach step s₀ s) {J I : σ → Prop}
    (hJ : ∀ s, Reach step s₀ s → J s) (h₀ : I s₀)
    (hstep : ∀ s e t, J s → I s → step s e = some t → I t) : I s := by
  induction h with
  | init => exact h₀
  | next e hs he ih => exact hstep _ e _ (hJ _ hs) ih he

theorem reach_of_exec {step : σ → ε → Option σ} {s₀ s t : σ} {es : List ε} (hs : Reach step s₀ s)
    (h : exec step s es = some t) : Reach step s₀ t := by
  induction es generalizing s with
  | nil =>
    simp only [exec, Option.some.injEq] at h
    exact h ▸ hs
  | cons e es ih =>
    simp only [exec, Option.bind_eq_some_iff] at h
    obtain ⟨u, hu, h⟩ := h
    exact ih (hs.next e hu) h

/-- A run that ends in a state with a decidable property. -/
theorem exists_reach_of_exec {step : σ → ε → Option σ} {s₀ : σ} (es : List ε) {p : σ → Prop}
    [DecidablePred p] (h : (exec step s₀ es).any (fun s => decide (p s)) = true) :
    ∃ s, Reach step s₀ s ∧ p s := by
  cases hs : exec step s₀ es with
  | none => simp [hs] at h
  | some s =>
    simp only [hs, Option.any_some, decide_eq_true_eq] at h
    exact ⟨s, reach_of_exec .init hs, h⟩

theorem restrict_eq_some {ok : σ → ε → Prop} [∀ s e, Decidable (ok s e)]
    {step : σ → ε → Option σ} {s t : σ} {e : ε} :
    restrict ok step s e = some t ↔ ok s e ∧ step s e = some t := by
  simp only [restrict, Option.ite_none_right_eq_some]

/-- Every state of the restricted machine is one of the machine. -/
theorem Reach.of_restrict {ok : σ → ε → Prop} [∀ s e, Decidable (ok s e)]
    {step : σ → ε → Option σ} {s₀ s : σ} (h : Reach (restrict ok step) s₀ s) : Reach step s₀ s := by
  induction h with
  | init => exact .init
  | next e _ he ih => exact ih.next e (restrict_eq_some.mp he).2

/-- The invariant rule for runs whose steps meet the condition. -/
theorem Reach.inv_restrict {ok : σ → ε → Prop} [∀ s e, Decidable (ok s e)] {step : σ → ε → Option σ} {s₀ s : σ}
    (h : Reach (restrict ok step) s₀ s) {I : σ → Prop} (h₀ : I s₀)
    (hstep : ∀ s e t, I s → ok s e → step s e = some t → I t) : I s := by
  refine h.inv h₀ fun s e t hs he => ?_
  obtain ⟨hok, he⟩ := restrict_eq_some.mp he
  exact hstep s e t hs hok he

/-- The same with an invariant `J` of all runs already proved. -/
theorem Reach.inv_restrict_of {ok : σ → ε → Prop} [∀ s e, Decidable (ok s e)] {step : σ → ε → Option σ} {s₀ s : σ}
    (h : Reach (restrict ok step) s₀ s) {J I : σ → Prop} (hJ : ∀ s, Reach step s₀ s → J s) (h₀ : I s₀)
    (hstep : ∀ s e t, J s → I s → ok s e → step s e = some t → I t) : I s := by
  refine h.inv_of (fun s hs => hJ s hs.of_restrict) h₀ fun s e t hj hs he => ?_
  obtain ⟨hok, he⟩ := restrict_eq_some.mp he
  exact hstep s e t hj hs hok he

/-- A projection that maps each step to a step or to no change maps reachable
states to reachable states. -/
theorem Reach.project {ε' : Type*} {step : σ → ε → Option σ} {step' : τ → ε' → Option τ} {s₀ s : σ}
    (h : Reach step s₀ s) (π : σ → τ)
    (hstep : ∀ s e t, step s e = some t → π t = π s ∨ ∃ e', step' (π s) e' = some (π t)) :
    Reach step' (π s₀) (π s) := by
  induction h with
  | init => exact .init
  | next e _ he ih =>
    rcases hstep _ e _ he with hid | ⟨e', he'⟩
    · exact hid ▸ ih
    · exact ih.next e' he'

theorem exec_singleton (step : σ → ε → Option σ) (s : σ) (e : ε) : exec step s [e] = step s e := by
  simp only [exec, Option.bind_fun_some]

theorem exec_append (step : σ → ε → Option σ) (s : σ) (es es' : List ε) :
    exec step s (es ++ es') = (exec step s es).bind fun t => exec step t es' := by
  induction es generalizing s with
  | nil => rfl
  | cons e es ih =>
    simp only [List.cons_append, exec, Option.bind_assoc]
    exact congrArg _ (funext fun t => ih t)

/-- Forward simulation by runs: if each step from related states is answered by a
list of events that ends in related states, every reachable state is related
to a reachable one. -/
theorem Reach.simulate {ε' : Type*} {step : σ → ε → Option σ} {step' : τ → ε' → Option τ} {s₀ s : σ} {t₀ : τ}
    (h : Reach step s₀ s) (R : σ → τ → Prop) (h₀ : R s₀ t₀)
    (hstep : ∀ s e s' t, R s t → step s e = some s' → ∃ es t', exec step' t es = some t' ∧ R s' t') :
    ∃ t, Reach step' t₀ t ∧ R s t := by
  induction h with
  | init => exact ⟨t₀, .init, h₀⟩
  | next e _ he ih =>
    obtain ⟨t, ht, hR⟩ := ih
    obtain ⟨es, t', hes, hR'⟩ := hstep _ e _ t hR he
    exact ⟨t', reach_of_exec ht hes, hR'⟩

end Trace
end ComputeSideLog
