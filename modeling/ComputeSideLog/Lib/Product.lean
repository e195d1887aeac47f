/-
# Machines that run side by side

A family of machines, one for each index, under events that carry the index
of the machine they are for. A component of the product sees the events of
its own index only (`run_apply`): what it holds after a run is what it holds
after the run with all other events taken out (`purge`), and two runs with
the same events for an index agree there (`noninterference`), whatever else
happens in them.

Key definitions: `Product.step`, `Product.run`, `Product.purge`.
Key theorems: `Product.run_apply`, `Product.noninterference`.
-/
import Mathlib.Logic.Function.Basic

namespace ComputeSideLog
namespace Product

variable {ι σ ε : Type*} [DecidableEq ι]

/-- One event changes the component that it is for. -/
def step (δ : σ → ε → σ) (s : ι → σ) (e : ι × ε) : ι → σ := Function.update s e.1 (δ (s e.1) e.2)

/-- The state after the events. -/
def run (δ : σ → ε → σ) (s : ι → σ) (es : List (ι × ε)) : ι → σ := es.foldl (step δ) s

/-- The events for one component. -/
def purge (i : ι) (es : List (ι × ε)) : List ε := es.filterMap fun e => if e.1 = i then some e.2 else none

theorem run_append (δ : σ → ε → σ) (s : ι → σ) (es es' : List (ι × ε)) :
    run δ s (es ++ es') = run δ (run δ s es) es' := List.foldl_append

/-- A component runs on its own events. -/
theorem run_apply (δ : σ → ε → σ) (i : ι) (es : List (ι × ε)) (s : ι → σ) :
    run δ s es i = (purge i es).foldl δ (s i) := by
  induction es generalizing s with
  | nil => rfl
  | cons e es ih =>
    have htail : run δ s (e :: es) i = (purge i es).foldl δ (step δ s e i) := ih (step δ s e)
    rw [htail]
    by_cases hi : e.1 = i
    · have hpurge : purge i (e :: es) = e.2 :: purge i es := List.filterMap_cons_some (if_pos hi)
      subst hi
      rw [hpurge, List.foldl_cons, step, Function.update_self]
    · have hpurge : purge i (e :: es) = purge i es := List.filterMap_cons_none (if_neg hi)
      rw [hpurge, step, Function.update_of_ne (Ne.symm hi)]

/-- What happens to the other components makes no difference. -/
theorem noninterference {δ : σ → ε → σ} {s s' : ι → σ} {es es' : List (ι × ε)} {i : ι} (hs : s i = s' i)
    (hes : purge i es = purge i es') : run δ s es i = run δ s' es' i := by
  rw [run_apply, run_apply, hs, hes]

end Product
end ComputeSideLog
