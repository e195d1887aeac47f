/-
# Ranges laid end to end

An allocator that hands out the range from a cursor and moves the cursor by
its length lays its ranges end to end. A range is a pair of its first
position and its length. `Laid o rs e` says that the ranges go from `o` to
`e` without gap or overlap; from it come that they are pairwise disjoint
(`Laid.pairwise_disjoint`) and that their lengths sum to `e - o`
(`Laid.total`).
-/
import Mathlib.Algebra.BigOperators.Group.List.Basic
import Mathlib.Algebra.Ring.Nat
import Mathlib.Order.CompletePartialOrder
import Mathlib.Order.Interval.Set.Disjoint

namespace ComputeSideLog
namespace Tiles

/-- The positions of a range. -/
def span (r : ℕ × ℕ) : Set ℕ := Set.Ico r.1 (r.1 + r.2)

/-- A range lies below `n` exactly if it is empty or ends there. -/
theorem span_subset_iff {r : ℕ × ℕ} {n : ℕ} : span r ⊆ Set.Iio n ↔ r.2 = 0 ∨ r.1 + r.2 ≤ n := by
  constructor
  · intro h
    rcases Nat.eq_zero_or_pos r.2 with h0 | hpos
    · exact .inl h0
    · have hlast : r.1 + r.2 - 1 < n := h ⟨by omega, by omega⟩
      exact .inr (by omega)
  · rintro (h0 | hle) x ⟨hlo, hhi⟩
    · omega
    · exact lt_of_lt_of_le hhi hle

/-- The ranges are laid end to end from `o` to `e`. -/
def Laid : ℕ → List (ℕ × ℕ) → ℕ → Prop
  | o, [], e => o = e
  | o, r :: rs, e => r.1 = o ∧ Laid (o + r.2) rs e

variable {rs : List (ℕ × ℕ)} {o e : ℕ}

/-- The next range starts at the cursor. -/
theorem Laid.snoc (h : Laid o rs e) (n : ℕ) : Laid o (rs ++ [(e, n)]) (e + n) := by
  induction rs generalizing o with
  | nil =>
    obtain rfl : o = e := h
    exact ⟨rfl, rfl⟩
  | cons r rs ih => exact ⟨h.1, ih h.2⟩

/-- The lengths sum to the way of the cursor. -/
theorem Laid.total (h : Laid o rs e) : o + (rs.map Prod.snd).sum = e := by
  induction rs generalizing o with
  | nil => exact h
  | cons r rs ih =>
    calc o + ((r :: rs).map Prod.snd).sum
        = o + r.2 + (rs.map Prod.snd).sum := by rw [List.map_cons, List.sum_cons, Nat.add_assoc]
      _ = e := ih h.2

theorem Laid.start_le (h : Laid o rs e) : ∀ r ∈ rs, o ≤ r.1 := by
  induction rs generalizing o with
  | nil => exact fun r hr => absurd hr List.not_mem_nil
  | cons q rs ih =>
    intro r hr
    rcases List.mem_cons.mp hr with rfl | hr
    · exact h.1.ge
    · calc o ≤ o + q.2 := Nat.le_add_right o q.2
        _ ≤ r.1 := ih h.2 r hr

/-- No two ranges share a position. -/
theorem Laid.pairwise_disjoint (h : Laid o rs e) : rs.Pairwise fun r q => Disjoint (span r) (span q) := by
  induction rs generalizing o with
  | nil => exact .nil
  | cons r rs ih =>
    refine .cons (fun q hq => ?_) (ih h.2)
    have hle : r.1 + r.2 ≤ q.1 := h.1 ▸ h.2.start_le q hq
    exact Set.disjoint_left.mpr fun x hx hx' => absurd (hx.2.trans_le hle) (not_lt.mpr hx'.1)

end Tiles
end ComputeSideLog
