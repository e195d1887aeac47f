/-
# The first least element of a list

A loop that keeps a running best and replaces it by every element with a
strictly smaller key, ignoring key 0, ends with the first element of least
non-zero key below its start value. `FirstLeast` says so for a range of
admissible keys, and `foldl_cases` proves it of any such loop.
-/
import Mathlib.Order.Basic
import Mathlib.Data.Nat.Basic

namespace ComputeSideLog
namespace Least

variable {β γ : Type*}

/-- `b` is the first element of `l` with the least key among the admissible ones. -/
def FirstLeast (key : β → ℕ) (adm : β → Prop) (l : List β) (b : β) : Prop :=
  ∃ l₁ l₂, l = l₁ ++ b :: l₂ ∧ adm b ∧
    (∀ a ∈ l₁, adm a → key b < key a) ∧ ∀ a ∈ l₂, adm a → key b ≤ key a

section

variable {key : β → ℕ} {adm : β → Prop} {l : List β} {b : β}

theorem FirstLeast.mem (h : FirstLeast key adm l b) : b ∈ l := by
  obtain ⟨l₁, l₂, rfl, -⟩ := h
  simp

theorem FirstLeast.admissible (h : FirstLeast key adm l b) : adm b := by
  obtain ⟨l₁, l₂, -, hb, -⟩ := h
  exact hb

theorem FirstLeast.le (h : FirstLeast key adm l b) {a : β} (ha : a ∈ l) (hok : adm a) :
    key b ≤ key a := by
  obtain ⟨l₁, l₂, rfl, -, h1, h2⟩ := h
  rcases List.mem_append.mp ha with ha | ha
  · exact (h1 a ha hok).le
  · rcases List.mem_cons.mp ha with rfl | ha
    · exact le_rfl
    · exact h2 a ha hok

/-- There is only one first least element. -/
theorem FirstLeast.unique {b' : β} (h : FirstLeast key adm l b) (h' : FirstLeast key adm l b') :
    b = b' := by
  obtain ⟨l₁, l₂, rfl, hb, h1, h2⟩ := h
  obtain ⟨k₁, k₂, he, hb', h1', h2'⟩ := h'
  rcases List.append_eq_append_iff.mp he with ⟨as, rfl, hr⟩ | ⟨bs, rfl, hr⟩
  · cases as with
    | nil =>
      simp only [List.nil_append, List.cons.injEq] at hr
      exact hr.1
    | cons a as =>
      simp only [List.cons_append, List.cons.injEq] at hr
      obtain ⟨rfl, rfl⟩ := hr
      exact absurd (h2 b' (by simp) hb') (not_le.mpr (h1' b (by simp) hb))
  · cases bs with
    | nil =>
      simp only [List.nil_append, List.cons.injEq] at hr
      exact hr.1.symm
    | cons a bs =>
      simp only [List.cons_append, List.cons.injEq] at hr
      obtain ⟨rfl, rfl⟩ := hr
      exact absurd (h2' b (by simp) hb) (not_le.mpr (h1 b' (by simp) hb'))

end

/-- The loop from any accumulator: nothing beats it, or the first least
non-zero key below it wins. -/
theorem foldl_cases {key : β → ℕ} {val : γ → ℕ} {mk : β → γ} {step : γ → β → γ}
    (hval : ∀ b, val (mk b) = key b)
    (hstep : ∀ g b, step g b = if key b ≠ 0 ∧ key b < val g then mk b else g) :
    ∀ (l : List β) (g : γ), (l.foldl step g = g ∧ ∀ a ∈ l, key a ≠ 0 → val g ≤ key a) ∨
      ∃ b, FirstLeast key (fun a => key a ≠ 0 ∧ key a < val g) l b ∧ l.foldl step g = mk b := by
  intro l
  induction l with
  | nil => exact fun g => .inl ⟨rfl, by simp⟩
  | cons a l ih =>
    intro g
    rw [List.foldl_cons, hstep]
    by_cases ha : key a ≠ 0 ∧ key a < val g
    · rw [if_pos ha]
      rcases ih (mk a) with ⟨he, hall⟩ | ⟨b, ⟨l₁, l₂, rfl, hb, h1, h2⟩, he⟩
      · rw [hval] at hall
        exact .inr ⟨a, ⟨[], l, rfl, ha, by simp, fun c hc hok => hall c hc hok.1⟩, he⟩
      · rw [hval] at hb h1 h2
        have hbg : key b < val g := hb.2.trans ha.2
        refine .inr ⟨b, ⟨a :: l₁, l₂, rfl, ⟨hb.1, hbg⟩, fun c hc hok => ?_, fun c hc hok => ?_⟩, he⟩
        · rcases List.mem_cons.mp hc with rfl | hc
          · exact hb.2
          · by_cases hca : key c < key a
            · exact h1 c hc ⟨hok.1, hca⟩
            · exact hb.2.trans_le (not_lt.mp hca)
        · by_cases hca : key c < key a
          · exact h2 c hc ⟨hok.1, hca⟩
          · exact (hb.2.trans_le (not_lt.mp hca)).le
    · rw [if_neg ha]
      rcases ih g with ⟨he, hall⟩ | ⟨b, ⟨l₁, l₂, rfl, hb, h1, h2⟩, he⟩
      · refine .inl ⟨he, fun c hc hc0 => ?_⟩
        rcases List.mem_cons.mp hc with rfl | hc
        · exact not_lt.mp fun hlt => ha ⟨hc0, hlt⟩
        · exact hall c hc hc0
      · refine .inr ⟨b, ⟨a :: l₁, l₂, rfl, hb, fun c hc hok => ?_, h2⟩, he⟩
        rcases List.mem_cons.mp hc with rfl | hc
        · exact absurd hok ha
        · exact h1 c hc hok

end Least
end ComputeSideLog
