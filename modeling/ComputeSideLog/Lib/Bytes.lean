/-
# Byte memories

A memory gives a byte to every position; a buffer, a remote region and a
snapshot of either are memories. `Mem.copy` moves a range from one memory to
the same place of another (a `memcpy`, an RDMA write), `Mem.write` stores a
list of bytes, and `Mem.putLE` / `Mem.getLE` store and load a little-endian
word (`Mem.getLE_putLE`). `Mem.used` is the length up to the last non-zero
byte below a bound, found by scanning down (`Mem.used_le_iff`).
-/
import Mathlib.Data.Nat.ModEq
import Mathlib.Tactic.Ring

namespace ComputeSideLog

/-- The byte at every position. -/
abbrev Mem := ℕ → UInt8

namespace Mem

/-- The zeroed memory. -/
def zero : Mem := fun _ => 0

/-- `dst` with the range `[off, off + len)` taken from `src`. -/
def copy (dst src : Mem) (off len : ℕ) : Mem :=
  fun x => if off ≤ x ∧ x < off + len then src x else dst x

/-- `m` with the bytes `bs` stored from `off` on. -/
def write (m : Mem) (off : ℕ) (bs : List UInt8) : Mem :=
  fun x => if off ≤ x ∧ x < off + bs.length then bs.getD (x - off) 0 else m x

/-- `m` with the `w` low bytes of `v` stored at `off`, least significant first. -/
def putLE (m : Mem) (off w v : ℕ) : Mem :=
  fun x => if off ≤ x ∧ x < off + w then UInt8.ofNat (v / 256 ^ (x - off)) else m x

/-- The `w`-byte little-endian word at `off`. -/
def getLE (m : Mem) (off : ℕ) : ℕ → ℕ
  | 0 => 0
  | w + 1 => (m off).toNat + 256 * getLE m (off + 1) w

/-- The length up to the last non-zero byte below `n`. -/
def used (m : Mem) : ℕ → ℕ
  | 0 => 0
  | n + 1 => if m n ≠ 0 then n + 1 else used m n

@[simp] theorem zero_apply (x : ℕ) : zero x = 0 := rfl

/-! ### Copies -/

theorem copy_in {dst src : Mem} {off len x : ℕ} (h : off ≤ x ∧ x < off + len) :
    dst.copy src off len x = src x := if_pos h

theorem copy_out {dst src : Mem} {off len x : ℕ} (h : ¬ (off ≤ x ∧ x < off + len)) :
    dst.copy src off len x = dst x := if_neg h

theorem write_out {m : Mem} {off x : ℕ} {bs : List UInt8} (h : ¬ (off ≤ x ∧ x < off + bs.length)) :
    m.write off bs x = m x := if_neg h

theorem write_in {m : Mem} {off x : ℕ} {bs : List UInt8} (h : off ≤ x ∧ x < off + bs.length) :
    m.write off bs x = bs.getD (x - off) 0 := if_pos h

theorem putLE_out {m : Mem} {off w v x : ℕ} (h : ¬ (off ≤ x ∧ x < off + w)) :
    m.putLE off w v x = m x := if_neg h

theorem putLE_in {m : Mem} {off w v x : ℕ} (h : off ≤ x ∧ x < off + w) :
    m.putLE off w v x = UInt8.ofNat (v / 256 ^ (x - off)) := if_pos h

/-- Copying a range that already agrees changes nothing. -/
theorem copy_eq_self {dst src : Mem} {off len : ℕ}
    (h : ∀ x, off ≤ x → x < off + len → src x = dst x) : dst.copy src off len = dst := by
  funext x
  by_cases hx : off ≤ x ∧ x < off + len
  · rw [copy_in hx, h x hx.1 hx.2]
  · rw [copy_out hx]

/-! ### Words -/

theorem getLE_congr {m m' : Mem} {w off : ℕ} (h : ∀ x, off ≤ x → x < off + w → m x = m' x) :
    getLE m off w = getLE m' off w := by
  induction w generalizing off with
  | zero => rfl
  | succ w ih => rw [getLE, getLE, h off le_rfl (by omega), ih fun x h1 h2 => h x (by omega) (by omega)]

/-- Bytes that are those of `v` load as `v`, modulo the width. -/
theorem getLE_of_bytes {m : Mem} {w off v : ℕ} (h : ∀ i, i < w → m (off + i) = UInt8.ofNat (v / 256 ^ i)) :
    getLE m off w = v % 256 ^ w := by
  induction w generalizing off v with
  | zero => simp [getLE, Nat.mod_one]
  | succ w ih =>
    have h0 : (m off).toNat = v % 256 := by
      have := h 0 (by omega)
      simp only [Nat.add_zero, pow_zero, Nat.div_one] at this
      rw [this, UInt8.toNat_ofNat']
    have hrest : getLE m (off + 1) w = v / 256 % 256 ^ w := by
      refine ih fun i hi => ?_
      rw [Nat.add_assoc, Nat.add_comm 1 i, h (i + 1) (by omega), Nat.div_div_eq_div_mul, pow_succ']
    rw [getLE, h0, hrest, pow_succ', Nat.mod_mul]

theorem getLE_putLE (m : Mem) (off w v : ℕ) : getLE (m.putLE off w v) off w = v % 256 ^ w := by
  refine getLE_of_bytes fun i hi => ?_
  rw [putLE_in ⟨by omega, by omega⟩, Nat.add_sub_cancel_left]

theorem getLE_zero (w off : ℕ) : getLE zero off w = 0 := by
  induction w generalizing off with
  | zero => rfl
  | succ w ih => simp [getLE, ih]

/-! ### The used length -/

theorem used_le (m : Mem) (n : ℕ) : used m n ≤ n := by
  induction n with
  | zero => exact le_rfl
  | succ n ih =>
    unfold used
    split
    · exact le_rfl
    · exact ih.trans (Nat.le_succ n)

/-- Everything between the used length and the bound is zero. -/
theorem zero_of_used_le (m : Mem) (n x : ℕ) (h1 : used m n ≤ x) (h2 : x < n) : m x = 0 := by
  induction n with
  | zero => exact absurd h2 (Nat.not_lt_zero x)
  | succ n ih =>
    unfold used at h1
    split at h1
    · omega
    · rename_i h0
      rcases Nat.lt_succ_iff_lt_or_eq.mp h2 with h2 | rfl
      · exact ih h1 h2
      · exact not_not.mp h0

/-- The last byte of the used length is not zero. -/
theorem used_last (m : Mem) (n : ℕ) : used m n = 0 ∨ m (used m n - 1) ≠ 0 := by
  induction n with
  | zero => exact .inl rfl
  | succ n ih =>
    unfold used
    split
    · rename_i h0
      exact .inr h0
    · exact ih

/-- `used m n` is the least length after which the bytes below `n` are zero. -/
theorem used_le_iff {m : Mem} {n k : ℕ} : used m n ≤ k ↔ ∀ x, k ≤ x → x < n → m x = 0 := by
  constructor
  · exact fun h x hk hx => zero_of_used_le m n x (h.trans hk) hx
  · intro h
    rcases used_last m n with h0 | hl
    · omega
    · by_contra hc
      exact hl (h _ (by omega) (by have := used_le m n; omega))

theorem used_congr {m m' : Mem} {n : ℕ} (h : ∀ x, x < n → m x = m' x) : used m n = used m' n := by
  refine le_antisymm (used_le_iff.mpr fun x h1 h2 => ?_) (used_le_iff.mpr fun x h1 h2 => ?_)
  · rw [h x h2]
    exact zero_of_used_le m' n x h1 h2
  · rw [← h x h2]
    exact zero_of_used_le m n x h1 h2

/-- A length after which all is zero and whose last byte is not is the used length. -/
theorem used_eq_of_last {m : Mem} {n k : ℕ} (hk : k ≤ n) (hz : ∀ x, k ≤ x → x < n → m x = 0)
    (hl : k = 0 ∨ m (k - 1) ≠ 0) : used m n = k := by
  refine le_antisymm (used_le_iff.mpr hz) ?_
  rcases hl with rfl | hl
  · exact Nat.zero_le _
  · by_contra hc
    exact hl (zero_of_used_le m n _ (by omega) (by omega))

end Mem
end ComputeSideLog
