/-
# Remote writes that read their source late

A posted write names a range; the network card reads the bytes of the range
from the source, each at some time after the post, and the write lands at
the destination when all are read. Meanwhile the source changes: its history
is a sequence of memories `img 0, img 1, …`, and `born` is the time at which
a write was posted. If every byte read is one the source had at or after the
post (`Op.Loaded`), and writes land in the order of their posts, then the
destination holds, byte by byte, a value the source had no earlier than the
post of any landed write that covers the byte (`landAll_image`). A
destination that was sent every change up to time `c` is therefore up to
date with `c` (`landAll_current`).

What a destination will hold if the source stays as it is (`due`) does not
depend on when the rest is read and lands.
-/
import Mathlib.Data.List.Basic
import ComputeSideLog.Lib.Bytes

namespace ComputeSideLog
namespace Dma

variable {τ : Type*}

/-- A posted write: its range, its tag, when it was posted, and the source
bytes read so far. -/
structure Op (τ : Type*) where
  off : ℕ
  len : ℕ
  tag : τ
  born : ℕ
  buf : ℕ → Option UInt8

namespace Op

/-- The write covers position `x`. -/
def Covers (o : Op τ) (x : ℕ) : Prop := o.off ≤ x ∧ x < o.off + o.len

instance (o : Op τ) (x : ℕ) : Decidable (o.Covers x) := inferInstanceAs (Decidable (_ ∧ _))

/-- The card reads the bytes `[off, off + len)` that it has not read yet. -/
def fetch (o : Op τ) (src : Mem) (off len : ℕ) : Op τ :=
  { o with buf := fun x => if (off ≤ x ∧ x < off + len) ∧ o.buf x = none then some (src x) else o.buf x }

/-- All bytes of the range are read. -/
def Ready (o : Op τ) : Prop := ∀ x, o.off ≤ x → x < o.off + o.len → (o.buf x).isSome

instance (o : Op τ) : Decidable o.Ready :=
  inferInstanceAs (Decidable (∀ x, o.off ≤ x → x < o.off + o.len → (o.buf x).isSome))

/-- The destination after the write lands. -/
def land (o : Op τ) (m : Mem) : Mem := m.copy (fun x => (o.buf x).getD 0) o.off o.len

/-- What is read so far is from the source's history, at or after the post. -/
def Faithful (img : ℕ → Mem) (n : ℕ) (o : Op τ) : Prop :=
  ∀ x v, o.buf x = some v → ∃ j, o.born ≤ j ∧ j ≤ n ∧ v = img j x

/-- The whole range is read, faithfully. -/
def Loaded (img : ℕ → Mem) (n : ℕ) (o : Op τ) : Prop :=
  ∀ x, o.Covers x → ∃ j, o.born ≤ j ∧ j ≤ n ∧ o.buf x = some (img j x)

section

variable {img : ℕ → Mem} {n : ℕ} {o : Op τ}

/-- What is read stays. -/
theorem fetch_buf {x : ℕ} {v : UInt8} (h : o.buf x = some v) (src : Mem) (off len : ℕ) :
    (o.fetch src off len).buf x = some v := by
  simp [fetch, h]

theorem Ready.fetch (h : o.Ready) (src : Mem) (off len : ℕ) : (o.fetch src off len).Ready := by
  intro x h1 h2
  obtain ⟨v, hv⟩ := Option.isSome_iff_exists.mp (h x h1 h2)
  rw [fetch_buf hv]
  rfl

theorem Faithful.loaded (h : o.Faithful img n) (hr : o.Ready) : o.Loaded img n := by
  intro x hx
  obtain ⟨v, hv⟩ := Option.isSome_iff_exists.mp (hr x hx.1 hx.2)
  obtain ⟨j, h1, h2, rfl⟩ := h x v hv
  exact ⟨j, h1, h2, hv⟩

theorem Faithful.mono {img' : ℕ → Mem} {n' : ℕ} (h : o.Faithful img n) (hn : n ≤ n')
    (hi : ∀ j, j ≤ n → img' j = img j) : o.Faithful img' n' := by
  intro x v hv
  obtain ⟨j, h1, h2, rfl⟩ := h x v hv
  exact ⟨j, h1, h2.trans hn, by rw [hi j h2]⟩

theorem Loaded.mono {img' : ℕ → Mem} {n' : ℕ} (h : o.Loaded img n) (hn : n ≤ n')
    (hi : ∀ j, j ≤ n → img' j = img j) : o.Loaded img' n' := by
  intro x hx
  obtain ⟨j, h1, h2, h3⟩ := h x hx
  exact ⟨j, h1, h2.trans hn, by rw [hi j h2, h3]⟩

/-- Reading from a source that is at `img` at or after the post is faithful. -/
theorem Faithful.fetch (h : o.Faithful img n) {src : Mem}
    (hsrc : ∀ x, ∃ j, o.born ≤ j ∧ j ≤ n ∧ src x = img j x) (off len : ℕ) :
    (o.fetch src off len).Faithful img n := by
  intro x v hv
  simp only [Op.fetch] at hv
  split at hv
  · obtain ⟨j, h1, h2, h3⟩ := hsrc x
    exact ⟨j, h1, h2, by rw [← h3, Option.some.inj hv]⟩
  · exact h x v hv

end

end Op

/-! ### A queue of writes -/

/-- Reading for one write of a queue keeps the others. -/
theorem mem_modify {f : Op τ → Op τ} : ∀ {os : List (Op τ)} {k : ℕ} {o : Op τ}, o ∈ os.modify k f →
    ∃ o₀ ∈ os, o = o₀ ∨ o = f o₀
  | [], _, _, h => by simp at h
  | o₁ :: os, 0, o, h => by
    rcases List.mem_cons.mp h with rfl | h
    · exact ⟨o₁, List.mem_cons_self, .inr rfl⟩
    · exact ⟨o, List.mem_cons_of_mem _ h, .inl rfl⟩
  | o₁ :: os, k + 1, o, h => by
    rcases List.mem_cons.mp h with rfl | h
    · exact ⟨o, List.mem_cons_self, .inl rfl⟩
    · have h : o ∈ os.modify k f := h
      obtain ⟨o₀, h0, h1⟩ := mem_modify h
      exact ⟨o₀, List.mem_cons_of_mem _ h0, h1⟩

/-- The fields that reading does not change. -/
theorem map_modify_fetch {γ : Type*} {g : Op τ → γ} {src : Mem} {off len : ℕ}
    (hg : ∀ o : Op τ, g (o.fetch src off len) = g o) : ∀ (os : List (Op τ)) (k : ℕ),
    (os.modify k fun o => o.fetch src off len).map g = os.map g
  | [], _ => by simp
  | o :: os, 0 => by simp [hg]
  | o :: os, k + 1 => by simp [map_modify_fetch hg os k]

theorem take_modify_of_le {f : Op τ → Op τ} {os : List (Op τ)} {j k : ℕ} (h : j ≤ k) :
    (os.modify k f).take j = os.take j := by
  rw [List.take_modify]
  exact List.modify_eq_self ((List.length_take_le _ _).trans h)

/-! ### The destination -/

/-- The destination after the writes, the latest first, from `m` on. -/
def landAll (m : Mem) : List (Op τ) → Mem
  | [] => m
  | o :: os => o.land (landAll m os)

theorem landAll_append (m : Mem) : ∀ os os' : List (Op τ), landAll m (os ++ os') = landAll (landAll m os') os
  | [], _ => rfl
  | o :: os, os' => by rw [List.cons_append, landAll, landAll, landAll_append m os os']

/-- In the order of the posts, landing is a left fold. -/
theorem landAll_reverse : ∀ (os : List (Op τ)) (m : Mem), landAll m os.reverse = os.foldl (fun m o => o.land m) m
  | [], _ => rfl
  | o :: os, m => by
    rw [List.reverse_cons, landAll_append, List.foldl_cons]
    exact landAll_reverse os (o.land m)

/-- The writes, the latest first, are in the order of their posts. -/
def Ordered (os : List (Op τ)) : Prop := os.Pairwise fun o o' => o'.born ≤ o.born

section

variable {img : ℕ → Mem} {n : ℕ}

/-- **What late reads leave at the destination**: at every position a value
of the source no older than the post of any write that covers it. -/
theorem landAll_image : ∀ {os : List (Op τ)}, Ordered os → (∀ o ∈ os, o.Loaded img n) → ∀ x : ℕ,
    ∃ j, j ≤ n ∧ landAll (img 0) os x = img j x ∧ ∀ o ∈ os, o.Covers x → o.born ≤ j := by
  intro os
  induction os with
  | nil => exact fun _ _ x => ⟨0, Nat.zero_le _, rfl, by simp⟩
  | cons o os ih =>
    intro hs hl x
    obtain ⟨hfirst, hrest⟩ := List.pairwise_cons.mp hs
    by_cases hx : o.Covers x
    · obtain ⟨j, h1, h2, h3⟩ := hl o List.mem_cons_self x hx
      refine ⟨j, h2, ?_, fun o' ho' _ => ?_⟩
      · rw [landAll, Op.land, Mem.copy_in hx, h3, Option.getD_some]
      · rcases List.mem_cons.mp ho' with rfl | ho'
        · exact h1
        · exact (hfirst o' ho').trans h1
    · obtain ⟨j, h1, h2, h3⟩ := ih hrest (fun o' ho' => hl o' (List.mem_cons_of_mem _ ho')) x
      refine ⟨j, h1, ?_, fun o' ho' hx' => ?_⟩
      · rw [landAll, Op.land, Mem.copy_out hx, h2]
      · rcases List.mem_cons.mp ho' with rfl | ho'
        · exact absurd hx' hx
        · exact h3 o' ho' hx'

/-- Every byte has a last change, after which the history is constant. -/
theorem exists_last_change (img : ℕ → Mem) (x c : ℕ) : ∃ c', c' ≤ c ∧
    (∀ j, c' ≤ j → j ≤ c → img j x = img c x) ∧ (c' = 0 ∨ img (c' - 1) x ≠ img c' x) := by
  induction c with
  | zero => exact ⟨0, le_rfl, fun j _ h => by rw [Nat.le_zero.mp h], .inl rfl⟩
  | succ c ih =>
    by_cases hx : img c x = img (c + 1) x
    · obtain ⟨c', h1, h2, h3⟩ := ih
      refine ⟨c', h1.trans c.le_succ, fun j hj hjc => ?_, h3⟩
      rcases Nat.le_succ_iff.mp hjc with hjc | rfl
      · exact (h2 j hj hjc).trans hx
      · rfl
    · exact ⟨c + 1, le_rfl, fun j h1 h2 => by rw [le_antisymm h2 h1], .inr hx⟩

/-- **A destination that was sent every change is up to date.** If each change
of byte `x` up to time `c` was sent by a write posted at or after it, the
destination holds a value of `x` no older than `c`. -/
theorem landAll_current {os : List (Op τ)} (hs : Ordered os) (hl : ∀ o ∈ os, o.Loaded img n) {c x : ℕ}
    (hc : c ≤ n) (hsent : ∀ c', 0 < c' → c' ≤ c → img (c' - 1) x ≠ img c' x →
      ∃ o ∈ os, o.Covers x ∧ c' ≤ o.born) :
    ∃ j, c ≤ j ∧ j ≤ n ∧ landAll (img 0) os x = img j x := by
  obtain ⟨j, hj, hval, hborn⟩ := landAll_image hs hl x
  obtain ⟨c', hc', hconst, hlast⟩ := exists_last_change img x c
  have hge : c' ≤ j := by
    rcases hlast with h0 | hne
    · omega
    · rcases Nat.eq_zero_or_pos c' with h0 | hpos
      · omega
      · obtain ⟨o, ho, hx, hob⟩ := hsent c' hpos hc' hne
        exact hob.trans (hborn o ho hx)
  by_cases hjc : c ≤ j
  · exact ⟨j, hjc, hj, hval⟩
  · exact ⟨c, le_rfl, hc, by rw [hval, hconst j hge (by omega)]⟩

end

/-! ### What is still due -/

/-- The destination after the write, with what is not read yet from the source as
it is now. -/
def Op.landNow (o : Op τ) (src m : Mem) : Mem := m.copy (fun x => (o.buf x).getD (src x)) o.off o.len

theorem Op.landNow_apply (o : Op τ) (src m : Mem) (x : ℕ) :
    o.landNow src m x = if o.Covers x then (o.buf x).getD (src x) else m x := rfl

/-- What the destination `m` will hold after the writes, in the order of their
posts, if the source stays as it is. -/
def due (src m : Mem) (os : List (Op τ)) : Mem := os.foldl (fun m o => o.landNow src m) m

section Due

variable {src src' m m' : Mem} {os os' : List (Op τ)} {o : Op τ} {x : ℕ}

theorem due_append : due src m (os ++ os') = due src (due src m os) os' := List.foldl_append ..

/-- A byte that is due depends on the source at its position only. -/
theorem due_congr (hs : src x = src' x) (hm : m x = m' x) : due src m os x = due src' m' os x := by
  induction os generalizing m m' with
  | nil => exact hm
  | cons o os ih =>
    refine ih ?_
    show o.landNow src m x = o.landNow src' m' x
    rw [Op.landNow_apply, Op.landNow_apply, hs, hm]

/-- Reading now what is to be read anyway changes nothing. -/
theorem due_fetch (k off len : ℕ) : due src m (os.modify k fun o => o.fetch src off len) = due src m os := by
  have hone : ∀ o : Op τ, (o.fetch src off len).landNow src = o.landNow src := by
    intro o
    funext m x
    have hread : ((o.fetch src off len).buf x).getD (src x) = (o.buf x).getD (src x) := by
      unfold Op.fetch
      dsimp only
      split
      · rename_i hnone
        rw [hnone.2]
        rfl
      · rfl
    rw [Op.landNow_apply, Op.landNow_apply, hread]
    rfl
  induction os generalizing k m with
  | nil => simp
  | cons o os ih =>
    cases k with
    | zero =>
      show due src ((o.fetch src off len).landNow src m) os = due src (o.landNow src m) os
      rw [hone]
    | succ k => exact ih k

/-- Nor does landing a write that is read. -/
theorem due_land (h : o.Ready) : due src (o.land m) os = due src m (o :: os) := by
  have hland : o.land m = o.landNow src m := by
    funext y
    by_cases hy : o.Covers y
    · obtain ⟨v, hv⟩ := Option.isSome_iff_exists.mp (h y hy.1 hy.2)
      rw [Op.landNow_apply, if_pos hy, Op.land, Mem.copy_in hy, hv]
      rfl
    · rw [Op.landNow_apply, if_neg hy, Op.land, Mem.copy_out hy]
  rw [hland]
  rfl

/-- A write just posted brings the source as it is. -/
theorem due_post (h : o.buf x = none) :
    due src m (os ++ [o]) x = if o.Covers x then src x else due src m os x := by
  rw [due_append]
  show o.landNow src (due src m os) x = _
  rw [Op.landNow_apply, h]
  rfl

end Due

end Dma
end ComputeSideLog
