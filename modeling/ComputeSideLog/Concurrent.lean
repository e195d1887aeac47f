/-
# Appends that run at the same time

`write` of the interposed library looks the client up under `csl_lock` and
releases the lock before it calls `Append` (`src/csl.cc`), so calls on one
client overlap. `Append` (`src/rdma/client.cc`) touches the atomic
`buf_offset` three times: the clamp loads it, `fetch_add` reserves the range
`[cur_off, cur_off + size)`, and `file_size` takes the value it has by then.
This file interleaves any number of calls at these three points. A call
that runs with no other in between is `Client.append` (`exec_append`).

The clamp and the reservation use two values of `buf_offset`. Two calls that
load before either reserves are both clamped to the space that is left, and
together they can reserve more. A load is safe exactly if what the calls in
between ask for leaves room for it, or there is nothing left to share out
(`State.Room`): runs with such loads only keep the ranges disjoint, inside
the buffer and of the right total, and after any other load some order of
the reservations breaks this (`append_ranges`).

From `file_size` on a call is one step here (`settle`), since the ranges do
not depend on it. What is sent to the peers, and the race on the plain
`file_size`, are not in this file; `Threads.lean` takes each access as a step
of its own.
-/
import Mathlib.Algebra.Order.BigOperators.Group.List
import Mathlib.Data.List.Perm.Basic
import ComputeSideLog.Client
import ComputeSideLog.Lib.Tiles
import ComputeSideLog.Lib.Trace

namespace ComputeSideLog

/-- `Append` from its `memcpy` on, with `file_size` taken from the value of
`buf_offset` at that time. -/
def Client.settle (c : Client) (buf : List UInt8) (curOff size : ℕ) : Client :=
  { c.store buf curOff size with fileSize := max c.fileSize c.bufOffset }

namespace Concurrent

open Tiles

/-- A call between the load of its clamp and its `fetch_add`. -/
structure Clamped where
  buf : List UInt8
  size : ℕ

/-- A call after its `fetch_add`. -/
structure Reserved where
  buf : List UInt8
  curOff : ℕ
  size : ℕ

/-- The client and the calls on it, with the ranges of all calls so far in
the order of their reservations. -/
structure State where
  cli : Client
  clamped : List Clamped
  reserved : List Reserved
  ranges : List (ℕ × ℕ)

/-- A new call loads `buf_offset`, or one of the calls takes its next step. -/
inductive Event where
  | load (buf : List UInt8)
  | fetchAdd (i : ℕ)
  | settle (i : ℕ)

/-- The client before the calls. -/
def start (c : Client) : State := ⟨c, [], [], []⟩

/-- `buf_offset.fetch_add(size)`. -/
def fetchAdd (s : State) (i : ℕ) (p : Clamped) : State where
  cli := { s.cli with bufOffset := (s.cli.bufOffset + p.size) % 2 ^ 64 }
  clamped := s.clamped.eraseIdx i
  reserved := s.reserved ++ [⟨p.buf, s.cli.bufOffset, p.size⟩]
  ranges := s.ranges ++ [(s.cli.bufOffset, p.size)]

/-- One step of one call. -/
def step (s : State) : Event → Option State
  | .load buf =>
    some { s with clamped := s.clamped ++ [⟨buf, s.cli.clamp buf.length s.cli.bufOffset⟩] }
  | .fetchAdd i => s.clamped[i]?.map (fetchAdd s i)
  | .settle i => s.reserved[i]?.map fun p =>
    { s with cli := s.cli.settle p.buf p.curOff p.size, reserved := s.reserved.eraseIdx i }

/-- A call whose steps follow each other is the sequential `Append`. -/
theorem exec_append (s : State) (buf : List UInt8) :
    Trace.exec step s [.load buf, .fetchAdd s.clamped.length, .settle s.reserved.length] =
      some { s with
        cli := s.cli.append buf
        ranges := s.ranges ++ [(s.cli.bufOffset, s.cli.clamp buf.length s.cli.bufOffset)] } := by
  simp [Trace.exec, step, fetchAdd, List.eraseIdx_append_of_length_le, Client.settle, Client.append, Client.store]

/-! ### What the ranges must satisfy -/

/-- The ranges are disjoint and inside the buffer, and their lengths are the
way of `buf_offset` from `o`. -/
structure Sound (o : ℕ) (s : State) : Prop where
  disjoint : s.ranges.Pairwise fun r q => Disjoint (span r) (span q)
  inside : ∀ r ∈ s.ranges, span r ⊆ Set.Iio s.cli.buffer.size
  total : o + (s.ranges.map Prod.snd).sum = s.cli.bufOffset

namespace State

/-- The bytes asked for by the calls that have not reserved yet. -/
def asked (s : State) : ℕ := (s.clamped.map fun p => p.buf.length).sum

/-- The bytes these calls are going to reserve. -/
def held (s : State) : ℕ := (s.clamped.map Clamped.size).sum

/-- There is room for a load of `n` bytes beside the calls that have not
reserved yet: they asked for nothing, or all fit in what is left, or the
buffer is full and every clamp is 0. -/
def Room (s : State) (n : ℕ) : Prop :=
  n = 0 ∨ s.cli.bufOffset ≤ s.cli.buffer.size ∧
    (s.cli.bufOffset = s.cli.buffer.size ∨ s.asked = 0 ∨ n + s.asked ≤ s.cli.buffer.size - s.cli.bufOffset)

instance (s : State) (n : ℕ) : Decidable (s.Room n) := inferInstanceAs (Decidable (_ ∨ _))

end State

/-- Every load has room; the other steps are free. -/
def LoadsFit : State → Event → Prop
  | s, .load buf => s.Room buf.length
  | _, _ => True

instance : ∀ s e, Decidable (LoadsFit s e)
  | s, .load buf => inferInstanceAs (Decidable (s.Room buf.length))
  | _, .fetchAdd _ => instDecidableTrue
  | _, .settle _ => instDecidableTrue

/-! ### What a run keeps -/

/-- The invariant of runs in which every load has room. A call is clamped
below its request only to all that is left, which then stays as it is until
the call reserves it. -/
structure Inv (o : ℕ) (s : State) : Prop where
  lt : s.cli.bufOffset < 2 ^ 64
  laid : Laid o s.ranges s.cli.bufOffset
  inside : ∀ r ∈ s.ranges, span r ⊆ Set.Iio s.cli.buffer.size
  fits : s.held = 0 ∨ s.cli.bufOffset + s.held ≤ s.cli.buffer.size
  size_le : ∀ p ∈ s.clamped, p.size ≤ p.buf.length
  size_eq : ∀ p ∈ s.clamped, p.size = p.buf.length ∨
    s.cli.bufOffset ≤ s.cli.buffer.size ∧ p.size = s.cli.buffer.size - s.cli.bufOffset

variable {o : ℕ} {s t : State}

theorem Inv.start {c : Client} (hc : c.bufOffset < 2 ^ 64) : Inv c.bufOffset (start c) where
  lt := hc
  laid := rfl
  inside := fun _ hr => absurd hr List.not_mem_nil
  fits := .inl rfl
  size_le := fun _ hp => absurd hp List.not_mem_nil
  size_eq := fun _ hp => absurd hp List.not_mem_nil

theorem Inv.sound (h : Inv o s) : Sound o s := ⟨h.laid.pairwise_disjoint, h.inside, h.laid.total⟩

namespace State

theorem size_le_held {p : Clamped} (hp : p ∈ s.clamped) : p.size ≤ s.held :=
  List.le_sum_of_mem (List.mem_map_of_mem hp)

theorem length_le_asked {p : Clamped} (hp : p ∈ s.clamped) : p.buf.length ≤ s.asked :=
  List.le_sum_of_mem (List.mem_map_of_mem (f := fun p : Clamped => p.buf.length) hp)

/-- The call that reserves, and what the others hold. -/
theorem held_split {i : ℕ} {p : Clamped} (hi : s.clamped[i]? = some p) :
    s.held = p.size + ((s.clamped.eraseIdx i).map Clamped.size).sum := by
  obtain ⟨hlt, rfl⟩ := List.getElem?_eq_some_iff.mp hi
  exact ((List.getElem_cons_eraseIdx_perm hlt).map Clamped.size).sum_eq.symm

end State

/-- Every pending call got what it asked for, or one of them got all that is left. -/
theorem Inv.asked_cases (h : Inv o s) : s.held = s.asked ∨
    ∃ p ∈ s.clamped, s.cli.bufOffset ≤ s.cli.buffer.size ∧
      p.size = s.cli.buffer.size - s.cli.bufOffset ∧ p.size < p.buf.length := by
  by_cases hall : ∀ p ∈ s.clamped, p.size = p.buf.length
  · exact .inl (congrArg List.sum (List.map_congr_left hall))
  · push Not at hall
    obtain ⟨p, hp, hne⟩ := hall
    obtain ⟨hle, hsize⟩ := (h.size_eq p hp).resolve_left hne
    exact .inr ⟨p, hp, hle, hsize, lt_of_le_of_ne (h.size_le p hp) hne⟩

/-- There is room for a load exactly if what is held with it still fits. -/
theorem Inv.room_iff (h : Inv o s) (n : ℕ) : s.Room n ↔
    s.held + s.cli.clamp n s.cli.bufOffset = 0 ∨
      s.cli.bufOffset + (s.held + s.cli.clamp n s.cli.bufOffset) ≤ s.cli.buffer.size := by
  have hfits := h.fits
  have hsize := s.cli.buffer.size_lt
  have hlt := h.lt
  unfold State.Room Client.clamp
  rcases lt_or_ge s.cli.buffer.size s.cli.bufOffset with hout | hin
  · -- past the end the clamp is no clamp: only an empty call is safe
    have hpos : 0 < subSize s.cli.buffer.size s.cli.bufOffset := by
      unfold subSize
      omega
    omega
  · rw [subSize_of_le hin hsize]
    rcases h.asked_cases with heq | ⟨p, hp, -, hall, hless⟩
    · omega
    · have hheld := s.size_le_held hp
      have hasked := s.length_le_asked hp
      omega

/-- A load with room keeps the invariant. -/
theorem Inv.load (h : Inv o s) {buf : List UInt8} (hroom : s.Room buf.length) :
    Inv o { s with clamped := s.clamped ++ [⟨buf, s.cli.clamp buf.length s.cli.bufOffset⟩] } where
  lt := h.lt
  laid := h.laid
  inside := h.inside
  fits := by
    have hheld := (h.room_iff buf.length).mp hroom
    simpa [State.held] using hheld
  size_le := by
    intro p hp
    rcases List.mem_append.mp hp with hp | hp
    · exact h.size_le p hp
    · rw [List.mem_singleton.mp hp]
      exact min_le_left _ _
  size_eq := by
    intro p hp
    rcases List.mem_append.mp hp with hp | hp
    · exact h.size_eq p hp
    · rw [List.mem_singleton.mp hp]
      have hle : buf.length = 0 ∨ s.cli.bufOffset ≤ s.cli.buffer.size := hroom.imp_right And.left
      rcases hle with h0 | hle
      · exact .inl (by simp [Client.clamp, h0])
      · show min buf.length (subSize s.cli.buffer.size s.cli.bufOffset) = buf.length ∨ _ ∧
          min buf.length (subSize s.cli.buffer.size s.cli.bufOffset) = _
        rw [subSize_of_le hle s.cli.buffer.size_lt]
        rcases le_total buf.length (s.cli.buffer.size - s.cli.bufOffset) with hn | hn
        · exact .inl (min_eq_left hn)
        · exact .inr ⟨hle, min_eq_right hn⟩

/-- A reservation keeps the invariant. -/
theorem Inv.fetchAdd (h : Inv o s) {i : ℕ} {p : Clamped} (hi : s.clamped[i]? = some p) :
    Inv o (fetchAdd s i p) := by
  have hsplit := State.held_split hi
  have hfits := h.fits
  have hsize := s.cli.buffer.size_lt
  have hmod : (s.cli.bufOffset + p.size) % 2 ^ 64 = s.cli.bufOffset + p.size := by
    have := h.lt
    exact Nat.mod_eq_of_lt (by omega)
  have hsub : ∀ q ∈ s.clamped.eraseIdx i, q ∈ s.clamped := fun q hq => List.mem_of_mem_eraseIdx hq
  refine ⟨Nat.mod_lt _ (by decide), ?_, ?_, ?_, fun q hq => h.size_le q (hsub q hq), ?_⟩
  · show Laid o (s.ranges ++ [(s.cli.bufOffset, p.size)]) ((s.cli.bufOffset + p.size) % 2 ^ 64)
    rw [hmod]
    exact h.laid.snoc p.size
  · intro r hr
    rcases List.mem_append.mp hr with hr | hr
    · exact h.inside r hr
    · rw [List.mem_singleton.mp hr]
      exact span_subset_iff.mpr (by show p.size = 0 ∨ s.cli.bufOffset + p.size ≤ s.cli.buffer.size; omega)
  · show ((s.clamped.eraseIdx i).map Clamped.size).sum = 0 ∨
      (s.cli.bufOffset + p.size) % 2 ^ 64 + ((s.clamped.eraseIdx i).map Clamped.size).sum ≤ s.cli.buffer.size
    rw [hmod]
    omega
  · -- while a call holds all that is left, the others hold nothing
    intro q hq
    show q.size = q.buf.length ∨ (s.cli.bufOffset + p.size) % 2 ^ 64 ≤ s.cli.buffer.size ∧
      q.size = s.cli.buffer.size - (s.cli.bufOffset + p.size) % 2 ^ 64
    rw [hmod]
    have hother : q.size ≤ ((s.clamped.eraseIdx i).map Clamped.size).sum :=
      List.le_sum_of_mem (List.mem_map_of_mem hq)
    refine (h.size_eq q (hsub q hq)).imp_right fun hall => ?_
    omega

/-- A step of a run whose loads have room keeps the invariant. -/
theorem Inv.of_step {e : Event} (h : Inv o s) (hok : LoadsFit s e) (hs : step s e = some t) : Inv o t := by
  cases e with
  | load buf =>
    obtain rfl := Option.some.inj hs
    exact h.load hok
  | fetchAdd i =>
    obtain ⟨p, hi, rfl⟩ := Option.map_eq_some_iff.mp hs
    exact h.fetchAdd hi
  | settle i =>
    obtain ⟨p, -, rfl⟩ := Option.map_eq_some_iff.mp hs
    exact ⟨h.lt, h.laid, h.inside, h.fits, h.size_le, h.size_eq⟩

theorem inv_of_reach {c : Client} (hc : c.bufOffset < 2 ^ 64)
    (hs : Trace.Reach (Trace.restrict LoadsFit step) (start c) s) : Inv c.bufOffset s :=
  hs.inv_restrict (Inv.start hc) fun _ _ _ h hok he => h.of_step hok he

/-- Reservations alone keep the invariant. -/
theorem Inv.of_exec (h : Inv o s) {is : List ℕ} (hs : Trace.exec step s (is.map Event.fetchAdd) = some t) :
    Inv o t := by
  induction is generalizing s with
  | nil => exact Option.some.inj hs ▸ h
  | cons i is ih =>
    obtain ⟨u, hu, hs⟩ := Option.bind_eq_some_iff.mp hs
    exact ih (h.of_step (e := .fetchAdd i) trivial hu) hs

/-! ### Loads without room -/

/-- Calls that hold more than what is left can reserve past the end. -/
theorem exists_overrun {n : ℕ} (hn : s.clamped.length = n) (hlt : s.cli.bufOffset < 2 ^ 64)
    (hpos : 0 < s.held) (hmore : s.cli.buffer.size < s.cli.bufOffset + s.held) :
    ∃ (is : List ℕ) (u : State), Trace.exec step s (is.map Event.fetchAdd) = some u ∧
      ∃ r ∈ u.ranges, ¬ span r ⊆ Set.Iio u.cli.buffer.size := by
  induction n generalizing s with
  | zero =>
    rw [State.held, List.length_eq_zero_iff.mp hn] at hpos
    exact absurd hpos (lt_irrefl 0)
  | succ n ih =>
    obtain ⟨p, ps, hps⟩ := List.exists_cons_of_length_eq_add_one hn
    have hi : s.clamped[0]? = some p := by rw [hps]; rfl
    have hstep : step s (.fetchAdd 0) = some (fetchAdd s 0 p) := by rw [step, hi]; rfl
    by_cases hin : span (s.cli.bufOffset, p.size) ⊆ Set.Iio s.cli.buffer.size
    · -- this reservation is inside, so the rest still holds too much
      have hle : p.size = 0 ∨ s.cli.bufOffset + p.size ≤ s.cli.buffer.size := span_subset_iff.mp hin
      have hsize := s.cli.buffer.size_lt
      have hmod : (s.cli.bufOffset + p.size) % 2 ^ 64 = s.cli.bufOffset + p.size := Nat.mod_eq_of_lt (by omega)
      have hheld : s.held = p.size + (fetchAdd s 0 p).held := State.held_split hi
      have hoff : (fetchAdd s 0 p).cli.bufOffset = s.cli.bufOffset + p.size := hmod
      have hsame : (fetchAdd s 0 p).cli.buffer.size = s.cli.buffer.size := rfl
      have hlen : (fetchAdd s 0 p).clamped.length = n := by
        show (s.clamped.eraseIdx 0).length = n
        rw [hps] at hn ⊢
        exact Nat.succ.inj hn
      obtain ⟨is, u, hu, hr⟩ := ih hlen (by omega) (by omega) (by omega)
      refine ⟨0 :: is, u, ?_, hr⟩
      rw [List.map_cons, Trace.exec, hstep]
      exact hu
    · refine ⟨[0], fetchAdd s 0 p, ?_, _, List.mem_append_right _ (List.mem_singleton_self _), hin⟩
      rw [List.map_cons, Trace.exec, hstep]
      rfl

/-- **Concurrent appends.** In every run whose loads have room the ranges
are disjoint, inside the buffer and of the total that `buf_offset` moved.
For a load in such a run the condition is exact: it has room if and only if
every order of the reservations that follow keeps the ranges so. -/
theorem append_ranges (c : Client) (hc : c.bufOffset < 2 ^ 64) :
    (∀ s, Trace.Reach (Trace.restrict LoadsFit step) (start c) s → Sound c.bufOffset s) ∧
    ∀ s buf t, Trace.Reach (Trace.restrict LoadsFit step) (start c) s → step s (.load buf) = some t →
      (LoadsFit s (.load buf) ↔ ∀ (is : List ℕ) (u : State),
        Trace.exec step t (is.map Event.fetchAdd) = some u → Sound c.bufOffset u) := by
  refine ⟨fun s hs => (inv_of_reach hc hs).sound, fun s buf t hs ht => ⟨fun hok is u hu => ?_, fun hall => ?_⟩⟩
  · have hinv : Inv c.bufOffset t := (inv_of_reach hc hs).of_step hok ht
    exact (hinv.of_exec hu).sound
  · obtain rfl := Option.some.inj ht
    refine ((inv_of_reach hc hs).room_iff buf.length).mpr ?_
    by_contra hfull
    push Not at hfull
    obtain ⟨is, u, hu, r, hr, hout⟩ := exists_overrun
      (s := { s with clamped := s.clamped ++ [⟨buf, s.cli.clamp buf.length s.cli.bufOffset⟩] }) rfl
      (inv_of_reach hc hs).lt (by simpa [State.held] using Nat.pos_of_ne_zero hfull.1)
      (by simpa [State.held] using hfull.2)
    exact hout ((hall is u hu).inside r hr)

/-- A log of 24 bytes. -/
def smallLog : Client := Client.fresh ⟨24, by decide, by decide⟩

/-- Two calls that fit together and reserve in the other order. -/
theorem append_ranges_smallLog : ∃ s, Trace.Reach (Trace.restrict LoadsFit step) (start smallLog) s ∧
    s.ranges = [(0, 12), (12, 10)] ∧ Sound 0 s := by
  have hrun : ∃ s, Trace.Reach (Trace.restrict LoadsFit step) (start smallLog) s ∧
      s.ranges = [(0, 12), (12, 10)] := Trace.exists_reach_of_exec
    [.load (List.replicate 10 1), .load (List.replicate 12 2), .fetchAdd 1, .fetchAdd 0, .settle 1] (by decide)
  obtain ⟨s, hs, hr⟩ := hrun
  exact ⟨s, hs, hr, (append_ranges smallLog (by decide)).1 s hs⟩

/-- Two calls of 16 bytes that both load before they reserve keep their 16
bytes, and the second one reserves `[16, 32)` of the 24. -/
theorem append_past_the_end : ∃ s, Trace.Reach step (start smallLog) s ∧ ¬ Sound smallLog.bufOffset s := by
  have hrun : ∃ s, Trace.Reach step (start smallLog) s ∧ s.ranges = [(0, 16), (16, 16)] ∧ s.cli.buffer.size = 24 :=
    Trace.exists_reach_of_exec
      [.load (List.replicate 16 1), .load (List.replicate 16 2), .fetchAdd 0, .fetchAdd 0] (by decide)
  obtain ⟨s, hs, hr⟩ := hrun
  refine ⟨s, hs, fun h => ?_⟩
  have hin : span (16, 16) ⊆ Set.Iio s.cli.buffer.size := h.inside _ (by simp [hr.1])
  have hle := span_subset_iff.mp hin
  omega

end Concurrent
end ComputeSideLog
