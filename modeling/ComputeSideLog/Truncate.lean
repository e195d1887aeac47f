/-
# Truncated data and recovery

`Truncate` changes the client's own fields and buffer; nothing is sent to the
peers. Opening the path again with `O_TRUNC` hands out the client that the
path already has (`getClient` in `src/csl.cc`), and after a crash a new
client without `TryRecover`, while the servers keep the region of a file
they know. So the bytes cut off are still on the peers, and the next
`TryRecover` reads them from there.

`step` is the file under writes, truncations and openings, each write
applied at every peer, and `Safe` says what a recovery after a crash at this
point may bring back. It holds in every run that never cuts off a non-zero
byte (`Keeps`), and one step that does is enough to break it.

Key definitions: `Truncation.step`, `Truncation.Safe`, `Truncation.Keeps`.
Key theorems: `Truncation.Synced.step`, `Truncation.Synced.safe`,
`Truncation.truncated_recovery`.
-/
import ComputeSideLog.Lib.Trace
import ComputeSideLog.Recover
import ComputeSideLog.Ops

namespace ComputeSideLog
namespace Truncation

variable {α : Type*}

/-- What happens to the file: a write call, `Truncate`, an opening with
`O_TRUNC` by the process that has it open, and one by the process that starts
after a crash. -/
inductive Event where
  | write (w : Call)
  | truncate (len : ℕ)
  | reopen
  | restart
  deriving DecidableEq, Repr

/-- The client and its peers, with no write outstanding. -/
abbrev State (α : Type*) := Client × List (Peer α)

/-- A client constructed for a file that no server knows. -/
def init (L : Layout) (addrs : List α) : State α :=
  (Client.fresh L, addrs.map fun a => ⟨a, L.region Mem.zero⟩)

/-- One event. `getClient` looks at the flags of an opening only to construct a
client. -/
def step (L : Layout) (s : State α) : Event → Option (State α)
  | .write w =>
    some (s.1.call w, s.2.map fun p => p.apply ((s.1.call w).writeTwoPlace (w.off s.1) (w.size s.1)))
  | .truncate len => if len ≤ s.1.fileSize then some (s.1.truncate len, s.2) else none
  | .reopen => some s
  | .restart => some (Client.fresh L, s.2)

/-- What a client recovers after a crash here is no longer than the file, and
its bytes are the file's. -/
def Safe [DecidableEq α] (L : Layout) (s : State α) : Prop :=
  ((Client.fresh L).recovered s.2).fileSize ≤ s.1.fileSize ∧
    ∀ x, x < ((Client.fresh L).recovered s.2).fileSize →
      ((Client.fresh L).recovered s.2).buffer.mem x = s.1.buffer.mem x

instance [DecidableEq α] (L : Layout) (s : State α) : Decidable (Safe L s) :=
  inferInstanceAs (Decidable (_ ∧ ∀ x, x < _ → _))

/-- The event cuts off zeros only: nothing else lies past the new length in the
client's buffer, nor in the region a new client takes over. -/
def Keeps (L : Layout) (s : State α) : Event → Prop
  | .truncate len => ∀ x, x < L.seqOffset → len ≤ x → s.1.buffer.mem x = 0
  | .restart => ∀ p ∈ s.2, ∀ x, x < L.seqOffset → p.buffer.mem x = 0
  | _ => True

instance (L : Layout) (s : State α) : ∀ ev, Decidable (Keeps L s ev)
  | .truncate len =>
    inferInstanceAs (Decidable (∀ x, x < L.seqOffset → len ≤ x → s.1.buffer.mem x = 0))
  | .restart => inferInstanceAs (Decidable (∀ p ∈ s.2, ∀ x, x < L.seqOffset → p.buffer.mem x = 0))
  | .write _ => instDecidableTrue
  | .reopen => instDecidableTrue

/-! ### The data region of client and peers -/

/-- The geometry of a client on a region of the layout. -/
structure Fits (L : Layout) (c : Client) : Prop where
  size : c.buffer.size = L.size
  offset : c.seqOffset = L.seqOffset
  addr : c.seqAddr = L.seqOffset
  fileSize_lt : c.fileSize < 2 ^ 64

theorem fits_fresh (L : Layout) : Fits L (Client.fresh L) where
  size := rfl
  offset := Client.fresh_seqOffset L
  addr := Client.fresh_seqOffset L
  fileSize_lt := by
    show 0 < 2 ^ 64
    norm_num

section

variable {L : Layout} {c : Client}

theorem Fits.call (h : Fits L c) (w : Call) : Fits L (c.call w) where
  size := by rw [Client.call_size, h.size]
  offset := by rw [Client.call_seqOffset, h.offset]
  addr := by rw [Client.call_seqAddr, h.addr]
  fileSize_lt := by
    rw [Client.call_fileSize]
    exact max_lt h.fileSize_lt (Nat.mod_lt _ (by norm_num))

theorem Fits.truncate (h : Fits L c) (len : ℕ) : Fits L (c.truncate len) := by
  obtain ⟨off, m, he⟩ := Client.truncate_frame (c := c) (len : ℤ)
  rw [he]
  exact ⟨h.size, h.offset, h.addr, toSize_lt (len : ℤ)⟩

/-- A write that starts in the buffer ends in it. -/
theorem Fits.end_le (h : Fits L c) {w : Call} (hoff : w.off c ≤ L.size) : w.off c + w.size c ≤ L.size := by
  have hle : w.size c ≤ subSize c.buffer.size (w.off c) := min_le_right _ _
  rw [h.size, subSize_of_le hoff L.size_lt] at hle
  omega

/-- The bytes of the data region that a call writes end at the new `file_size`. -/
theorem Fits.lt_fileSize (h : Fits L c) {w : Call} {x : ℕ} (hx : x < L.seqOffset)
    (hin : w.off c ≤ x ∧ x < w.off c + w.size c) : x < (c.call w).fileSize := by
  have hlay := L.seqOffset_add
  have hlt := L.size_lt
  have hend := h.end_le (w := w) (by omega)
  rw [Client.call_fileSize, Nat.mod_eq_of_lt (by omega)]
  exact lt_max_of_lt_right hin.2

/-- Outside of what it writes, a call keeps the data region. -/
theorem Fits.call_mem (h : Fits L c) {w : Call} {x : ℕ} (hx : x < L.seqOffset)
    (hout : ¬ (w.off c ≤ x ∧ x < w.off c + w.size c)) : (c.call w).buffer.mem x = c.buffer.mem x := by
  refine Client.call_mem_off ?_
  rintro (h1 | h1)
  · exact hout h1
  · rw [h.addr] at h1
    omega

/-- The pair of a call copies to a peer what the call wrote. -/
theorem Fits.pair_apply (h : Fits L c) (hL : L.size < 2 ^ 32) {w : Call} {x : ℕ} (hx : x < L.seqOffset)
    {m : Mem} (hm : m x = c.buffer.mem x) :
    applyAll m ((c.call w).writeTwoPlace (w.off c) (w.size c)) x = (c.call w).buffer.mem x := by
  have hlay := L.seqOffset_add
  rw [applyAll_writeTwoPlace, Client.call_seqOffset, h.offset]
  rw [Mem.copy_out (by omega)]
  by_cases hin : w.off c ≤ x ∧ x < w.off c + w.size c
  · have hend := h.end_le (w := w) (by omega)
    rw [Nat.mod_eq_of_lt (by omega), Mem.copy_in hin]
  · have hmod := Nat.mod_le (w.size c) (2 ^ 32)
    rw [Mem.copy_out (by omega), hm, h.call_mem hx hin]

/-- Where a truncation clears, and where not. -/
theorem truncate_mem (len : ℕ) (hlen : len < 2 ^ 64) (x : ℕ) : (c.truncate len).buffer.mem x =
    if len ≤ x ∧ x < c.bufOffset then 0 else c.buffer.mem x := by
  unfold Client.truncate
  simp only [toSize_natCast hlen]
  by_cases hlt : len < c.bufOffset
  · rw [if_pos hlt]
    simp only [Mem.clear, Mem.copy, Nat.add_sub_cancel' hlt.le, Mem.zero_apply]
  · rw [if_neg hlt, if_neg (by omega)]

end

/-- What holds as long as nothing but zeros is cut off: the peers hold the
client's data region, which is zero past `file_size`. -/
structure Synced (L : Layout) (s : State α) : Prop where
  fits : Fits L s.1
  fleet : Fleet L s.2
  same : ∀ p ∈ s.2, ∀ x, x < L.seqOffset → p.buffer.mem x = s.1.buffer.mem x
  clean : ∀ x, x < L.seqOffset → s.1.fileSize ≤ x → s.1.buffer.mem x = 0

theorem synced_init (L : Layout) {addrs : List α} (hn : addrs.Nodup) : Synced L (init L addrs) where
  fits := fits_fresh L
  fleet :=
    { nodup := by simpa [init, Function.comp_def] using hn
      size := by
        intro p hp
        obtain ⟨a, -, rfl⟩ := List.mem_map.mp hp
        rfl }
  same := by
    intro p hp x _
    obtain ⟨a, -, rfl⟩ := List.mem_map.mp hp
    rfl
  clean := fun _ _ _ => rfl

section

variable {L : Layout} {s t : State α}

theorem Synced.write (h : Synced L s) (hL : L.size < 2 ^ 32) (w : Call) (hs : step L s (.write w) = some t) :
    Synced L t := by
  simp only [step, Option.some.injEq] at hs
  subst hs
  refine ⟨h.fits.call w, ⟨?_, ?_⟩, ?_, fun x hx hf => ?_⟩
  · simpa [Function.comp_def] using h.fleet.nodup
  · intro p hp
    obtain ⟨q, hq, rfl⟩ := List.mem_map.mp hp
    exact h.fleet.size q hq
  · intro p hp x hx
    obtain ⟨q, hq, rfl⟩ := List.mem_map.mp hp
    exact h.fits.pair_apply hL hx (h.same q hq x hx)
  · have hout : ¬ (w.off s.1 ≤ x ∧ x < w.off s.1 + w.size s.1) :=
      fun hin => absurd (h.fits.lt_fileSize hx hin) (not_lt.mpr hf)
    rw [h.fits.call_mem hx hout]
    rw [Client.call_fileSize] at hf
    exact h.clean x hx ((le_max_left _ _).trans hf)

theorem Synced.truncate (h : Synced L s) {len : ℕ} (hk : Keeps L s (.truncate len))
    (hs : step L s (.truncate len) = some t) : Synced L t := by
  simp only [step, Option.ite_none_right_eq_some, Option.some.injEq] at hs
  obtain ⟨hle, rfl⟩ := hs
  have hmem : ∀ x, x < L.seqOffset → (s.1.truncate len).buffer.mem x = s.1.buffer.mem x := by
    intro x hx
    rw [truncate_mem len (hle.trans_lt h.fits.fileSize_lt)]
    split
    · exact (hk x hx (by omega)).symm
    · rfl
  have hsize : (s.1.truncate len).fileSize = len := by
    obtain ⟨off, m, he⟩ := Client.truncate_frame (c := s.1) (len : ℤ)
    rw [he]
    exact toSize_natCast (hle.trans_lt h.fits.fileSize_lt)
  refine ⟨h.fits.truncate len, h.fleet, fun p hp x hx => ?_, fun x hx hf => ?_⟩
  · rw [hmem x hx]
    exact h.same p hp x hx
  · rw [hsize] at hf
    rw [hmem x hx]
    exact hk x hx hf

theorem Synced.step (h : Synced L s) (hL : L.size < 2 ^ 32) {ev : Event} (hk : Keeps L s ev)
    (hs : Truncation.step L s ev = some t) : Synced L t := by
  cases ev with
  | write w => exact h.write hL w hs
  | truncate len => exact h.truncate hk hs
  | reopen =>
    cases hs
    exact h
  | restart =>
    cases hs
    exact ⟨fits_fresh L, h.fleet, hk, fun _ _ _ => rfl⟩

/-- A recovery brings back what the source holds. -/
theorem Synced.safe [DecidableEq α] (h : Synced L s) (hL : L.size < 2 ^ 32) : Safe L s := by
  unfold Safe
  rcases getRecoverSrcPeer_cases s.2 with ⟨hn, -⟩ | ⟨p, hp, -⟩
  · rw [recovered_of_none hn]
    exact ⟨Nat.zero_le _, fun x hx => absurd hx (Nat.not_lt_zero x)⟩
  · have hlay := L.seqOffset_add
    have hle := h.fleet.size_le hp.mem
    rw [recovered_of_src h.fleet hp]
    show p.size ≤ _ ∧ ∀ x, x < p.size → _
    refine ⟨?_, fun x hx => ?_⟩
    · rw [h.fleet.size_eq hp.mem, Mem.used_le_iff]
      intro x hf hx
      rw [h.same p hp.mem x hx]
      exact h.clean x hx hf
    · rw [Client.restored_mem, Nat.mod_eq_of_lt (by omega), if_pos hx]
      exact h.same p hp.mem x (by omega)

end

/-! ### What was cut off comes back -/

section

variable {L : Layout} {s : State α}

/-- A peer holds a non-zero byte past the end of the file. -/
structure Remains (L : Layout) (s : State α) : Prop where
  fits : Fits L s.1
  fleet : Fleet L s.2
  byte : ∃ p ∈ s.2, ∃ x, s.1.fileSize ≤ x ∧ x < L.seqOffset ∧ p.buffer.mem x ≠ 0
  alike : ∀ p ∈ s.2, ∀ q ∈ s.2, ∀ x, x < L.seqOffset → p.buffer.mem x = q.buffer.mem x

/-- With a trailer that makes the peers sources, a recovery finds that byte. -/
theorem Remains.not_safe [DecidableEq α] (h : Remains L s) (hsrc : ∀ p ∈ s.2, p.Eligible) : ¬ Safe L s := by
  intro hsafe
  obtain ⟨q, hq, x, hf, hx, hne⟩ := h.byte
  rcases getRecoverSrcPeer_cases s.2 with ⟨hn, -⟩ | ⟨p, hp, -⟩
  · exact hn q hq (hsrc q hq)
  · have hle := hsafe.1
    rw [recovered_of_src h.fleet hp] at hle
    change p.size ≤ _ at hle
    rw [h.fleet.size_eq hp.mem, Mem.used_le_iff] at hle
    exact hne ((h.alike q hq p hp.mem x hx).trans (hle x hf hx))

/-- A call that writes no bytes. -/
def touch : Call := .writePos [] 0

theorem touch_mem (h : Fits L s.1) {x : ℕ} (hx : x < L.seqOffset) {m : Mem} :
    applyAll m ((s.1.call touch).writeTwoPlace (touch.off s.1) (touch.size s.1)) x = m x := by
  have hsize : touch.size s.1 = 0 := Nat.zero_min _
  rw [applyAll_writeTwoPlace, Client.call_seqOffset, h.offset, hsize, Nat.zero_mod]
  rw [Mem.copy_out (by omega), Mem.copy_out (by omega)]

/-- It leaves the bytes where they are and stores the client's sequence number
in every trailer. -/
theorem Remains.touch (h : Remains L s) : ∃ t, step L s (.write touch) = some t ∧ Remains L t ∧
    t.1.seq = (s.1.seq + 1) % 2 ^ 64 ∧ ∀ p ∈ t.2, p.seq = s.1.seq % 2 ^ 64 := by
  have hsize : Truncation.touch.size s.1 = 0 := Nat.zero_min _
  have hfile : (s.1.call Truncation.touch).fileSize = s.1.fileSize := by
    rw [Client.call_fileSize, hsize]
    exact max_eq_left (Nat.zero_le _)
  refine ⟨_, rfl, ⟨h.fits.call Truncation.touch, ⟨?_, ?_⟩, ?_, ?_⟩, Client.call_seq _ _, ?_⟩
  · simpa [Function.comp_def] using h.fleet.nodup
  · intro p hp
    obtain ⟨q, hq, rfl⟩ := List.mem_map.mp hp
    exact h.fleet.size q hq
  · obtain ⟨p, hp, x, hf, hx, hne⟩ := h.byte
    refine ⟨_, List.mem_map_of_mem hp, x, by rwa [hfile], hx, ?_⟩
    rw [Peer.apply_mem, touch_mem h.fits hx]
    exact hne
  · intro p' hp' q' hq' x hx
    obtain ⟨p, hp, rfl⟩ := List.mem_map.mp hp'
    obtain ⟨q, hq, rfl⟩ := List.mem_map.mp hq'
    rw [Peer.apply_mem, Peer.apply_mem, touch_mem h.fits hx, touch_mem h.fits hx]
    exact h.alike p hp q hq x hx
  · intro p hp
    obtain ⟨q, hq, rfl⟩ := List.mem_map.mp hp
    have hwf : s.1.Wf := ⟨by rw [h.fits.addr, h.fits.offset], by
      rw [h.fits.offset, h.fits.size, L.seqOffset_add]⟩
    rw [← Client.call_trailer hwf Truncation.touch]
    show (applyAll q.buffer.mem _).getLE (q.buffer.size - seqWidth) seqWidth = _
    rw [h.fleet.size q hq, h.fits.offset]
    refine Mem.getLE_congr fun x h1 h2 => ?_
    rw [applyAll_writeTwoPlace, Client.call_seqOffset, h.fits.offset]
    exact Mem.copy_in ⟨h1, h2⟩

/-- From a state with such a byte, at most three calls without data lead to one
where a recovery brings it back. -/
theorem Remains.breaks [DecidableEq α] (h : Remains L s) : ∃ u, Trace.Reach (step L) s u ∧ ¬ Safe L u := by
  obtain ⟨t₁, h₁, r₁, hs₁, hp₁⟩ := h.touch
  obtain ⟨t₂, h₂, r₂, hs₂, hp₂⟩ := r₁.touch
  obtain ⟨t₃, h₃, r₃, -, hp₃⟩ := r₂.touch
  have g₁ := Trace.Reach.init.next _ h₁
  have g₂ := g₁.next _ h₂
  -- one of three numbers in a row is neither 0 nor the maximum
  by_cases c₁ : s.1.seq % 2 ^ 64 ≠ 0 ∧ s.1.seq % 2 ^ 64 < seqMax
  · exact ⟨t₁, g₁, r₁.not_safe fun p hp => by rwa [Peer.Eligible, hp₁ p hp]⟩
  · by_cases c₂ : t₁.1.seq % 2 ^ 64 ≠ 0 ∧ t₁.1.seq % 2 ^ 64 < seqMax
    · exact ⟨t₂, g₂, r₂.not_safe fun p hp => by rwa [Peer.Eligible, hp₂ p hp]⟩
    · refine ⟨t₃, g₂.next _ h₃, r₃.not_safe fun p hp => ?_⟩
      rw [Peer.Eligible, hp₃ p hp]
      rw [hs₁] at c₂
      rw [hs₂, hs₁]
      unfold seqMax at c₁ c₂ ⊢
      omega

/-- An event that cuts off a non-zero byte leaves it on the peers. -/
theorem Synced.remains {t : State α} (h : Synced L s) (hne : s.2 ≠ []) {ev : Event} (hk : ¬ Keeps L s ev)
    (hs : Truncation.step L s ev = some t) : Remains L t := by
  have halike : ∀ p ∈ s.2, ∀ q ∈ s.2, ∀ x, x < L.seqOffset → p.buffer.mem x = q.buffer.mem x :=
    fun p hp q hq x hx => (h.same p hp x hx).trans (h.same q hq x hx).symm
  cases ev with
  | write w => exact absurd trivial hk
  | reopen => exact absurd trivial hk
  | truncate len =>
    simp only [Truncation.step, Option.ite_none_right_eq_some, Option.some.injEq] at hs
    obtain ⟨hle, rfl⟩ := hs
    simp only [Keeps, not_forall] at hk
    obtain ⟨x, hx, hlen, hbyte⟩ := hk
    obtain ⟨p, hp⟩ := List.exists_mem_of_ne_nil s.2 hne
    refine ⟨h.fits.truncate len, h.fleet, ⟨p, hp, x, ?_, hx, ?_⟩, halike⟩
    · obtain ⟨off, m, he⟩ := Client.truncate_frame (c := s.1) (len : ℤ)
      rw [he]
      exact (toSize_natCast (hle.trans_lt h.fits.fileSize_lt)).trans_le hlen
    · rw [h.same p hp x hx]
      exact hbyte
  | restart =>
    simp only [Truncation.step, Option.some.injEq] at hs
    subst hs
    simp only [Keeps, not_forall] at hk
    obtain ⟨p, hp, x, hx, hbyte⟩ := hk
    exact ⟨fits_fresh L, h.fleet, ⟨p, hp, x, Nat.zero_le x, hx, hbyte⟩, halike⟩

end

/-- **When truncated data stays away.** In every run in which no truncation and
no opening by a new process cuts off a non-zero byte, a recovery after a
crash brings back a part of the file. Any step that does cut one off can be
followed by calls after which a recovery brings the byte back. -/
theorem truncated_recovery [DecidableEq α] {L : Layout} (hL : L.size < 2 ^ 32) {addrs : List α}
    (hn : addrs.Nodup) (hne : addrs ≠ []) :
    (∀ s, Trace.Reach (Trace.restrict (Keeps L) (step L)) (init L addrs) s → Safe L s) ∧
    ∀ s ev t, Trace.Reach (Trace.restrict (Keeps L) (step L)) (init L addrs) s → step L s ev = some t →
      ¬ Keeps L s ev → ∃ u, Trace.Reach (step L) t u ∧ ¬ Safe L u := by
  have hsync : ∀ s, Trace.Reach (Trace.restrict (Keeps L) (step L)) (init L addrs) s →
      Synced L s ∧ s.2 ≠ [] := by
    intro s hs
    refine hs.inv_restrict (I := fun s => Synced L s ∧ s.2 ≠ []) ⟨synced_init L hn, by simpa [init] using hne⟩ ?_
    rintro s ev t ⟨h, hpeers⟩ hk hst
    refine ⟨h.step hL hk hst, ?_⟩
    cases ev with
    | truncate len =>
      simp only [step, Option.ite_none_right_eq_some, Option.some.injEq] at hst
      obtain ⟨-, rfl⟩ := hst
      exact hpeers
    | _ =>
      cases hst
      simpa using hpeers
  refine ⟨fun s hs => (hsync s hs).1.safe hL, fun s ev t hs hst hk => ?_⟩
  exact ((hsync s hs).1.remains (hsync s hs).2 hk hst).breaks

theorem truncated_recovery_tiny : ∃ s : State ℕ,
    Trace.Reach (Trace.restrict (Keeps tiny) (step tiny)) (init tiny [0]) s ∧
      (s.1.fileSize = 2 ∧ ∀ p ∈ s.2, p.Eligible) ∧ Safe tiny s := by
  obtain ⟨s, hs, hp⟩ : ∃ s : State ℕ,
      Trace.Reach (Trace.restrict (Keeps tiny) (step tiny)) (init tiny [0]) s ∧
        (s.1.fileSize = 2 ∧ ∀ p ∈ s.2, p.Eligible) :=
    Trace.exists_reach_of_exec
      [.write (.append [1]), .write (.append [2]), .write (.append [0]), .truncate 2, .reopen] (by decide)
  exact ⟨s, hs, hp, (truncated_recovery (by decide) (by decide) (by decide)).1 s hs⟩

/-- Two appends, and the second one cut off: a recovery brings back both. -/
theorem truncated_returns : ¬ ∀ s : State ℕ, Trace.Reach (step tiny) (init tiny [0]) s → Safe tiny s := by
  intro h
  obtain ⟨s, hs, hbad⟩ : ∃ s : State ℕ, Trace.Reach (step tiny) (init tiny [0]) s ∧ ¬ Safe tiny s :=
    Trace.exists_reach_of_exec [.write (.append [1]), .write (.append [2]), .truncate 1] (by decide)
  exact hbad (h s hs)

end Truncation
end ComputeSideLog
