/-
# Quiescent replicas agree with the client

Writes are posted without a copy: a write in flight may carry bytes of later
calls, and writes overlap. Still, every change of the local buffer is posted
to every peer that is connected, by the call that makes it, so a peer whose
writes are all applied holds at every position a byte no older than the last
posted call (`Inv.posted_current`). When no call is between its `memcpy` and
its post, that is the local buffer (`quiescent_agreement`).
-/
import ComputeSideLog.Delivery

namespace ComputeSideLog

open Quorum (Half)

/-- The length of a short call in bounds survives the 32-bit field. -/
theorem size_mod {L : Layout} {log : List Call} (ha : AllIn (Client.fresh L) log) (hs : AllShort log) {m : ℕ}
    {w : Call} (hw : log[m]? = some w) :
    w.size (clientAt L log m) % 2 ^ 32 = w.size (clientAt L log m) :=
  Sent.len ⟨clientAt_wf L log m, allIn_get ha hw, hs w (List.mem_of_getElem? hw)⟩

/-- A change of the image at `x` is made by a call that writes there. -/
theorem exists_writes_of_change {L : Layout} {log : List Call} {c x : ℕ} (hpos : 0 < c) (hc : c ≤ log.length)
    (hne : image L log (c - 1) x ≠ image L log c x) :
    ∃ w, log[c - 1]? = some w ∧ w.Writes (clientAt L log (c - 1)) x := by
  have hlt : c - 1 < log.length := by omega
  have hw : log[c - 1]? = some log[c - 1] := List.getElem?_eq_getElem hlt
  refine ⟨_, hw, ?_⟩
  by_contra hx
  have hsame := image_eq_of_not_writes hw hx
  rw [Nat.sub_add_cancel hpos] at hsame
  exact hne hsame.symm

/-- A change made by the call of a token is sent by one of the token's writes. -/
theorem ConnOk.sends {L : Layout} {log : List Call} {p posted : ℕ} {c : Conn} (h : ConnOk L log p posted c)
    (ha : AllIn (Client.fresh L) log) (hs : AllShort log) {i x : ℕ} {w : Call}
    (hw : log[c.first + i]? = some w) (hx : w.Writes (clientAt L log (c.first + i)) x) :
    ∃ half, ∀ o ∈ c.ops, o.tag = .token i half → o.Covers x ∧ o.born = c.first + i + 1 := by
  rcases hx with hx | hx
  · refine ⟨.data, fun o ho htag => ?_⟩
    have hshape := h.shape o ho
    simp only [Shape, htag] at hshape
    obtain ⟨hb, v, hv, hoff, hlen⟩ := hshape
    obtain rfl : w = v := Option.some.inj (hw.symm.trans hv)
    rw [size_mod ha hs hw] at hlen
    exact ⟨by rw [Dma.Op.Covers, hoff, hlen]; exact hx, hb⟩
  · refine ⟨.seq, fun o ho htag => ?_⟩
    have hshape := h.shape o ho
    simp only [Shape, htag] at hshape
    obtain ⟨hb, hoff, hlen⟩ := hshape
    rw [clientAt_seqAddr] at hx
    exact ⟨by rw [Dma.Op.Covers, hoff, hlen]; exact hx, hb⟩

namespace Sys

variable {α : Type*} {L : Layout} {s t : Sys α}

/-- A call is between its `memcpy` and its post. -/
def Storing (s : Sys α) : Prop := ∃ off size target, s.pc = .storing off size target

instance (s : Sys α) : Decidable s.Storing :=
  match h : s.pc with
  | .idle => isFalse fun ⟨_, _, _, hs⟩ => by simp [h] at hs
  | .storing off size target => isTrue ⟨off, size, target, h⟩
  | .posted _ _ => isFalse fun ⟨_, _, _, hs⟩ => by simp [h] at hs

theorem postedCalls_of_not (h : ¬ s.Storing) : s.postedCalls = s.log.length :=
  postedCalls_of_not_storing fun off size target hpc => h ⟨off, size, target, hpc⟩

/-- A peer that is connected since before the first call and has applied all
writes is up to date with the last posted call. -/
theorem Inv.posted_current (h : Inv L s) (ha : AllIn (Client.fresh L) s.log) (hs : AllShort s.log) {e : ℕ}
    (he : e ∈ s.q.props) (hfirst : (s.conn e).first = 0) (hl : (s.conn e).lost = false)
    (hq : (s.conn e).applied = (s.conn e).ops.length) (x : ℕ) :
    ∃ j, s.postedCalls ≤ j ∧ j ≤ s.log.length ∧ s.mem (s.q.entry e).addr x = image L s.log j x := by
  have hlive := h.live e he
  rw [hfirst, Nat.zero_add] at hlive
  refine h.mem_current (h.quorum.lt_made e he) hl s.postedCalls_le fun c hpos hc hne => ?_
  obtain ⟨w, hw, hx⟩ := exists_writes_of_change hpos (hc.trans s.postedCalls_le) hne
  have hidx : (s.conn e).first + (c - 1) = c - 1 := by rw [hfirst, Nat.zero_add]
  rw [← hidx] at hw hx
  obtain ⟨half, hsend⟩ := (h.conn e).sends ha hs hw hx
  obtain ⟨o, ho, htag⟩ := List.mem_map.mp ((h.conn e).halves (c - 1) (by omega) half)
  obtain ⟨hcov, hborn⟩ := hsend o ho htag
  exact ⟨o, by rwa [hq, List.take_length], hcov, by omega⟩

variable [DecidableEq α] {rep : ℕ} {r : Reads}

/-- Connections keep their starting point, and none is unmade. -/
theorem first_step {ev : Event α} (h : step rep r s ev = some t) :
    s.q.made ≤ t.q.made ∧ ∀ e, e < s.q.made → (t.conn e).first = (s.conn e).first := by
  have hq : s.q.made ≤ t.q.made := by
    rcases q_step h with hq | ⟨qev, hq⟩
    · rw [hq]
    · exact Quorum.made_le_step hq
  refine ⟨hq, fun e he => ?_⟩
  cases Step.of_step h with
  | post =>
    simp only [Sys.post]
    split <;> rfl
  | fetch e' k off len _ _ =>
    refine Conn.of_update (P := fun c => c.first = (s.conn e).first) rfl fun hee => ?_
    rw [hee]
    rfl
  | apply e' _ _ _ _ =>
    refine Conn.of_update (P := fun c => c.first = (s.conn e).first) rfl fun hee => ?_
    rw [hee]
  | add a ok _ _ =>
    simp only [Sys.add, if_neg (Nat.ne_of_lt he)]
    split <;> rfl
  | bulk _ =>
    refine Conn.of_update (P := fun c => c.first = (s.conn e).first) rfl fun hee => ?_
    rw [hee]
    rfl
  | crash a =>
    simp only [Sys.crash]
    split <;> rfl
  | _ => rfl

/-- The entries made by `init` are connected since before the first call. -/
theorem first_of_initial [Inhabited α] {addrs : List α} (h : Trace.Reach (step rep r) (init L addrs) s) {e : ℕ}
    (he : e < (Quorum.init addrs).made) : (s.conn e).first = 0 := by
  have hI : (Quorum.init addrs).made ≤ s.q.made ∧
      ∀ e, e < (Quorum.init addrs).made → (s.conn e).first = 0 := by
    refine h.inv (I := fun s : Sys α => (Quorum.init addrs).made ≤ s.q.made ∧
      ∀ e, e < (Quorum.init addrs).made → (s.conn e).first = 0) ⟨le_rfl, fun _ _ => rfl⟩ ?_
    rintro s ev t ⟨hm, hf⟩ hst
    obtain ⟨h1, h2⟩ := first_step hst
    exact ⟨hm.trans h1, fun e he => (h2 e (he.trans_le hm)).trans (hf e he)⟩
  exact hI.2 e he

/-- **Quiescent replicas agree with the client.** Under any schedule of posts,
late reads and applications, a peer that was connected for the whole run and
has applied everything posted to it holds, byte by byte, the client's buffer;
while a call is being stored, each byte is that of the buffer before or
after the call. -/
theorem quiescent_agreement [Inhabited α] {addrs : List α} (h : Trace.Reach (step rep r) (init L addrs) s)
    (ha : AllIn (Client.fresh L) s.log) (hs : AllShort s.log) {e : ℕ} (he : e < (Quorum.init addrs).made)
    (hlive : e ∈ s.q.props) (hl : (s.conn e).lost = false) (hq : (s.conn e).applied = (s.conn e).ops.length)
    (x : ℕ) :
    (¬ s.Storing → s.mem (s.q.entry e).addr x = s.cli.buffer.mem x) ∧
      (s.mem (s.q.entry e).addr x = image L s.log s.log.length x ∨
        s.mem (s.q.entry e).addr x = image L s.log (s.log.length - 1) x) := by
  have hI := inv_of_reach h
  obtain ⟨j, h1, h2, h3⟩ := hI.posted_current ha hs hlive (first_of_initial h he) hl hq x
  refine ⟨fun hst => ?_, ?_⟩
  · have hp := postedCalls_of_not hst
    rw [h3, hI.writer.cli_eq hp, ← clientAt_length, clientAt_mem, show j = s.log.length by omega]
  · have hp : s.log.length - 1 ≤ s.postedCalls := by
      unfold postedCalls
      split <;> omega
    rcases Nat.lt_or_ge j s.log.length with hj | hj
    · exact .inr (by rw [h3, show j = s.log.length - 1 by omega])
    · exact .inl (by rw [h3, le_antisymm h2 hj])

/-- Two calls with three peers; the third one reads the bytes of the first
call after the second one has overwritten one of them. -/
def lateReads : List (Event ℕ) :=
  [.begin (.append [1, 2]), .put 0 16, .post,
    .fetch 0 0 0 16, .fetch 0 1 0 16, .apply 0, .apply 0, .complete 0 0 .data, .complete 0 0 .seq, .poll 0,
    .fetch 1 0 0 16, .fetch 1 1 0 16, .apply 1, .apply 1, .complete 1 0 .data, .complete 1 0 .seq, .poll 1, .ret,
    .begin (.writePos [9] 0), .put 0 16, .post, .fetch 2 0 0 16, .fetch 2 1 0 16, .fetch 2 2 0 16, .fetch 2 3 0 16,
    .apply 2, .apply 2, .apply 2, .apply 2]

theorem quiescent_agreement_lateReads : ∃ s : Sys ℕ,
    Trace.Reach (step 3 .anyTime) (init tiny [0, 1, 2]) s ∧ s.log = [.append [1, 2], .writePos [9] 0] ∧
      ∀ x, s.mem (s.q.entry 2).addr x = s.cli.buffer.mem x := by
  have hrun : ∃ s : Sys ℕ, Trace.Reach (step 3 .anyTime) (init tiny [0, 1, 2]) s ∧
      s.log = [.append [1, 2], .writePos [9] 0] ∧ 2 ∈ s.q.props ∧ (s.conn 2).lost = false ∧
        (s.conn 2).applied = (s.conn 2).ops.length ∧ ¬ s.Storing :=
    Trace.exists_reach_of_exec lateReads (by decide)
  obtain ⟨s, hs, hlog, hlive, hl, hq, hst⟩ := hrun
  refine ⟨s, hs, hlog, fun x => ?_⟩
  exact (quiescent_agreement hs (by rw [hlog]; decide) (by rw [hlog]; decide) (by decide) hlive hl hq x).1 hst

end Sys
end ComputeSideLog
