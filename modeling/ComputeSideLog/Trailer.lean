/-
# The trailer on a peer and its data

All writes in flight share one local trailer word, which the next call
overwrites as soon as a quorum of the previous one has returned. A slow
peer's trailer write may then be read late and carry the number of a call
whose data the peer does not have (`trailer_ahead`).

It cannot happen as long as no byte of the trailer word changes before every
trailer write posted so far has read it: then each of them carries its own
number (`TrailerOk`), a peer's trailer is that of its last applied pair
(`TrailerOk.trailer`), and the data of every call up to it is applied
(`trailer_behind_data`).
-/
import ComputeSideLog.Fixed

namespace ComputeSideLog

open Quorum (Half)

/-- The half that a posted write is. -/
def Role.half : Role → Half
  | .token _ h => h
  | .bulk h => h

/-- What the writer is storing. -/
def Pc.target : Pc → Option Mem
  | .storing _ _ target => some target
  | _ => none

namespace Sys

variable {α : Type*} {L : Layout} {s t : Sys α}

/-- Every trailer write posted so far that covers position `x` has read it. -/
def TrailerRead (s : Sys α) (x : ℕ) : Prop :=
  ∀ e, e < s.q.made → ∀ o ∈ (s.conn e).ops, o.tag.half = .seq → o.Covers x → (o.buf x).isSome

instance (s : Sys α) (x : ℕ) : Decidable (s.TrailerRead x) :=
  inferInstanceAs (Decidable (∀ e, e < s.q.made → ∀ o ∈ (s.conn e).ops, _))

/-- The condition on a step: only the writer, the card and the peers act, a call
starts in bounds and before the counter wraps, and no byte changes that a
trailer write posted before has not read. -/
def Timely (s : Sys α) : Event α → Prop
  | .begin w => w.InBounds s.cli ∧ s.log.length < 2 ^ 64
  | .put off len => ∀ target ∈ s.pc.target, ∀ x, off ≤ x → x < off + len →
      s.cli.buffer.mem x ≠ target x → s.TrailerRead x
  | ev => ev.Local

instance (s : Sys α) : ∀ ev : Event α, Decidable (Timely s ev)
  | .begin w => inferInstanceAs (Decidable (w.InBounds s.cli ∧ s.log.length < 2 ^ 64))
  | .put off len => inferInstanceAs (Decidable (∀ target ∈ s.pc.target, ∀ x, off ≤ x → x < off + len → _))
  | .post | .fetch _ _ _ _ | .apply _ | .complete _ _ _ | .poll _ | .ret => isTrue trivial
  | .erase _ | .add _ _ | .bulk | .bulkDone | .suspend | .resume | .crash _ => isFalse id

theorem Timely.isLocal {ev : Event α} (h : Timely s ev) : ev.Local := by
  cases ev with
  | begin w => trivial
  | put off len => trivial
  | _ => exact h

/-- Every call is in bounds; what a trailer write has read is its own number, and
what it has not read still is. -/
structure TrailerOk (L : Layout) (s : Sys α) : Prop where
  inBounds : AllIn (Client.fresh L) s.log
  length_le : s.log.length ≤ 2 ^ 64
  unread : ∀ e, e < s.q.made → ∀ o ∈ (s.conn e).ops, o.tag.half = .seq → ∀ x, o.Covers x →
    o.buf x = none → s.cli.buffer.mem x = image L s.log o.born x
  own : ∀ e, e < s.q.made → ∀ o ∈ (s.conn e).ops, o.tag.half = .seq → ∀ x v, o.Covers x →
    o.buf x = some v → v = image L s.log o.born x

theorem TrailerOk.same (h : TrailerOk L s) (hlog : t.log = s.log) (hmade : t.q.made = s.q.made)
    (hcli : t.cli = s.cli) (hops : ∀ e, (t.conn e).ops = (s.conn e).ops) : TrailerOk L t := by
  refine ⟨hlog ▸ h.inBounds, hlog ▸ h.length_le, fun e he => ?_, fun e he => ?_⟩
  · rw [hops, hlog, hcli]
    exact h.unread e (hmade ▸ he)
  · rw [hops, hlog]
    exact h.own e (hmade ▸ he)

theorem TrailerOk.begin (h : TrailerOk L s) (hI : Inv L s) (hpc : s.pc = .idle) {w : Call}
    (ht : Timely s (.begin w)) : TrailerOk L (s.begin w) := by
  obtain ⟨hin, hlen⟩ := ht
  have himage : ∀ e, e < s.q.made → ∀ o ∈ (s.conn e).ops, image L (s.log ++ [w]) o.born = image L s.log o.born :=
    fun e he o ho => image_append (((hI.conn e).born o ho).2.trans s.postedCalls_le) w
  refine ⟨hI.allIn_begin h.inBounds hpc hin, ?_, fun e he o ho hh x hx hn => ?_, fun e he o ho hh x v hx hv => ?_⟩
  · show (s.log ++ [w]).length ≤ 2 ^ 64
    rw [List.length_append]
    exact hlen
  · show s.cli.buffer.mem x = image L (s.log ++ [w]) o.born x
    rw [himage e he o ho]
    exact h.unread e he o ho hh x hx hn
  · show v = image L (s.log ++ [w]) o.born x
    rw [himage e he o ho]
    exact h.own e he o ho hh x v hx hv

/-- Bytes become visible: one that a trailer write has not read does not change. -/
theorem TrailerOk.put (h : TrailerOk L s) {off size : ℕ} {target : Mem} (hpc : s.pc = .storing off size target)
    {o l : ℕ} (ht : Timely s (.put o l)) : TrailerOk L (s.put target o l) := by
  refine ⟨h.inBounds, h.length_le, fun e he p hp hh x hx hn => ?_, h.own⟩
  have hold := h.unread e he p hp hh x hx hn
  show s.cli.buffer.mem.copy target o l x = image L s.log p.born x
  by_cases hin : o ≤ x ∧ x < o + l
  · rw [Mem.copy_in hin]
    by_contra hne
    have hread := ht target (by rw [hpc]; rfl) x hin.1 hin.2 (fun heq => hne (heq ▸ hold)) e he p hp hh hx
    rw [hn] at hread
    cases hread
  · rw [Mem.copy_out hin]
    exact hold

theorem TrailerOk.post (h : TrailerOk L s) (hI : Inv L s) {off size : ℕ} {target : Mem}
    (hpc : s.pc = .storing off size target) (hst : s.Stored off size target) (r : Reads) {q : Quorum.State α}
    (hmade : q.made = s.q.made) : TrailerOk L (s.post r q off size) := by
  have hmem : ∀ x, s.cli.buffer.mem x = image L s.log s.log.length x := by
    intro x
    rw [hI.writer.stored hpc hst, ← clientAt_length]
    rfl
  have hcases : ∀ e, ∀ o ∈ ((s.post r q off size).conn e).ops, o ∈ (s.conn e).ops ∨
      (o.born = s.log.length ∧ ∀ x v, o.buf x = some v → v = image L s.log s.log.length x) := by
    intro e o ho
    simp only [Sys.post] at ho
    split at ho
    · rcases List.mem_append.mp ho with ho | ho
      · exact .inl ho
      · obtain ⟨hb, hbuf, -⟩ := mem_postPair ho
        exact .inr ⟨hb, fun x v hv => (hbuf x v hv).trans (hmem x)⟩
    · exact .inl ho
  refine ⟨h.inBounds, h.length_le, fun e he o ho hh x hx hn => ?_, fun e he o ho hh x v hx hv => ?_⟩
  · rcases hcases e o ho with ho | ⟨hb, -⟩
    · exact h.unread e (hmade ▸ he) o ho hh x hx hn
    · rw [hb]
      exact hmem x
  · rcases hcases e o ho with ho | ⟨hb, hbuf⟩
    · exact h.own e (hmade ▸ he) o ho hh x v hx hv
    · rw [hb]
      exact hbuf x v hv

/-- What is read now has not changed since the post. -/
theorem TrailerOk.fetch (h : TrailerOk L s) (e k off len : ℕ) :
    TrailerOk L { s with conn := Function.update s.conn e ((s.conn e).fetch k s.cli.buffer.mem off len) } := by
  have hcases : ∀ e', ∀ o ∈ (Function.update s.conn e ((s.conn e).fetch k s.cli.buffer.mem off len) e').ops,
      ∃ o₀ ∈ (s.conn e').ops, o = o₀ ∨ o = o₀.fetch s.cli.buffer.mem off len := by
    intro e' o ho
    revert ho
    refine Conn.of_update (P := fun c => o ∈ c.ops → _) (fun ho => ⟨o, ho, .inl rfl⟩) fun hee ho => ?_
    rw [hee]
    exact Dma.mem_modify ho
  refine ⟨h.inBounds, h.length_le, fun e' he' o ho hh x hx hn => ?_, fun e' he' o ho hh x v hx hv => ?_⟩
  · obtain ⟨o₀, ho₀, rfl | rfl⟩ := hcases e' o ho
    · exact h.unread e' he' o ho₀ hh x hx hn
    · refine h.unread e' he' o₀ ho₀ hh x hx ?_
      cases hold : o₀.buf x with
      | none => rfl
      | some u =>
        rw [Dma.Op.fetch_buf hold] at hn
        cases hn
  · obtain ⟨o₀, ho₀, rfl | rfl⟩ := hcases e' o ho
    · exact h.own e' he' o ho₀ hh x v hx hv
    · cases hold : o₀.buf x with
      | some u =>
        rw [Dma.Op.fetch_buf hold] at hv
        exact h.own e' he' o₀ ho₀ hh x v hx (hold.trans hv)
      | none =>
        simp only [Dma.Op.fetch, hold] at hv
        split at hv
        · exact (Option.some.inj hv).symm.trans (h.unread e' he' o₀ ho₀ hh x hx hold)
        · cases hv

variable [DecidableEq α] {rep : ℕ} {r : Reads}

theorem TrailerOk.step {ev : Event α} (h : TrailerOk L s) (hI : Inv L s) (ht : Timely s ev)
    (hs : step rep r s ev = some t) : TrailerOk L t := by
  cases Step.of_step hs with
  | begin w hpc => exact h.begin hI hpc ht
  | put o l hpc => exact h.put hpc ht
  | post hpc hst hq => exact h.post hI hpc hst r (by rw [Quorum.eq_post hq]; rfl)
  | fetch e k off len _ _ => exact h.fetch e k off len
  | apply e _ _ _ _ =>
    refine h.same rfl rfl rfl fun e' => ?_
    exact Conn.of_update (P := fun c => c.ops = (s.conn e').ops) rfl fun hee => by rw [hee]
  | complete e i half _ hq => exact h.same rfl (Quorum.calm_step hq (by simp) (by simp)).made rfl fun _ => rfl
  | quiet hev hq => exact h.same rfl (bookkeeping_calm hev hq).made rfl fun _ => rfl
  | ret hq => exact h.same rfl (Quorum.calm_step hq (by simp) (by simp)).made rfl fun _ => rfl
  | add a ok _ _ => exact absurd ht (by simp [Timely, Event.Local])
  | bulk _ => exact absurd ht (by simp [Timely, Event.Local])
  | bulkDone => exact absurd ht (by simp [Timely, Event.Local])
  | crash a => exact absurd ht (by simp [Timely, Event.Local])

/-! ### The trailer of a peer -/

/-- The data write of the call with number `c` is applied through entry `e`. -/
def DataApplied (L : Layout) (s : Sys α) (e c : ℕ) : Prop :=
  ∃ w, s.log[c]? = some w ∧ ∃ o ∈ (s.conn e).ops.take (s.conn e).applied, o.tag = .token c .data ∧
    o.off = w.off (clientAt L s.log c) ∧ o.len = w.size (clientAt L s.log c) % 2 ^ 32

omit [DecidableEq α] in
/-- A call is applied with the write at its even position. -/
theorem FixedOk.dataApplied {m : ℕ} (hF : FixedOk m s) (hI : Inv L s) {e : ℕ} (he : e < m) {c : ℕ}
    (hc : 2 * c < (s.conn e).applied) : DataApplied L s e c := by
  have hlt : 2 * c < (s.conn e).ops.length := lt_of_lt_of_le hc (hI.conn e).applied_le
  have ho : (s.conn e).ops[2 * c]? = some (s.conn e).ops[2 * c] := List.getElem?_eq_getElem hlt
  obtain ⟨htag, -, w, hw, hoff, hlen⟩ := hF.even_op hI he ho (by omega)
  rw [Nat.mul_div_cancel_left _ (by omega : 0 < 2)] at htag hw hoff hlen
  refine ⟨w, hw, _, ?_, htag, hoff, hlen⟩
  rw [List.mem_take_iff_getElem]
  exact ⟨2 * c, by omega, rfl⟩

section Fixed

variable {m : ℕ} (hF : FixedOk m s) (hI : Inv L s) (h : TrailerOk L s) {e : ℕ} (he : e < m)
include hF hI h he

omit [DecidableEq α] in
/-- The trailer after the first `k` writes landed: a data write ends below it,
and a trailer write carries its own number. -/
theorem TrailerOk.landed_trailer {x : ℕ} (hx : L.seqOffset ≤ x ∧ x < L.seqOffset + seqWidth) (k : ℕ)
    (hk : k ≤ (s.conn e).applied) :
    Dma.landAll Mem.zero ((s.conn e).ops.take k).reverse x = image L s.log (k / 2) x := by
  induction k with
  | zero => rfl
  | succ k ih =>
    have hc := hI.conn e
    have hmade : e < s.q.made := hF.made ▸ he
    have hlt : k < (s.conn e).ops.length := lt_of_lt_of_le hk hc.applied_le
    set o := (s.conn e).ops[k] with hodef
    have ho : (s.conn e).ops[k]? = some o := List.getElem?_eq_getElem hlt
    have hmem : o ∈ (s.conn e).ops := List.mem_of_getElem? ho
    have hprev := ih (Nat.le_of_succ_le hk)
    have hcons : ((s.conn e).ops.take (k + 1)).reverse = o :: ((s.conn e).ops.take k).reverse := by
      simp [List.take_add_one, ho]
    rw [hcons, Dma.landAll, Dma.Op.land]
    rcases Nat.mod_two_eq_zero_or_one k with hpar | hpar
    · obtain ⟨-, -, w, hw, hoff, hlen⟩ := hF.even_op hI he ho hpar
      have hin := allIn_get h.inBounds hw
      have hsz := Client.size_of_inBounds (clientAt_wf L s.log (k / 2)) hin
      have hmod := Nat.mod_le (w.size (clientAt L s.log (k / 2))) (2 ^ 32)
      unfold Call.InBounds at hin
      rw [clientAt_seqOffset] at hin
      rw [Mem.copy_out (by omega), hprev, show (k + 1) / 2 = k / 2 by omega]
    · obtain ⟨htag, hb, hoff, hlen⟩ := hF.odd_op hI he ho hpar
      have hcov : o.Covers x := by
        rw [Dma.Op.Covers, hoff, hlen]
        exact hx
      -- the write has landed, so it was read
      have hland : o ∈ s.landed (s.q.entry e).addr := by
        refine hI.region.arrived e hmade (hF.lost e he) o ?_
        rw [List.mem_take_iff_getElem]
        exact ⟨k, by omega, rfl⟩
      obtain ⟨j, -, -, hval⟩ := hI.region.loaded _ o hland x hcov
      have hown := h.own e hmade o hmem (by rw [htag]; rfl) x _ hcov hval
      rw [Mem.copy_in hcov, hval, Option.getD_some, hown, hb, show (k + 1) / 2 = k / 2 + 1 by omega]

omit [DecidableEq α] in
/-- A peer's trailer tells the number of pairs it has applied. -/
theorem TrailerOk.trailer : readSeqNum (L.region (s.mem (s.q.entry e).addr)) =
    if (s.conn e).applied / 2 = 0 then 0 else (s.conn e).applied / 2 - 1 := by
  have hle : (s.conn e).applied / 2 ≤ s.log.length := by
    have h1 := (hI.conn e).applied_le
    rw [hF.length e he] at h1
    have h2 := s.postedCalls_le
    omega
  have hlen : (s.log.take ((s.conn e).applied / 2)).length = (s.conn e).applied / 2 := by
    rw [List.length_take, min_eq_left hle]
  have htr := run_trailer L (s.log.take ((s.conn e).applied / 2))
  have hmax := h.length_le
  rw [L.readSeqNum_region, hI.region.mem, hF.landed e he, Mem.getLE_congr fun x h1 h2 =>
    TrailerOk.landed_trailer hF hI h he ⟨h1, h2⟩ _ le_rfl]
  refine htr.trans ?_
  rw [hlen]
  split
  · rfl
  · exact Nat.mod_eq_of_lt (by omega)

end Fixed

/-- The invariants of a run whose stores wait for the reads. -/
theorem trailerOk_of_reach [Inhabited α] {addrs : List α}
    (h : Trace.Reach (Trace.restrict Timely (step rep r)) (init L addrs) s) :
    Inv L s ∧ FixedOk (Quorum.init addrs).made s ∧ TrailerOk L s := by
  refine ⟨inv_of_reach h.of_restrict, ?_⟩
  refine h.inv_restrict_of (J := Inv L) (I := fun s => FixedOk (Quorum.init addrs).made s ∧ TrailerOk L s)
    (fun s hs => inv_of_reach hs) ⟨fixedOk_init L addrs, ?_⟩ ?_
  · exact ⟨trivial, Nat.zero_le _, fun _ _ o ho => absurd ho (by simp [init, Conn.new]),
      fun _ _ o ho => absurd ho (by simp [init, Conn.new])⟩
  · rintro s ev t hI ⟨hF, hT⟩ ht hst
    exact ⟨hF.step hI ht.isLocal hst, hT.step hI ht hst⟩

/-- **The trailer never runs ahead of the data, if its store waits for the reads.**
In every run of the writer, the card and the peers whose calls are in bounds
and change a byte of the trailer word only when the trailer writes posted so
far have read it, a peer whose trailer is `1` or more has applied the data of
every call up to that number. -/
theorem trailer_behind_data [Inhabited α] {addrs : List α}
    (h : Trace.Reach (Trace.restrict Timely (step rep r)) (init L addrs) s) {e : ℕ} (he : e < s.q.made)
    (hseq : 1 ≤ readSeqNum (L.region (s.mem (s.q.entry e).addr))) :
    ∀ c, c ≤ readSeqNum (L.region (s.mem (s.q.entry e).addr)) → DataApplied L s e c := by
  obtain ⟨hI, hF, hT⟩ := trailerOk_of_reach h
  have he' : e < (Quorum.init addrs).made := hF.made ▸ he
  have htr := hT.trailer hF hI he'
  intro c hc
  refine hF.dataApplied hI he' ?_
  rw [htr] at hseq hc
  split at hseq
  · omega
  · rename_i h0
    rw [if_neg h0] at hc
    omega

/-- A call with one peer: it is applied, completes and returns. -/
def served (w : Call) (k : ℕ) : List (Event ℕ) :=
  [.begin w, .put 0 16, .post, .fetch 0 (2 * k) 0 16, .fetch 0 (2 * k + 1) 0 16, .apply 0, .apply 0,
    .complete 0 k .data, .complete 0 k .seq, .poll 0, .ret]

theorem trailer_behind_data_served : ∃ s : Sys ℕ,
    Trace.Reach (Trace.restrict Timely (step 1 .anyTime)) (init tiny [4]) s ∧
      readSeqNum (tiny.region (s.mem (s.q.entry 0).addr)) = 1 ∧ ∀ c, c ≤ 1 → DataApplied tiny s 0 c := by
  have hrun : ∃ s : Sys ℕ, Trace.Reach (Trace.restrict Timely (step 1 .anyTime)) (init tiny [4]) s ∧
      0 < s.q.made ∧ readSeqNum (tiny.region (s.mem (s.q.entry 0).addr)) = 1 :=
    Trace.exists_reach_of_exec (served (.append [1]) 0 ++ served (.append [2]) 1) (by decide)
  obtain ⟨s, hs, he, hseq⟩ := hrun
  have hall := trailer_behind_data hs he hseq.ge
  rw [hseq] at hall
  exact ⟨s, hs, hseq, hall⟩

/-- Three peers, of which the third one reads its first trailer write when
the second call has already stored its number. -/
def slowPeer : List (Event ℕ) :=
  [.begin (.append [1]), .put 0 16, .post,
    .fetch 0 0 0 16, .fetch 0 1 0 16, .apply 0, .apply 0, .complete 0 0 .data, .complete 0 0 .seq, .poll 0,
    .fetch 1 0 0 16, .fetch 1 1 0 16, .apply 1, .apply 1, .complete 1 0 .data, .complete 1 0 .seq, .poll 1, .ret,
    .begin (.append [2]), .put 0 16, .post, .fetch 2 0 0 16, .fetch 2 1 0 16, .apply 2, .apply 2]

/-- The third peer's trailer is 1, and it does not have the second call. -/
theorem trailer_ahead : ¬ ∀ s : Sys ℕ,
    Trace.Reach (Trace.restrict (fun _ ev => ev.Local) (step 3 .anyTime)) (init tiny [0, 1, 2]) s →
    ∀ e, e < s.q.made → 1 ≤ readSeqNum (tiny.region (s.mem (s.q.entry e).addr)) →
    ∀ c, c ≤ readSeqNum (tiny.region (s.mem (s.q.entry e).addr)) → DataApplied tiny s e c := by
  intro h
  have hrun : ∃ s : Sys ℕ,
      Trace.Reach (Trace.restrict (fun _ ev => ev.Local) (step 3 .anyTime)) (init tiny [0, 1, 2]) s ∧
      2 < s.q.made ∧ readSeqNum (tiny.region (s.mem (s.q.entry 2).addr)) = 1 ∧
      ∀ o ∈ (s.conn 2).ops.take (s.conn 2).applied, o.tag ≠ .token 1 .data :=
    Trace.exists_reach_of_exec slowPeer (by decide)
  obtain ⟨s, hs, he, hseq, hnone⟩ := hrun
  obtain ⟨w, -, o, ho, htag, -⟩ := h s hs 2 he hseq.ge 1 hseq.ge
  exact hnone o ho htag

end Sys
end ComputeSideLog
