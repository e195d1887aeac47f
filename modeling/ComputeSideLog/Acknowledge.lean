/-
# What a return of `Append` or `WritePos` means

`WriteQuorum` returns when `quorumCompleted` says so, through one of two
branches. If the count is reached, the data write of the call is applied at
more than half of the replication factor of distinct peers, and each of them
holds the bytes at that moment unless its server has crashed since it
applied them. If too few peers are left, it returns at once, so that the
client watcher can take `recover_lock` and suspend further writes; then
nothing is said about the bytes (`acknowledged_majority`).
-/
import ComputeSideLog.Delivery

namespace ComputeSideLog

open Quorum (Half)

/-- The memory holds the bytes at `off`. -/
def Mem.Holds (m : Mem) (off : ℕ) (bs : List UInt8) : Prop := ∀ i, i < bs.length → m (off + i) = bs.getD i 0

namespace Sys

variable {α : Type*} {L : Layout} {s : Sys α}

/-- More than half of the replication factor of distinct peers hold the bytes. -/
def MajorityHolds (rep : ℕ) (s : Sys α) (off : ℕ) (bs : List UInt8) : Prop :=
  ∃ es : List ℕ, rep / 2 < es.length ∧ (es.map fun e => (s.q.entry e).addr).Nodup ∧
    ∀ e ∈ es, e < s.q.made ∧ (s.mem (s.q.entry e).addr).Holds off bs

/-- The bytes of the last call in the image of all calls. -/
theorem LastCall.image_holds {log : List Call} {off size : ℕ} (h : LastCall L log off size) {w : Call}
    (hw : log.getLast? = some w) (hend : off + size ≤ L.seqOffset) :
    Mem.Holds (image L log log.length) off (w.buf.take size) := by
  obtain ⟨ws, w', rfl, rfl, rfl⟩ := h
  obtain rfl : w' = w := by simpa using hw
  have hwf : ((Client.fresh L).run ws).Wf := (Client.fresh_wf L).run ws
  have hoff : ((Client.fresh L).run ws).seqOffset = L.seqOffset := by
    rw [Client.run_seqOffset, Client.fresh_seqOffset]
  intro i hi
  rw [Client.length_take_size] at hi
  rw [image, List.take_length, Client.run_concat, Client.call_mem_data hwf (hoff ▸ hend) hi,
    List.getD_eq_getElem?_getD, List.getD_eq_getElem?_getD, List.getElem?_take_of_lt hi]

/-- A completed token of the running call has its data write applied. -/
theorem Inv.data_applied (h : Inv L s) {off size : ℕ} (hpc : s.pc = .posted off size) {tokens : List (ℕ × ℕ)}
    (hw : s.q.waiting = some tokens) {t : ℕ × ℕ} (ht : t ∈ tokens) (hf : s.q.flag t = true) :
    ∃ o ∈ (s.conn t.1).ops.take (s.conn t.1).applied, o.tag = .token t.2 .data ∧ o.born = s.log.length ∧
      o.off = off ∧ o.len = size % 2 ^ 32 := by
  obtain ⟨o, ho, htag⟩ := h.done t.1 t.2 .data (h.quorum.completed_of_flag hf le_rfl .data)
  have hshape := (h.conn t.1).shape o (List.mem_of_mem_take ho)
  simp only [Shape, htag] at hshape
  obtain ⟨hb, w, hget, hoff, hlen⟩ := hshape
  have hidx := (h.waiting tokens hw).2 t ht
  have hlast := h.writer.pc
  simp only [PcOk, hpc] at hlast
  obtain ⟨hpos, w', hget', hoff', hsize'⟩ := hlast.get
  -- the token is of the last call of the log
  rw [show (s.conn t.1).first + t.2 = s.log.length - 1 by omega] at hget hoff hlen
  obtain rfl : w = w' := Option.some.inj (hget.symm.trans hget')
  exact ⟨o, ho, htag, hb.trans hidx, hoff.trans hoff'.symm, by rw [hlen, hsize']⟩

variable [DecidableEq α] {rep : ℕ} {r : Reads}

/-- **An acknowledgement means a majority, or too few peers.** For a call that
ends at or below the trailer and is shorter than `2^32` bytes: when it
returns, too few peers are left for a quorum, or the data write that was posted
for it, the last call of the log, is applied at more than half of the
replication factor of distinct peers, and each of them whose server has not
crashed since holds the accepted bytes. -/
theorem acknowledged_majority [Inhabited α] {addrs : List α} (h : Trace.Reach (step rep r) (init L addrs) s)
    {off size : ℕ} (hpc : s.pc = .posted off size) (hret : (step rep r s .ret).isSome) {w : Call}
    (hw : s.log.getLast? = some w) (hend : off + size ≤ L.seqOffset) (hshort : size < 2 ^ 32) :
    s.q.peers.length ≤ rep / 2 ∨ ∃ es : List ℕ, rep / 2 < es.length ∧
      (es.map fun e => (s.q.entry e).addr).Nodup ∧ ∀ e ∈ es, e < s.q.made ∧
        (∃ o ∈ (s.conn e).ops.take (s.conn e).applied, (∃ i, o.tag = .token i .data) ∧ o.born = s.log.length ∧
          o.off = off ∧ o.len = size) ∧
        ((s.conn e).lost = false → (s.mem (s.q.entry e).addr).Holds off (w.buf.take size)) := by
  have hI := inv_of_reach h
  rcases Nat.lt_or_ge (rep / 2) s.q.peers.length with hcount | hfew
  swap
  · exact .inl hfew
  have hqret : (Quorum.step rep s.q .ret).isSome := by simpa [step] using hret
  obtain ⟨q, hq⟩ := Option.isSome_iff_exists.mp hqret
  obtain ⟨tokens, hwait, -⟩ := Quorum.ret_waiting hq
  obtain ⟨ts, hsub, hlen, hnodup, hflag⟩ := Quorum.flags_of_count hI.quorum hwait hqret hcount
  refine .inr ⟨ts.map Prod.fst, by rwa [List.length_map], ?_, fun e he => ?_⟩
  · rw [List.map_map]
    exact hnodup
  · obtain ⟨t, ht, rfl⟩ := List.mem_map.mp he
    have hmem := hsub.subset ht
    have hmade := ((hI.quorum.waiting tokens hwait).2 t hmem).1
    obtain ⟨o, ho, htag, hborn, hoff, hlen⟩ := hI.data_applied hpc hwait hmem (hflag t ht)
    rw [Nat.mod_eq_of_lt hshort] at hlen
    refine ⟨hmade, ⟨o, ho, ⟨t.2, htag⟩, hborn, hoff, hlen⟩, fun hl i hi => ?_⟩
    have hisize : i < size := hi.trans_le (List.length_take_le _ _)
    -- the byte is covered by a write posted at the last call, so it is of the last image
    obtain ⟨j, hj, hval, hcov⟩ := hI.mem_image hmade hl (off + i)
    have hge := hcov o ho ⟨by omega, by omega⟩
    have hlast := hI.writer.pc
    simp only [PcOk, hpc] at hlast
    rw [hval, show j = s.log.length by omega]
    exact hlast.image_holds hw hend i hi

/-- One call that one of two peers applies before the other. -/
def oneCall : List (Event ℕ) :=
  [.begin (.append [7]), .put 0 16, .post, .fetch 0 0 0 16, .fetch 0 1 0 16, .apply 0, .apply 0,
    .complete 0 0 .seq, .complete 0 0 .data, .fetch 1 0 0 16, .fetch 1 1 0 16, .apply 1, .apply 1,
    .complete 1 0 .data, .complete 1 0 .seq, .poll 0, .poll 1]

theorem acknowledged_majority_oneCall : ∃ s : Sys ℕ,
    Trace.Reach (step 2 .anyTime) (init tiny [5, 6]) s ∧ s.pc = .posted 0 1 ∧
      ∃ es : List ℕ, 2 / 2 < es.length ∧ (es.map fun e => (s.q.entry e).addr).Nodup ∧
        ∀ e ∈ es, (∃ o ∈ (s.conn e).ops.take (s.conn e).applied, (∃ i, o.tag = .token i .data) ∧
            o.born = s.log.length ∧ o.off = 0 ∧ o.len = 1) ∧
          ((s.conn e).lost = false → (s.mem (s.q.entry e).addr).Holds 0 [7]) := by
  have hrun : ∃ s : Sys ℕ, Trace.Reach (step 2 .anyTime) (init tiny [5, 6]) s ∧
      s.log.getLast? = some (.append [7]) ∧ (step 2 .anyTime s .ret).isSome ∧ 2 / 2 < s.q.peers.length ∧
        s.pc = .posted 0 1 :=
    Trace.exists_reach_of_exec oneCall (by decide)
  obtain ⟨s, hs, hw, hret, hcount, hpc⟩ := hrun
  refine ⟨s, hs, hpc, ?_⟩
  obtain hfew | ⟨es, hlen, hnodup, hall⟩ :=
    acknowledged_majority hs hpc hret hw (by decide) (by decide)
  · omega
  · exact ⟨es, hlen, hnodup, fun e he => (hall e he).2⟩

/-! ### Where a return means less than a majority -/

/-- In every run, a return of one or more bytes in a state that is `ok` finds
the bytes at a majority. -/
def AckIsMajority (rep : ℕ) (addrs : List ℕ) (ok : Sys ℕ → Prop) : Prop :=
  ∀ s, Trace.Reach (step rep .anyTime) (init tiny addrs) s → ok s → ∀ off size w, s.pc = .posted off size →
    0 < size → s.log.getLast? = some w → (step rep .anyTime s .ret).isSome →
    MajorityHolds rep s off (w.buf.take size)

omit [DecidableEq α] in
theorem not_majorityHolds {off : ℕ} {bs : List UInt8} {i : ℕ} (hi : i < bs.length)
    (h : ∀ e, e < s.q.made → s.mem (s.q.entry e).addr (off + i) ≠ bs.getD i 0) :
    ¬ MajorityHolds rep s off bs := by
  rintro ⟨es, hlen, -, hall⟩
  obtain ⟨e, he⟩ := List.exists_mem_of_ne_nil es (List.ne_nil_of_length_pos (by omega))
  obtain ⟨hmade, hold⟩ := hall e he
  exact h e hmade (hold i hi)

/-- The call `w` with one peer, up to the poll after its completion. -/
def completedCall (w : Call) : List (Event ℕ) :=
  [.begin w, .put 0 16, .post, .fetch 0 0 0 16, .fetch 0 1 0 16, .apply 0, .apply 0, .complete 0 0 .data,
    .complete 0 0 .seq, .poll 0]

/-- The only peer is removed while the writer waits, and `WriteQuorum` returns
with the byte nowhere; a peer that was counted crashes before the return; and
a call that ends past the trailer has its bytes there overwritten by the
sequence number. -/
theorem returned_without_majority :
    ¬ AckIsMajority 1 [0] (fun s => ∀ e, e < s.q.made → (s.conn e).lost = false) ∧
      ¬ AckIsMajority 1 [0] (fun s => 1 / 2 < s.q.peers.length) ∧
      ¬ AckIsMajority 1 [0] (fun s => (∀ e, e < s.q.made → (s.conn e).lost = false) ∧ 1 / 2 < s.q.peers.length) := by
  refine ⟨?_, ?_, ?_⟩
  · intro h
    have hrun : ∃ s : Sys ℕ, Trace.Reach (step 1 .anyTime) (init tiny [0]) s ∧
        (∀ e, e < s.q.made → (s.conn e).lost = false) ∧ s.pc = .posted 0 1 ∧
        s.log.getLast? = some (.append [7]) ∧ (step 1 .anyTime s .ret).isSome ∧
        ∀ e, e < s.q.made → s.mem (s.q.entry e).addr (0 + 0) ≠ 7 :=
      Trace.exists_reach_of_exec [.begin (.append [7]), .put 0 16, .post, .erase 0] (by decide)
    obtain ⟨s, hs, hok, hpc, hw, hret, hnone⟩ := hrun
    exact not_majorityHolds (by decide) hnone (h s hs hok 0 1 _ hpc (by decide) hw hret)
  · intro h
    have hrun : ∃ s : Sys ℕ, Trace.Reach (step 1 .anyTime) (init tiny [0]) s ∧ 1 / 2 < s.q.peers.length ∧
        s.pc = .posted 0 1 ∧ s.log.getLast? = some (.append [7]) ∧ (step 1 .anyTime s .ret).isSome ∧
        ∀ e, e < s.q.made → s.mem (s.q.entry e).addr (0 + 0) ≠ 7 :=
      Trace.exists_reach_of_exec (completedCall (.append [7]) ++ [.crash 0]) (by decide)
    obtain ⟨s, hs, hok, hpc, hw, hret, hnone⟩ := hrun
    exact not_majorityHolds (by decide) hnone (h s hs hok 0 1 _ hpc (by decide) hw hret)
  · intro h
    have hrun : ∃ s : Sys ℕ, Trace.Reach (step 1 .anyTime) (init tiny [0]) s ∧
        ((∀ e, e < s.q.made → (s.conn e).lost = false) ∧ 1 / 2 < s.q.peers.length) ∧ s.pc = .posted 7 2 ∧
        s.log.getLast? = some (.writePos [7, 8] 7) ∧ (step 1 .anyTime s .ret).isSome ∧
        ∀ e, e < s.q.made → s.mem (s.q.entry e).addr (7 + 1) ≠ 8 :=
      Trace.exists_reach_of_exec (completedCall (.writePos [7, 8] 7)) (by decide)
    obtain ⟨s, hs, hok, hpc, hw, hret, hnone⟩ := hrun
    exact not_majorityHolds (by decide) hnone (h s hs hok 7 2 _ hpc (by decide) hw hret)

end Sys
end ComputeSideLog
