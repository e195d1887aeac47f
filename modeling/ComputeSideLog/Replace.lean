/-
# A replacement peer

`replacePeer` makes the new peer visible in `remote_props` before
`recoverPeer` posts the bulk copy of the log, and the watcher does not hold
`recover_lock`. A write that slips in between is posted to the new peer
first; its token is flagged although the peer lacks the older bytes
(`flagged_without_log`).

If every write is posted only when each entry is of `init` or has its bulk
write posted, the bulk write is ahead of all tokens on the same connection,
and a flagged token means that the peer holds every byte of the file as of
that call, or newer (`flagged_up_to_date`).
-/
import ComputeSideLog.Agreement

namespace ComputeSideLog

open Quorum (Half)

section FileSize

variable {L : Layout} {log : List Call} (ha : AllIn (Client.fresh L) log)

theorem fileSize_mono {m m' : ℕ} (h : m ≤ m') : (clientAt L log m).fileSize ≤ (clientAt L log m').fileSize := by
  have hsplit : log.take m' = log.take m ++ (log.take m').drop m := by
    have hcut := List.take_append_drop m (log.take m')
    rw [List.take_take, min_eq_left h] at hcut
    exact hcut.symm
  rw [clientAt, clientAt, hsplit, Client.run_append]
  exact fileSize_le_run _ _

include ha

theorem fileSize_le (m : ℕ) : (clientAt L log m).fileSize ≤ L.seqOffset := by
  have htidy := Client.tidy_run _ _ (Client.fresh_wf L) (Client.fresh_tidy L) (allIn_take ha m)
  have hle := htidy.size_le
  rwa [Client.run_seqOffset, Client.fresh_seqOffset] at hle

/-- A byte that a call writes below the trailer is inside the file after it. -/
theorem lt_fileSize_of_writes {m x : ℕ} {w : Call} (hw : log[m]? = some w)
    (hx : w.Writes (clientAt L log m) x) (hlt : x < L.seqOffset) : x < (clientAt L log (m + 1)).fileSize := by
  rcases hx with hx | hx
  · have hend := Client.end_lt (clientAt_wf L log m) (allIn_get ha hw)
    rw [clientAt_succ hw, Client.call_fileSize, Nat.mod_eq_of_lt hend]
    exact hx.2.trans_le (le_max_right _ _)
  · rw [clientAt_seqAddr] at hx
    omega

end FileSize

namespace Sys

variable {α : Type*} {L : Layout} {s t : Sys α}

/-- The condition on a step: calls are in bounds, and a write is posted only
when no entry waits for its bulk write. -/
def CopyFirst (s : Sys α) : Event α → Prop
  | .begin w => w.InBounds s.cli
  | .post => ∀ e ∈ s.q.props, (s.conn e).copied = true
  | _ => True

instance (s : Sys α) : ∀ ev : Event α, Decidable (CopyFirst s ev)
  | .begin w => inferInstanceAs (Decidable (w.InBounds s.cli))
  | .post => inferInstanceAs (Decidable (∀ e ∈ s.q.props, (s.conn e).copied = true))
  | .put _ _ | .fetch _ _ _ _ | .apply _ | .complete _ _ _ | .poll _ | .ret | .erase _ | .add _ _ | .bulk
  | .bulkDone | .suspend | .resume | .crash _ => isTrue trivial

/-- What the writes of a connection are, in order. -/
def tags (c : Conn) : List Role := c.ops.map Dma.Op.tag

/-- The connection is of `init`, or its bulk write is among the first `k`. -/
def Backed (c : Conn) (k : ℕ) : Prop := c.first = 0 ∨ Role.bulk .data ∈ (tags c).take k

/-- The bulk write of a connection, if it needs one, is ahead of its tokens. -/
structure CopyOk (c : Conn) : Prop where
  copied : c.copied = true → Backed c (tags c).length
  tokens : ∀ (k i : ℕ) (h : Half), (tags c)[k]? = some (.token i h) → Backed c k

/-- Only what the writes are, the calls before them and the flag matter. -/
theorem CopyOk.congr {c c' : Conn} (h : CopyOk c) (htags : tags c' = tags c) (hfirst : c'.first = c.first)
    (hcopied : c'.copied = c.copied) : CopyOk c' := by
  have hback : ∀ k, Backed c' k ↔ Backed c k := by
    intro k
    rw [Backed, Backed, htags, hfirst]
  refine ⟨fun hc => ?_, fun k i half htag => ?_⟩
  · rw [hback, htags]
    exact h.copied (hcopied ▸ hc)
  · rw [hback]
    exact h.tokens k i half (htags ▸ htag)

/-- More posts leave the bulk write where it is. -/
theorem Backed.push {c : Conn} {k k' : ℕ} (h : Backed c k) (hk : k ≤ k') (os : List (Dma.Op Role)) (b : Bool) :
    Backed { c.push os with copied := b } k' := by
  refine h.imp_right fun hmem => ?_
  have htags : tags { c.push os with copied := b } = tags c ++ os.map Dma.Op.tag := List.map_append
  rw [htags, List.take_append]
  exact List.mem_append_left _ (List.take_subset_take_left _ hk hmem)

theorem CopyOk.push {c : Conn} (h : CopyOk c) {os : List (Dma.Op Role)} {b : Bool}
    (hcopied : b = true → Backed c (tags c).length ∨ Role.bulk .data ∈ os.map Dma.Op.tag)
    (htokens : (∀ i h, Role.token i h ∉ os.map Dma.Op.tag) ∨ Backed c (tags c).length) :
    CopyOk { c.push os with copied := b } := by
  have htags : tags { c.push os with copied := b } = tags c ++ os.map Dma.Op.tag := by simp [tags, Conn.push]
  refine ⟨fun hb => ?_, fun k i half htag => ?_⟩
  · rcases hcopied hb with hback | hmem
    · exact hback.push (by rw [htags, List.length_append]; omega) os b
    · refine .inr ?_
      rw [List.take_length, htags]
      exact List.mem_append_right _ hmem
  · rw [htags] at htag
    by_cases hk : k < (tags c).length
    · rw [List.getElem?_append_left hk] at htag
      exact (h.tokens k i half htag).push le_rfl os b
    · rw [List.getElem?_append_right (not_lt.mp hk)] at htag
      rcases htokens with hnone | hback
      · exact absurd (List.mem_of_getElem? htag) (hnone i half)
      · exact hback.push (not_lt.mp hk) os b

variable [DecidableEq α] {rep : ℕ} {r : Reads}

theorem copyOk_step {ev : Event α} (h : ∀ e, CopyOk (s.conn e)) (hcf : CopyFirst s ev)
    (hs : step rep r s ev = some t) (e : ℕ) : CopyOk (t.conn e) := by
  cases Step.of_step hs with
  | post hpc hst hq =>
    simp only [Sys.post]
    split
    · rename_i he
      have hb := (h e).copied (hcf e he)
      exact (h e).push (b := (s.conn e).copied) (fun _ => .inl hb) (.inr hb)
    · exact h e
  | fetch e' k off len _ _ =>
    exact Conn.of_update (h e) fun _ => (h e').congr (Dma.map_modify_fetch (fun _ => rfl) _ k) rfl rfl
  | apply e' _ _ _ _ => exact Conn.of_update (h e) fun _ => (h e').congr rfl rfl rfl
  | add a ok _ _ =>
    simp only [Sys.add]
    split
    · exact ⟨fun hc => absurd hc (by simp [Conn.new]), fun k i half htag => absurd htag (by simp [tags, Conn.new])⟩
    · split
      · exact (h e).congr rfl rfl rfl
      · exact h e
  | bulk _ =>
    rename_i e' _
    refine Conn.of_update (h e) fun _ => (h e').push (fun _ => .inr ?_) (.inl fun i half hmem => ?_)
    · simp [postPair, Client.syncWrites, Client.writeTwoPlace]
    · simp [postPair, Client.syncWrites, Client.writeTwoPlace] at hmem
  | crash a =>
    simp only [Sys.crash]
    split
    · exact (h e).congr rfl rfl rfl
    · exact h e
  | _ => exact h e

/-! ### A flagged token -/

omit [DecidableEq α] in
/-- The bulk write ahead of an applied token covers what earlier calls wrote. -/
theorem Inv.bulk_applied (h : Inv L s) (hL : L.size ≤ 2 ^ 32) (ha : AllIn (Client.fresh L) s.log) {e i : ℕ}
    (hc : CopyOk (s.conn e)) (hd : (s.conn e).Done (.token i .data)) (hfirst : 0 < (s.conn e).first) :
    ∃ o ∈ (s.conn e).ops.take (s.conn e).applied, (s.conn e).first ≤ o.born ∧
      ∀ x, x < (clientAt L s.log (s.conn e).first).fileSize → o.Covers x := by
  obtain ⟨o, ho, htag⟩ := hd
  obtain ⟨k, hk, rfl⟩ := List.mem_take_iff_getElem.mp ho
  have hget : (tags (s.conn e))[k]? = some (.token i .data) := by
    rw [tags, List.getElem?_map, List.getElem?_eq_getElem (by omega), Option.map_some, htag]
  -- the bulk write is at an earlier position, and positions are applied in order
  have hmem := (hc.tokens k i .data hget).resolve_left (by omega)
  rw [tags, ← List.map_take, List.mem_map] at hmem
  obtain ⟨o', ho', htag'⟩ := hmem
  have happ : o' ∈ (s.conn e).ops.take (s.conn e).applied :=
    List.take_subset_take_left _ (by omega) ho'
  have hin := List.mem_of_mem_take ho'
  have hshape := (h.conn e).shape o' hin
  simp only [Shape, htag'] at hshape
  obtain ⟨hoff, m, hm, -, hlen⟩ := hshape
  have hborn := ((h.conn e).born o' hin).1
  refine ⟨o', happ, hborn, fun x hx => ?_⟩
  have hle := fileSize_le ha m
  have hmono : (clientAt L s.log (s.conn e).first).fileSize ≤ (clientAt L s.log m).fileSize :=
    fileSize_mono (hborn.trans hm)
  have hsz := L.seqOffset_add
  simp only [seqWidth] at hsz
  rw [Nat.mod_eq_of_lt (by omega)] at hlen
  exact ⟨by omega, by omega⟩

omit [DecidableEq α] in
/-- The call of an applied token is in the log. -/
theorem Inv.token_le (h : Inv L s) {e i : ℕ} (hd : (s.conn e).Done (.token i .data)) :
    (s.conn e).first + i + 1 ≤ s.log.length := by
  obtain ⟨o, ho, htag⟩ := hd
  have hin := List.mem_of_mem_take ho
  have hshape := (h.conn e).shape o hin
  simp only [Shape, htag] at hshape
  exact hshape.1 ▸ ((h.conn e).born o hin).2.trans s.postedCalls_le

/-- The invariants of a run whose writes wait for the bulk copy. -/
theorem copyOk_of_reach [Inhabited α] {addrs : List α}
    (h : Trace.Reach (Trace.restrict CopyFirst (step rep r)) (init L addrs) s) :
    Inv L s ∧ AllIn (Client.fresh L) s.log ∧ ∀ e, CopyOk (s.conn e) := by
  refine ⟨inv_of_reach h.of_restrict, ?_⟩
  refine h.inv_restrict_of (J := Inv L) (I := fun s => AllIn (Client.fresh L) s.log ∧ ∀ e, CopyOk (s.conn e))
    (fun s hs => inv_of_reach hs) ⟨trivial, fun e => ?_⟩ ?_
  · exact ⟨fun _ => .inl rfl, fun k i half htag => .inl rfl⟩
  · rintro s ev t hI ⟨ha, hcopy⟩ hcf hst
    refine ⟨?_, copyOk_step hcopy hcf hst⟩
    exact allIn_step hI ha (fun w hw => by subst hw; exact hcf) hst

/-- **A replacement peer counts only when it holds the whole log, if writes
wait for the bulk copy.** In every run in which calls are in bounds and a
write is posted only when no entry waits for its bulk write: if a token is
flagged and its server has not crashed since, the peer holds every byte of
the file as of the token's call, or a newer one. -/
theorem flagged_up_to_date [Inhabited α] (hL : L.size ≤ 2 ^ 32) {addrs : List α}
    (h : Trace.Reach (Trace.restrict CopyFirst (step rep r)) (init L addrs) s) {e i : ℕ} (he : e < s.q.made)
    (hl : (s.conn e).lost = false) (hf : s.q.flag (e, i) = true) {x : ℕ}
    (hx : x < (clientAt L s.log ((s.conn e).first + i + 1)).fileSize) :
    ∃ j, (s.conn e).first + i + 1 ≤ j ∧ j ≤ s.log.length ∧ s.mem (s.q.entry e).addr x = image L s.log j x := by
  obtain ⟨hI, ha, hcopy⟩ := copyOk_of_reach h
  have hs := allShort_of_size hL s.log (Client.fresh_seqOffset L) ha
  have hdone : ∀ j, j ≤ i → ∀ half, (s.conn e).Done (.token j half) := fun j hj half =>
    hI.done e j half (hI.quorum.completed_of_flag hf hj half)
  have hcle := hI.token_le (hdone i le_rfl .data)
  have hxoff : x < L.seqOffset := hx.trans_le (fileSize_le ha _)
  refine hI.mem_current he hl hcle fun c hpos hc hne => ?_
  obtain ⟨w, hw, hwr⟩ := exists_writes_of_change hpos (hc.trans hcle) hne
  rcases Nat.lt_or_ge (s.conn e).first c with hlt | hge
  · -- a call through this connection: its own token
    have hidx : c - 1 = (s.conn e).first + (c - (s.conn e).first - 1) := by omega
    rw [hidx] at hw hwr
    obtain ⟨half, hsend⟩ := (hI.conn e).sends ha hs hw hwr
    obtain ⟨o, ho, htag⟩ := hdone (c - (s.conn e).first - 1) (by omega) half
    obtain ⟨hcov, hborn⟩ := hsend o (List.mem_of_mem_take ho) htag
    exact ⟨o, ho, hcov, by omega⟩
  · -- an earlier call: the bulk write
    obtain ⟨o, ho, hborn, hcov⟩ := hI.bulk_applied hL ha (hcopy e) (hdone i le_rfl .data) (by omega)
    have hin := lt_fileSize_of_writes ha hw hwr hxoff
    rw [Nat.sub_add_cancel hpos] at hin
    exact ⟨o, ho, hcov x (hin.trans_le (fileSize_mono hge)), hge.trans hborn⟩

/-- The only peer is replaced after one append, and the second append is
posted after the bulk write. -/
def copiedFirst : List (Event ℕ) :=
  [.begin (.append [1]), .put 0 16, .post, .fetch 0 0 0 16, .fetch 0 1 0 16, .apply 0, .apply 0,
    .complete 0 0 .data, .complete 0 0 .seq, .poll 0, .ret, .erase 0, .add 1 true, .bulk,
    .begin (.append [2]), .put 0 16, .post, .fetch 1 0 0 16, .fetch 1 1 0 16, .fetch 1 2 0 16, .fetch 1 3 0 16,
    .apply 1, .apply 1, .bulkDone, .apply 1, .apply 1, .complete 1 0 .data, .complete 1 0 .seq, .poll 1]

theorem flagged_up_to_date_copiedFirst : ∃ s : Sys ℕ,
    Trace.Reach (Trace.restrict CopyFirst (step 1 .anyTime)) (init tiny [0]) s ∧ s.q.flag (1, 0) = true ∧
      (s.q.entry 1).addr = 1 ∧ s.mem 1 0 = image tiny [.append [1], .append [2]] 2 0 := by
  have hrun : ∃ s : Sys ℕ, Trace.Reach (Trace.restrict CopyFirst (step 1 .anyTime)) (init tiny [0]) s ∧
      s.q.flag (1, 0) = true ∧ (s.q.entry 1).addr = 1 ∧ s.log = [.append [1], .append [2]] ∧ 1 < s.q.made ∧
        (s.conn 1).lost = false ∧ (s.conn 1).first = 1 :=
    Trace.exists_reach_of_exec copiedFirst (by decide)
  obtain ⟨s, hs, hf, haddr, hlog, hmade, hl, hfirst⟩ := hrun
  obtain ⟨j, h1, h2, h3⟩ := flagged_up_to_date (x := 0) (by decide) hs hmade hl hf (by rw [hlog, hfirst]; decide)
  rw [hfirst] at h1
  rw [hlog] at h2 h3
  rw [haddr] at h3
  obtain rfl : j = 2 := le_antisymm h2 h1
  exact ⟨s, hs, hf, haddr, h3⟩

/-- As above, but the second append is posted between `AddPeer` and the bulk
write. -/
def writtenFirst : List (Event ℕ) :=
  [.begin (.append [1]), .put 0 16, .post, .fetch 0 0 0 16, .fetch 0 1 0 16, .apply 0, .apply 0,
    .complete 0 0 .data, .complete 0 0 .seq, .poll 0, .ret, .erase 0, .add 1 true,
    .begin (.append [2]), .put 0 16, .post, .fetch 1 0 0 16, .fetch 1 1 0 16, .apply 1, .apply 1,
    .complete 1 0 .data, .complete 1 0 .seq, .poll 1]

/-- The token of the second append is flagged for a peer that does not have
the first one. -/
theorem flagged_without_log : ¬ ∀ s : Sys ℕ, Trace.Reach (step 1 .anyTime) (init tiny [0]) s →
    ∀ e i, e < s.q.made → (s.conn e).lost = false → s.q.flag (e, i) = true →
    ∀ x, x < (clientAt tiny s.log ((s.conn e).first + i + 1)).fileSize →
    ∃ j, (s.conn e).first + i + 1 ≤ j ∧ j ≤ s.log.length ∧ s.mem (s.q.entry e).addr x = image tiny s.log j x := by
  intro h
  have hrun : ∃ s : Sys ℕ, Trace.Reach (step 1 .anyTime) (init tiny [0]) s ∧ s.q.flag (1, 0) = true ∧
      s.log = [.append [1], .append [2]] ∧ 1 < s.q.made ∧ (s.conn 1).lost = false ∧ (s.conn 1).first = 1 ∧
        s.mem (s.q.entry 1).addr 0 = 0 :=
    Trace.exists_reach_of_exec writtenFirst (by decide)
  obtain ⟨s, hs, hf, hlog, hmade, hl, hfirst, hmem⟩ := hrun
  obtain ⟨j, h1, h2, h3⟩ := h s hs 1 0 hmade hl hf 0 (by rw [hlog, hfirst]; decide)
  rw [hfirst] at h1
  rw [hlog] at h2 h3
  obtain rfl : j = 2 := le_antisymm h2 h1
  rw [hmem] at h3
  exact absurd h3 (by decide)

end Sys
end ComputeSideLog
