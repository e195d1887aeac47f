/-
# Runs with a fixed peer set

Without the watcher and without crashes the connections of `init` stay, each
to a peer of its own. Then the writes of a connection are the data and the
trailer of call 1, of call 2, and so on, and a peer's memory is what the
applied ones of them left there, in that order (`FixedOk`).
-/
import ComputeSideLog.Delivery

namespace ComputeSideLog

open Quorum (Half)

/-- The half that the `k`-th write of a connection is. -/
def halfAt (k : ℕ) : Half := if k % 2 = 0 then .data else .seq

namespace Sys

variable {α : Type*} {L : Layout} {s t : Sys α}

/-- The steps of the writer, the network card and the peers. -/
def Event.Local : Event α → Prop
  | .begin _ => True
  | .put _ _ => True
  | .post => True
  | .fetch _ _ _ _ => True
  | .apply _ => True
  | .complete _ _ _ => True
  | .poll _ => True
  | .ret => True
  | _ => False

instance : ∀ ev : Event α, Decidable ev.Local
  | .begin _ | .put _ _ | .post | .fetch _ _ _ _ | .apply _ | .complete _ _ _ | .poll _ | .ret => isTrue trivial
  | .erase _ | .add _ _ | .bulk | .bulkDone | .suspend | .resume | .crash _ => isFalse id

/-- The invariant of a run with the `m` peers of `init`. -/
structure FixedOk (m : ℕ) (s : Sys α) : Prop where
  made : s.q.made = m
  live : ∀ e, e < m → e ∈ s.q.props
  inj : ∀ e e', e < m → e' < m → (s.q.entry e).addr = (s.q.entry e').addr → e = e'
  first : ∀ e, e < m → (s.conn e).first = 0
  lost : ∀ e, e < m → (s.conn e).lost = false
  length : ∀ e, e < m → (s.conn e).ops.length = 2 * s.postedCalls
  tags : ∀ e, e < m → ∀ (k : ℕ) (o : Dma.Op Role), (s.conn e).ops[k]? = some o → o.tag = .token (k / 2) (halfAt k)
  landed : ∀ e, e < m → s.landed (s.q.entry e).addr = ((s.conn e).ops.take (s.conn e).applied).reverse

theorem fixedOk_init [DecidableEq α] [Inhabited α] (L : Layout) (addrs : List α) :
    FixedOk (Quorum.init addrs).made (init L addrs) where
  made := rfl
  live := (Quorum.blank_init addrs).live
  inj := (Quorum.blank_init addrs).inj
  first _ _ := rfl
  lost _ _ := rfl
  length _ _ := rfl
  tags _ _ k o ho := by simp [init, Conn.new] at ho
  landed _ _ := rfl

section

variable {m : ℕ}

section Positions

variable (h : FixedOk m s) (hI : Inv L s) {e k : ℕ} (he : e < m) {o : Dma.Op Role}
  (ho : (s.conn e).ops[k]? = some o)
include h hI he ho

/-- The data writes are at the even positions. -/
theorem FixedOk.even_op (hk : k % 2 = 0) : o.tag = .token (k / 2) .data ∧ o.born = k / 2 + 1 ∧
    ∃ w, s.log[k / 2]? = some w ∧ o.off = w.off (clientAt L s.log (k / 2)) ∧
      o.len = w.size (clientAt L s.log (k / 2)) % 2 ^ 32 := by
  have htag := h.tags e he k o ho
  rw [halfAt, if_pos hk] at htag
  have hshape := (hI.conn e).shape o (List.mem_of_getElem? ho)
  simp only [Shape, htag, h.first e he, Nat.zero_add] at hshape
  exact ⟨htag, hshape⟩

/-- The trailer writes are at the odd positions. -/
theorem FixedOk.odd_op (hk : k % 2 = 1) : o.tag = .token (k / 2) .seq ∧ o.born = k / 2 + 1 ∧
    o.off = L.seqOffset ∧ o.len = seqWidth := by
  have htag := h.tags e he k o ho
  rw [halfAt, if_neg (by omega)] at htag
  have hshape := (hI.conn e).shape o (List.mem_of_getElem? ho)
  simp only [Shape, htag, h.first e he, Nat.zero_add] at hshape
  exact ⟨htag, hshape⟩

end Positions

/-- Steps that touch no connection. -/
theorem FixedOk.same (h : FixedOk m s) (hmade : t.q.made = s.q.made) (hprops : t.q.props = s.q.props)
    (haddr : ∀ e, (t.q.entry e).addr = (s.q.entry e).addr) (hconn : t.conn = s.conn)
    (hp : t.postedCalls = s.postedCalls) (hlanded : t.landed = s.landed) : FixedOk m t where
  made := hmade.trans h.made
  live e he := hprops ▸ h.live e he
  inj e e' := by
    rw [haddr, haddr]
    exact h.inj e e'
  first := by
    rw [hconn]
    exact h.first
  lost := by
    rw [hconn]
    exact h.lost
  length := by
    rw [hconn, hp]
    exact h.length
  tags := by
    rw [hconn]
    exact h.tags
  landed e he := by
    rw [hconn, haddr, hlanded]
    exact h.landed e he

theorem FixedOk.fetch (h : FixedOk m s) {e k : ℕ} (hk : (s.conn e).applied ≤ k) (off len : ℕ) :
    FixedOk m { s with conn := Function.update s.conn e ((s.conn e).fetch k s.cli.buffer.mem off len) } := by
  refine ⟨h.made, h.live, h.inj, fun e' he' => ?_, fun e' he' => ?_, fun e' he' => ?_, fun e' he' => ?_,
    fun e' he' => ?_⟩
  · exact Conn.of_update (P := fun c => c.first = 0) (h.first e' he') fun hee => h.first e (hee ▸ he')
  · exact Conn.of_update (P := fun c => c.lost = false) (h.lost e' he') fun hee => h.lost e (hee ▸ he')
  · refine Conn.of_update (P := fun c => c.ops.length = 2 * s.postedCalls) (h.length e' he') fun hee => ?_
    simp only [Conn.fetch, List.length_modify]
    exact h.length e (hee ▸ he')
  · refine Conn.of_update (P := fun c => ∀ (k : ℕ) (o : Dma.Op Role), c.ops[k]? = some o →
      o.tag = .token (k / 2) (halfAt k)) (h.tags e' he') fun hee k' o ho => ?_
    simp only [Conn.fetch, List.getElem?_modify, Option.map_eq_map, Option.map_eq_some_iff] at ho
    obtain ⟨o₀, ho₀, rfl⟩ := ho
    have htag := h.tags e (hee ▸ he') k' o₀ ho₀
    split
    · exact htag
    · exact htag
  · refine Conn.of_update (P := fun c => s.landed (s.q.entry e').addr = (c.ops.take c.applied).reverse)
      (h.landed e' he') fun hee => ?_
    have htake : ((s.conn e).fetch k s.cli.buffer.mem off len).ops.take (s.conn e).applied =
        (s.conn e).ops.take (s.conn e).applied := Dma.take_modify_of_le hk
    show _ = (((s.conn e).fetch k s.cli.buffer.mem off len).ops.take (s.conn e).applied).reverse
    rw [htake, hee]
    exact h.landed e (hee ▸ he')

variable [DecidableEq α]

theorem FixedOk.land (h : FixedOk m s) {e : ℕ} {o : Dma.Op Role}
    (ho : (s.conn e).ops[(s.conn e).applied]? = some o) (he : e < m) : FixedOk m (s.land e o) := by
  refine ⟨h.made, h.live, h.inj, fun e' he' => ?_, fun e' he' => ?_, fun e' he' => ?_, fun e' he' => ?_,
    fun e' he' => ?_⟩
  · exact Conn.of_update (P := fun c => c.first = 0) (h.first e' he') fun _ => h.first e he
  · exact Conn.of_update (P := fun c => c.lost = false) (h.lost e' he') fun _ => h.lost e he
  · exact Conn.of_update (P := fun c => c.ops.length = 2 * s.postedCalls) (h.length e' he') fun _ => h.length e he
  · exact Conn.of_update (P := fun c => ∀ (k : ℕ) (o : Dma.Op Role), c.ops[k]? = some o →
      o.tag = .token (k / 2) (halfAt k)) (h.tags e' he') fun _ => h.tags e he
  · simp only [Sys.land]
    by_cases hee : e' = e
    · rw [hee, Function.update_self, Function.update_self, h.landed e he]
      simp [List.take_add_one, ho]
    · have hne : (s.q.entry e').addr ≠ (s.q.entry e).addr := fun ha => hee (h.inj e' e he' he ha)
      rw [Function.update_of_ne hee, Function.update_of_ne hne]
      exact h.landed e' he'

/-- The two writes of a call go to the even position and the odd one after it. -/
theorem postPair_tag {r : Reads} {c : Client} {off size n born i : ℕ} {o : Dma.Op Role}
    (ho : (postPair r (c.writeTwoPlace off size) (.token n) born)[i]? = some o) :
    o.tag = .token ((2 * n + i) / 2) (halfAt (2 * n + i)) := by
  simp only [postPair, Client.writeTwoPlace, List.zipWith_cons_cons, List.zipWith_nil_right] at ho
  rcases i with _ | _ | i
  · obtain rfl := Option.some.inj ho
    simp [halfAt]
  · obtain rfl := Option.some.inj ho
    have hdiv : (2 * n + 1) / 2 = n := by omega
    simp [halfAt, hdiv]
  · simp at ho

theorem FixedOk.post {rep : ℕ} {q : Quorum.State α} (h : FixedOk m s) (hI : Inv L s) {off size : ℕ} {target : Mem}
    (hpc : s.pc = .storing off size target) (hq : Quorum.step rep s.q .post = some q) (r : Reads) :
    FixedOk m (s.post r q off size) := by
  obtain rfl := Quorum.eq_post hq
  have hlast := hI.writer.pc
  simp only [PcOk, hpc] at hlast
  obtain ⟨hpos, -⟩ := hlast.1.get
  have hp := postedCalls_storing hpc
  have hpost : ∀ e, e < m → (s.q.entry e).posted = s.postedCalls := by
    intro e he
    have hlive := hI.live e (h.live e he)
    rwa [h.first e he, Nat.zero_add] at hlive
  have hconn : ∀ e, e < m → (s.post r s.q.post off size).conn e = (s.conn e).push
      (postPair r (s.cli.writeTwoPlace off size) (.token s.postedCalls) s.log.length) := by
    intro e he
    simp only [Sys.post, if_pos (h.live e he), hpost e he]
  refine ⟨h.made, h.live, fun e e' => ?_, fun e he => ?_, fun e he => ?_, fun e he => ?_, fun e he k o ho => ?_,
    fun e he => ?_⟩
  · simp only [Sys.post, Quorum.post_addr]
    exact h.inj e e'
  · rw [hconn e he]
    exact h.first e he
  · rw [hconn e he]
    exact h.lost e he
  · rw [hconn e he]
    show ((s.conn e).ops ++ _).length = 2 * s.log.length
    rw [List.length_append, h.length e he]
    simp only [postPair, Client.writeTwoPlace, List.length_zipWith, List.length_cons, List.length_nil]
    omega
  · rw [hconn e he] at ho
    have hlen := h.length e he
    by_cases hk : k < (s.conn e).ops.length
    · simp only [Conn.push, List.getElem?_append_left hk] at ho
      exact h.tags e he k o ho
    · simp only [Conn.push, List.getElem?_append_right (not_lt.mp hk)] at ho
      have htag := postPair_tag ho
      rwa [hlen, Nat.add_sub_cancel' (by omega)] at htag
  · have htake : ((s.post r s.q.post off size).conn e).ops.take
        ((s.post r s.q.post off size).conn e).applied = (s.conn e).ops.take (s.conn e).applied :=
      (hI.post_evolves r s.q.post off size e).take
    rw [htake]
    show s.landed (s.q.post.entry e).addr = _
    rw [Quorum.post_addr]
    exact h.landed e he

/-- The steps of the writer, the card and the peers keep the peer set. -/
theorem FixedOk.step {rep : ℕ} {r : Reads} {ev : Event α} (h : FixedOk m s) (hI : Inv L s) (hloc : ev.Local)
    (hs : step rep r s ev = some t) : FixedOk m t := by
  cases Step.of_step hs with
  | begin w hpc =>
    refine h.same rfl rfl (fun _ => rfl) rfl ?_ rfl
    rw [postedCalls_of_not_storing (s := s) (by simp [hpc])]
    show (s.log ++ [w]).length - 1 = s.log.length
    simp
  | put o l hpc => exact h.same rfl rfl (fun _ => rfl) rfl rfl rfl
  | post hpc _ hq => exact h.post hI hpc hq r
  | fetch e k off len _ hk => exact h.fetch hk off len
  | apply e ho he _ _ => exact h.land ho (h.made ▸ he)
  | complete e i half _ hq =>
    have hcalm := Quorum.calm_step hq (by simp) (by simp)
    exact h.same hcalm.made (Quorum.props_step hq (by simp) (by simp)) hcalm.addr rfl rfl rfl
  | quiet hev hq =>
    cases ev with
    | poll e =>
      obtain rfl := Option.some.inj hev
      have hcalm := Quorum.calm_step hq (by simp) (by simp)
      exact h.same hcalm.made (Quorum.props_step hq (by simp) (by simp)) hcalm.addr rfl rfl rfl
    | erase a => exact absurd hloc (by simp [Event.Local])
    | suspend => exact absurd hloc (by simp [Event.Local])
    | resume => exact absurd hloc (by simp [Event.Local])
    | _ => simp [Event.bookkeeping] at hev
  | ret hq =>
    have hcalm := Quorum.calm_step hq (by simp) (by simp)
    obtain ⟨tokens, hw, -⟩ := Quorum.ret_waiting hq
    obtain ⟨off, size, hpc⟩ := (hI.waiting tokens hw).1
    refine h.same hcalm.made (Quorum.props_step hq (by simp) (by simp)) hcalm.addr rfl ?_ rfl
    rw [postedCalls_of_not_storing (s := s) (by simp [hpc])]
    rfl
  | add a ok _ _ => exact absurd hloc (by simp [Event.Local])
  | bulk _ => exact absurd hloc (by simp [Event.Local])
  | bulkDone => exact absurd hloc (by simp [Event.Local])
  | crash a => exact absurd hloc (by simp [Event.Local])

end

end Sys
end ComputeSideLog
