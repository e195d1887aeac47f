/-
# Synchronous replication

`src/rdma/client.cc` can be built without the quorum (`USE_QUORUM_WRITE`): then
`Append` and `WritePos` post through `WriteSync`, which waits for both halves
of the token of every peer. With `FORCE_REMOTE_READ` a read fetches its bytes
from the first connection before it copies them out (`ReadSync`). On one
connection a read is executed after the writes that were posted before it.

The machine is that of `System.lean` with a fixed set of peers: the same
stores, posts, reads by the card and applications, but a return that waits for
all tokens, and reads from any connected peer between the calls. The return
leaves nothing under way (`SyncInv.settled`), so between calls every server
that did not crash holds the client's buffer, and a read changes nothing
(`sync_replicas`): one server is enough, where a quorum leaves a minority
behind. A client that crashes between two calls loses nothing as long as one
server is left (`sync_durable`). `op_queue`, which the synchronous build does
not use, fills up here and is not read.

Key definitions: `Sys.readSync`, `Sys.syncStep`, `Sys.SyncInv`.
Key theorems: `Sys.applied_of_done`, `Sys.SyncInv.step`, `Sys.sync_replicas`,
`Sys.sync_durable`.
-/
import ComputeSideLog.Agreement
import ComputeSideLog.Durable

namespace ComputeSideLog

open Quorum (Half)

/-- A step of a connection that posts nothing and applies nothing. -/
structure Conn.Idles (c c' : Conn) : Prop where
  first : c'.first = c.first
  working : c'.working = true → c.working = true
  lost : c'.working = true → c'.lost = c.lost
  tags : c'.ops.map Dma.Op.tag = c.ops.map Dma.Op.tag
  applied : c'.applied = c.applied

theorem Conn.Idles.refl (c : Conn) : c.Idles c := ⟨rfl, id, fun _ => rfl, rfl, rfl⟩

/-- No call is under way. -/
def Pc.isIdle : Pc → Bool
  | .idle => true
  | _ => false

theorem Pc.eq_idle {pc : Pc} (h : pc.isIdle = true) : pc = .idle := by
  cases pc with
  | idle => rfl
  | storing _ _ _ | posted _ _ => cases h

namespace Sys

variable {α : Type*}

/-! ### The machine -/

/-- `ReadSync` through entry `e`, when the read is completed. -/
def readSync (s : Sys α) (e off size : ℕ) : Sys α :=
  { s with cli := s.cli.withMem (s.cli.buffer.mem.copy (s.mem (s.q.entry e).addr) off size) }

/-- The return of `WriteSync`. -/
def synced (s : Sys α) : Sys α :=
  { s with q := { s.q with waiting := none }, pc := .idle, acked := s.acked ++ [s.log.length] }

/-- `WaitUntilBothCompleted` for every token is over. -/
def AllCompleted (s : Sys α) (tokens : List (ℕ × ℕ)) : Prop := ∀ t ∈ tokens, ((s.q.entry t.1).token t.2).both = true

instance (s : Sys α) (tokens : List (ℕ × ℕ)) : Decidable (s.AllCompleted tokens) :=
  inferInstanceAs (Decidable (∀ t ∈ tokens, _))

/-- A connection has executed all that was posted to it. -/
def Drained (s : Sys α) (e : ℕ) : Prop := e ∈ s.q.props ∧ (s.conn e).working = true ∧
  (s.conn e).applied = (s.conn e).ops.length

instance (s : Sys α) (e : ℕ) : Decidable (s.Drained e) := inferInstanceAs (Decidable (_ ∧ _))

/-- A step of the writer before its return, of the network card or of a server;
the return of `WriteSync`; a read. -/
inductive SyncEvent (α : Type*) where
  | sys (ev : Event α)
  | ret
  | readSync (e off size : ℕ)

/-- The events that do not belong to the quorum or to the watcher. -/
def Event.static : Event α → Bool
  | .begin _ | .put _ _ | .post | .fetch _ _ _ _ | .apply _ | .complete _ _ _ | .crash _ => true
  | _ => false

theorem bookkeeping_of_static {ev : Event α} (h : ev.static = true) : ev.bookkeeping = none := by
  cases ev with
  | poll _ | erase _ | suspend | resume => cases h
  | _ => rfl

variable [DecidableEq α]

/-- The machine. -/
def syncStep (r : Reads) (s : Sys α) : SyncEvent α → Option (Sys α)
  | .sys ev => if ev.static = true then step 0 r s ev else none
  | .ret =>
    match s.q.waiting with
    | some tokens => if s.AllCompleted tokens then some s.synced else none
    | none => none
  | .readSync e off size =>
    match s.pc with
    | .idle => if s.Drained e then some (s.readSync e off size) else none
    | _ => none

/-! ### What a return leaves -/

/-- The roles of the writes posted through an entry. -/
def roles (posted : ℕ) : List Role := (List.range posted).flatMap fun i => [.token i .data, .token i .seq]

theorem roles_succ (posted : ℕ) :
    roles (posted + 1) = roles posted ++ [.token posted .data] ++ [.token posted .seq] := by
  simp [roles, List.range_succ]

theorem not_mem_roles (posted : ℕ) (half : Half) : Role.token posted half ∉ roles posted := by
  intro h
  obtain ⟨i, hi, h⟩ := List.mem_flatMap.mp h
  have hlt := List.mem_range.mp hi
  simp only [List.mem_cons, Role.token.injEq, List.not_mem_nil, or_false] at h
  omega

/-- The second half of the last token is completed only when everything is applied. -/
theorem applied_of_done {c : Conn} {i : ℕ} (hroles : c.ops.map Dma.Op.tag = roles (i + 1))
    (hle : c.applied ≤ c.ops.length) (hd : c.Done (.token i .seq)) : c.applied = c.ops.length := by
  by_contra hne
  obtain ⟨o, ho, htag⟩ := hd
  have hlen : c.ops.length = (roles i ++ [Role.token i .data]).length + 1 := by
    rw [← List.length_map (f := Dma.Op.tag), hroles, roles_succ]
    simp
  have hshort : c.applied ≤ (roles i ++ [Role.token i .data]).length := by omega
  have hmem : Role.token i .seq ∈ (roles i ++ [Role.token i .data]).take c.applied := by
    rw [← List.take_append_of_le_length hshort, ← roles_succ, ← hroles, ← List.map_take, ← htag]
    exact List.mem_map_of_mem ho
  rcases List.mem_append.mp (List.mem_of_mem_take hmem) with h | h
  · exact not_mem_roles i .seq h
  · simp at h

/-- The invariant of the machine. -/
structure SyncInv (L : Layout) (s : Sys α) : Prop where
  inv : Inv L s
  first : ∀ e, (s.conn e).first = 0
  alive : ∀ e, (s.conn e).working = true → (s.conn e).lost = false
  roles : ∀ e, (s.conn e).ops.map Dma.Op.tag = roles (s.q.entry e).posted
  tokens : ∀ tokens, s.q.waiting = some tokens → ∀ e ∈ s.q.props, ∃ i, (e, i) ∈ tokens ∧ (s.q.entry e).posted = i + 1
  settled : ∀ e, s.q.waiting = none ∨ e ∉ s.q.props → (s.conn e).applied = (s.conn e).ops.length

variable {L : Layout} {s t : Sys α} {r : Reads}

/-! ### One step -/

section Idle

variable (h : SyncInv L s) (ha : AllIn (Client.fresh L) s.log) (hs : AllShort s.log) (hpc : s.pc = .idle)
include h ha hs hpc

omit [DecidableEq α] in
/-- Between calls a server that has applied everything holds the buffer. -/
theorem SyncInv.replica {e : ℕ} (he : e ∈ s.q.props) (hl : (s.conn e).lost = false)
    (hq : (s.conn e).applied = (s.conn e).ops.length) : s.mem (s.q.entry e).addr = s.cli.buffer.mem := by
  have hst : ¬ s.Storing := by
    rintro ⟨off, size, target, hstore⟩
    rw [hpc] at hstore
    cases hstore
  have hp := postedCalls_of_not hst
  funext x
  obtain ⟨j, h1, h2, h3⟩ := h.inv.posted_current ha hs he (h.first e) hl hq x
  rw [h3, h.inv.writer.cli_eq hp, ← clientAt_length, clientAt_mem, show j = s.log.length by omega]

omit [DecidableEq α] in
/-- A read brings the bytes that are there already. -/
theorem SyncInv.readSync_eq {e : ℕ} (hd : s.Drained e) (off size : ℕ) : s.readSync e off size = s := by
  obtain ⟨he, hw, hq⟩ := hd
  have hmem := h.replica ha hs hpc he (h.alive e hw) hq
  have hcopy : s.cli.buffer.mem.copy s.cli.buffer.mem off size = s.cli.buffer.mem :=
    Mem.copy_eq_self fun _ _ _ => rfl
  unfold readSync
  rw [hmem, hcopy, Client.withMem_self]

end Idle

omit [DecidableEq α] in
/-- A step that posts nothing and applies nothing. -/
theorem SyncInv.still (h : SyncInv L s) (hinv : Inv L t) (hprops : t.q.props = s.q.props)
    (hposted : ∀ e, (t.q.entry e).posted = (s.q.entry e).posted) (hwaiting : t.q.waiting = s.q.waiting)
    (hconn : ∀ e, (s.conn e).Idles (t.conn e)) : SyncInv L t where
  inv := hinv
  first e := (hconn e).first.trans (h.first e)
  alive e hw := ((hconn e).lost hw).trans (h.alive e ((hconn e).working hw))
  roles e := by rw [(hconn e).tags, h.roles, hposted]
  tokens := by
    simp only [hwaiting, hprops, hposted]
    exact h.tokens
  settled := by
    rw [hwaiting, hprops]
    intro e he
    have hlen : (t.conn e).ops.length = (s.conn e).ops.length := by
      simpa using congrArg List.length (hconn e).tags
    rw [(hconn e).applied, hlen]
    exact h.settled e he

/-- The posts of a call. -/
theorem SyncInv.post (h : SyncInv L s) {off size : ℕ} {q : Quorum.State α} (hinv : Inv L (s.post r q off size))
    (hq : Quorum.step 0 s.q .post = some q) : SyncInv L (s.post r q off size) := by
  obtain rfl := Quorum.eq_post hq
  have hnone : s.q.waiting = none := by
    simp only [Quorum.step, Option.ite_none_right_eq_some] at hq
    exact hq.1.1
  refine ⟨hinv, fun e => ?_, fun e => ?_, fun e => ?_, fun tokens hw e he => ?_, fun e he => ?_⟩
  · simp only [Sys.post]
    split
    · exact h.first e
    · exact h.first e
  · simp only [Sys.post]
    split
    · exact h.alive e
    · exact h.alive e
  · simp only [Sys.post, Quorum.State.post]
    split
    · rw [Quorum.Entry.push_posted, roles_succ, ← h.roles]
      simp [Conn.push, postPair, Client.writeTwoPlace]
    · exact h.roles e
  · obtain rfl := Option.some.inj hw
    refine ⟨(s.q.entry e).posted, List.mem_map.mpr ⟨e, he, rfl⟩, ?_⟩
    have hmem : e ∈ s.q.props := he
    simp only [Sys.post, Quorum.State.post, if_pos hmem, Quorum.Entry.push_posted]
  · have hout : e ∉ s.q.props := he.resolve_left (by simp [Sys.post, Quorum.State.post])
    simp only [Sys.post, if_neg hout]
    exact h.settled e (.inl hnone)

/-- A write is applied, through a connection that is waited for. -/
theorem SyncInv.land (h : SyncInv L s) {e : ℕ} {o : Dma.Op Role} (hinv : Inv L (s.land e o))
    (ho : (s.conn e).ops[(s.conn e).applied]? = some o) : SyncInv L (s.land e o) := by
  have hlt := (List.getElem?_eq_some_iff.mp ho).1
  have hsame : ∀ e', ((s.land e o).conn e').first = (s.conn e').first ∧
      ((s.land e o).conn e').working = (s.conn e').working ∧ ((s.land e o).conn e').lost = (s.conn e').lost ∧
      ((s.land e o).conn e').ops = (s.conn e').ops ∧
      (e' ≠ e → ((s.land e o).conn e').applied = (s.conn e').applied) := by
    intro e'
    by_cases hee : e' = e
    · rw [hee]
      simp [Sys.land]
    · simp [Sys.land, Function.update_of_ne hee]
  refine ⟨hinv, fun e' => (hsame e').1.trans (h.first e'), fun e' hw => ?_, fun e' => ?_, h.tokens, fun e' he' => ?_⟩
  · rw [(hsame e').2.1] at hw
    exact (hsame e').2.2.1.trans (h.alive e' hw)
  · rw [(hsame e').2.2.2.1]
    exact h.roles e'
  · have hold := h.settled e' he'
    have hne : e' ≠ e := by
      rintro rfl
      omega
    rw [(hsame e').2.2.2.2 hne, (hsame e').2.2.2.1]
    exact hold

omit [DecidableEq α] in
/-- The return of `WriteSync` is a return of the machine with the quorum. -/
theorem SyncInv.inv_synced (h : SyncInv L s) {tokens : List (ℕ × ℕ)} (hw : s.q.waiting = some tokens) :
    Inv L s.synced := by
  have hI := h.inv
  obtain ⟨off, size, hpc⟩ := (hI.waiting tokens hw).1
  have hq : Quorum.Inv { s.q with waiting := none } :=
    ⟨hI.quorum.entries, hI.quorum.lt_made, hI.quorum.addrs, hI.quorum.newest, fun _ hno => absurd hno (by simp)⟩
  have hp : s.synced.postedCalls = s.postedCalls := by
    rw [postedCalls_of_not_storing (s := s) (by simp [hpc])]
    rfl
  refine ⟨hq, hI.writer.congr rfl rfl hp trivial, fun e => ?_, fun e he => ?_, hI.done,
    fun _ hno => absurd hno (by simp [Sys.synced]),
    hI.region.evolve rfl rfl (fun _ ho => ho) hp.ge rfl (fun _ => rfl) fun _ => .refl _ _⟩
  · rw [hp]
    exact hI.conn e
  · rw [hp]
    exact hI.live e he

omit [DecidableEq α] in
/-- The return of `WriteSync`: everything is applied. -/
theorem SyncInv.synced (h : SyncInv L s) {tokens : List (ℕ × ℕ)} (hw : s.q.waiting = some tokens)
    (hall : s.AllCompleted tokens) : SyncInv L s.synced := by
  refine ⟨h.inv_synced hw, h.first, h.alive, h.roles, fun _ hno => absurd hno (by simp [Sys.synced]), fun e _ => ?_⟩
  by_cases he : e ∈ s.q.props
  · obtain ⟨i, hmem, hposted⟩ := h.tokens tokens hw e he
    have hboth : ((s.q.entry e).token i).both = true := hall (e, i) hmem
    have hdone : (s.conn e).Done (.token i .seq) := h.inv.done e i .seq (Quorum.Token.half_of_both hboth .seq)
    exact applied_of_done (hposted ▸ h.roles e) (h.inv.conn e).applied_le hdone
  · exact h.settled e (.inr he)

/-- **One step.** -/
theorem SyncInv.step (h : SyncInv L s) (ha : AllIn (Client.fresh L) s.log) (hs : AllShort s.log) {ev : SyncEvent α}
    (hst : syncStep r s ev = some t) : SyncInv L t := by
  cases ev with
  | sys ev =>
    simp only [syncStep, Option.ite_none_right_eq_some] at hst
    obtain ⟨hstatic, hst⟩ := hst
    have hinv : Inv L t := h.inv.step hst
    cases Step.of_step hst with
    | begin w hpc => exact h.still hinv rfl (fun _ => rfl) rfl fun _ => .refl _
    | put o l hpc => exact h.still hinv rfl (fun _ => rfl) rfl fun _ => .refl _
    | post hpc hstored hq => exact h.post hinv hq
    | fetch e k off len he hk =>
      refine h.still hinv rfl (fun _ => rfl) rfl fun e' => ?_
      refine Conn.of_update (P := (s.conn e').Idles) (.refl _) fun hee => ?_
      rw [hee]
      exact ⟨rfl, id, fun _ => rfl, Dma.map_modify_fetch (fun _ => rfl) _ _, rfl⟩
    | apply e ho he hw hready => exact h.land hinv ho
    | complete e i half hd hq =>
      simp only [Quorum.step, Option.ite_none_right_eq_some, Option.some.injEq] at hq
      obtain ⟨-, rfl⟩ := hq
      exact h.still hinv rfl (Quorum.modify_posted (fun n => n.complete_posted i half) e) rfl fun _ => .refl _
    | crash a =>
      refine h.still hinv rfl (fun _ => rfl) rfl fun e => ?_
      simp only [Sys.crash]
      split
      · exact ⟨rfl, fun hw => absurd hw (by simp), fun hw => absurd hw (by simp), rfl, rfl⟩
      · exact .refl _
    | quiet hev _ =>
      rw [bookkeeping_of_static hstatic] at hev
      cases hev
    | ret _ | add _ _ _ _ | bulk _ | bulkDone => cases hstatic
  | ret =>
    simp only [syncStep] at hst
    split at hst
    · rename_i tokens hw
      simp only [Option.ite_none_right_eq_some, Option.some.injEq] at hst
      exact hst.2 ▸ h.synced hw hst.1
    · cases hst
  | readSync e off size =>
    simp only [syncStep] at hst
    split at hst
    · rename_i hpc
      simp only [Option.ite_none_right_eq_some, Option.some.injEq] at hst
      rw [h.readSync_eq ha hs hpc hst.1] at hst
      exact hst.2 ▸ h
    · cases hst

/-! ### Runs -/

theorem syncInv_init [Inhabited α] (L : Layout) (addrs : List α) : SyncInv L (init L addrs) where
  inv := inv_init L addrs
  first _ := rfl
  alive _ _ := rfl
  roles e := by
    obtain ⟨a, ha⟩ := (Quorum.blank_init addrs).entries e
    simp only [init, ha]
    rfl
  tokens _ hw := absurd ((Quorum.blank_init addrs).waiting.symm.trans hw) (by simp)
  settled _ _ := rfl

/-- The log only grows. -/
theorem log_syncStep {ev : SyncEvent α} (hst : syncStep r s ev = some t) : ∃ ws, t.log = s.log ++ ws := by
  cases ev with
  | sys ev =>
    simp only [syncStep, Option.ite_none_right_eq_some] at hst
    cases Step.of_step hst.2 with
    | begin w _ => exact ⟨[w], rfl⟩
    | _ => exact ⟨[], (List.append_nil _).symm⟩
  | ret =>
    simp only [syncStep] at hst
    split at hst
    · simp only [Option.ite_none_right_eq_some, Option.some.injEq] at hst
      exact ⟨[], hst.2 ▸ (List.append_nil _).symm⟩
    · cases hst
  | readSync e off size =>
    simp only [syncStep] at hst
    split at hst
    · simp only [Option.ite_none_right_eq_some, Option.some.injEq] at hst
      exact ⟨[], hst.2 ▸ (List.append_nil _).symm⟩
    · cases hst

theorem syncInv_of_reach [Inhabited α] {addrs : List α} (h : Trace.Reach (syncStep r) (init L addrs) s)
    (ha : AllIn (Client.fresh L) s.log) (hs : AllShort s.log) : SyncInv L s := by
  refine h.inv (I := fun s => AllIn (Client.fresh L) s.log → AllShort s.log → SyncInv L s)
    (fun _ _ => syncInv_init L addrs) (fun s ev t ih hst ha hs => ?_) ha hs
  obtain ⟨ws, hlog⟩ := log_syncStep hst
  have ha' : AllIn (Client.fresh L) s.log := ((allIn_append s.log ws _).mp (hlog ▸ ha)).1
  have hs' : AllShort s.log := fun w hw => hs w (hlog ▸ List.mem_append_left _ hw)
  exact (ih ha' hs').step ha' hs' hst

/-- **Synchronous replication.** In every state between two calls, under any
schedule of posts, late reads by the card, applications, crashes of servers and
remote reads, every server that did not crash holds exactly what all calls
leave in the buffer, and a remote read through any working connection returns
the bytes of the buffer and changes nothing. -/
theorem sync_replicas [Inhabited α] {addrs : List α} (h : Trace.Reach (syncStep r) (init L addrs) s)
    (ha : AllIn (Client.fresh L) s.log) (hs : AllShort s.log) (hpc : s.pc = .idle) :
    (∀ e ∈ s.q.props, (s.conn e).lost = false →
        s.mem (s.q.entry e).addr = ((Client.fresh L).run s.log).buffer.mem) ∧
      (∀ e ∈ s.q.props, (s.conn e).working = true → ∀ off size, syncStep r s (.readSync e off size) = some s) ∧
      s.cli = (Client.fresh L).run s.log := by
  have hI := syncInv_of_reach h ha hs
  have hnone : s.q.waiting = none := by
    by_contra hw
    obtain ⟨tokens, hw⟩ := Option.ne_none_iff_exists'.mp hw
    obtain ⟨off, size, hposted⟩ := (hI.inv.waiting tokens hw).1
    rw [hpc] at hposted
    cases hposted
  have hcli : s.cli = (Client.fresh L).run s.log :=
    hI.inv.writer.cli_eq (postedCalls_of_not_storing (by simp [hpc]))
  have hq : ∀ e, (s.conn e).applied = (s.conn e).ops.length := fun e => hI.settled e (.inl hnone)
  refine ⟨fun e he hl => ?_, fun e he hw off size => ?_, hcli⟩
  · rw [hI.replica ha hs hpc he hl (hq e), hcli]
  · have hd : s.Drained e := ⟨he, hw, hq e⟩
    simp only [syncStep, hpc, if_pos hd, hI.readSync_eq ha hs hpc hd off size]

/-- Two calls with two servers, the second one read late; a read in between, and a
crash at the end. -/
def syncCalls : List (SyncEvent ℕ) :=
  [.begin (.append [1, 2]), .put 0 16, .post, .fetch 0 0 0 16, .fetch 0 1 0 16, .apply 0, .apply 0,
    .complete 0 0 .data, .complete 0 0 .seq, .fetch 1 0 0 16, .fetch 1 1 0 16, .apply 1, .apply 1,
    .complete 1 0 .data, .complete 1 0 .seq].map .sys ++ [.ret, .readSync 1 0 4] ++
  [.begin (.writePos [9] 1), .put 0 16, .post, .fetch 1 2 0 16, .fetch 1 3 0 16, .apply 1, .apply 1,
    .complete 1 1 .data, .complete 1 1 .seq, .fetch 0 2 0 16, .fetch 0 3 0 16, .apply 0, .apply 0,
    .complete 0 1 .data, .complete 0 1 .seq].map .sys ++ [.ret, .sys (.crash 0)]

theorem sync_replicas_syncCalls : ∃ s : Sys ℕ, Trace.Reach (syncStep .anyTime) (init tiny [0, 1]) s ∧
    s.log = [.append [1, 2], .writePos [9] 1] ∧ s.mem 0 0 = 0 ∧ s.mem (s.q.entry 1).addr 1 = 9 := by
  have hrun : ∃ s : Sys ℕ, Trace.Reach (syncStep .anyTime) (init tiny [0, 1]) s ∧
      (s.log = [.append [1, 2], .writePos [9] 1] ∧ s.mem 0 0 = 0) ∧ 1 ∈ s.q.props ∧ (s.conn 1).lost = false ∧
        s.pc.isIdle = true :=
    Trace.exists_reach_of_exec syncCalls (by decide)
  obtain ⟨s, hs, ⟨hlog, hzero⟩, hlive, hl, hpc⟩ := hrun
  obtain ⟨hmem, -⟩ := sync_replicas hs (by rw [hlog]; decide) (by rw [hlog]; decide) (Pc.eq_idle hpc)
  refine ⟨s, hs, hlog, hzero, ?_⟩
  rw [hmem 1 hlive hl, hlog]
  decide

/-! ### A crash of the client -/

omit [DecidableEq α] in
/-- A server that holds the whole buffer is one that has applied all writes. -/
theorem peer_of_replica {e : ℕ} (ha : AllIn (Client.fresh L) s.log) (hs : AllShort s.log)
    (hmem : s.mem (s.q.entry e).addr = ((Client.fresh L).run s.log).buffer.mem) :
    s.peer L e = prefixPeer L s.log (s.q.entry e).addr (2 * s.log.length) := by
  have hall : applyAll Mem.zero ((posts (Client.fresh L) s.log).take (2 * s.log.length)) =
      ((Client.fresh L).run s.log).buffer.mem := by
    rw [List.take_of_length_le (posts_length _ _).le]
    funext x
    exact applyAll_posts s.log (Client.fresh_wf L) ha hs rfl
  unfold peer prefixPeer
  rw [hmem, hall]

/-- **Nothing is lost between two calls.** A client that starts after a crash finds
servers that did not crash, at least one, and others that restarted. If the
file has a byte other than zero, it gets the file back, up to trailing zero
bytes, if and only if the number of calls is neither 0 nor 1 modulo `2^64`. -/
theorem sync_durable [Inhabited α] {addrs : List α} (h : Trace.Reach (syncStep r) (init L addrs) s)
    (ha : AllIn (Client.fresh L) s.log) (hL : L.size ≤ 2 ^ 32) (hpc : s.pc = .idle) {qs : List (Peer α)}
    (hn : (qs.map Peer.addr).Nodup)
    (hfrom : ∀ q ∈ qs, q.buffer = L.region Mem.zero ∨ ∃ e ∈ s.q.props, (s.conn e).lost = false ∧ q = s.peer L e)
    (hlive : ∃ e ∈ s.q.props, (s.conn e).lost = false ∧ s.peer L e ∈ qs)
    (hdata : ∃ x, x < L.seqOffset ∧ image L s.log s.log.length x ≠ 0) :
    HoldsImage L s.log s.log.length ((Client.fresh L).recovered qs) ↔ 2 ≤ s.log.length % 2 ^ 64 := by
  have hs := allShort_of_size hL s.log (Client.fresh_seqOffset L) ha
  have hpeer : ∀ e ∈ s.q.props, (s.conn e).lost = false →
      s.peer L e = prefixPeer L s.log (s.q.entry e).addr (2 * s.log.length) := fun e he hl =>
    peer_of_replica ha hs ((sync_replicas h ha hs hpc).1 e he hl)
  have hfleet : Fleet L qs := by
    refine ⟨hn, fun q hq => ?_⟩
    rcases hfrom q hq with hzero | ⟨e, -, -, rfl⟩
    · rw [hzero]
      rfl
    · rfl
  -- every live server shows the same trailer, and a restarted one shows 0
  have hseq : ∀ a : α, (prefixPeer L s.log a (2 * s.log.length)).Eligible ↔ 2 ≤ s.log.length % 2 ^ 64 := by
    intro a
    have hread : (prefixPeer L s.log a (2 * s.log.length)).seq = _ := prefix_seq ha (2 * s.log.length)
    rw [Nat.mul_div_cancel_left _ (by norm_num : 0 < 2), min_self] at hread
    rw [Peer.Eligible, hread, seqMax]
    split <;> omega
  have hlive' : ∀ p, IsSrc qs p → ∃ e ∈ s.q.props, (s.conn e).lost = false ∧ p = s.peer L e := by
    intro p hp
    refine (hfrom p hp.mem).resolve_left fun hzero => hp.admissible.1 ?_
    rw [Peer.seq, hzero, L.readSeqNum_region]
    exact Mem.getLE_zero _ _
  obtain ⟨e, he, hl, hmem⟩ := hlive
  rcases getRecoverSrcPeer_cases qs with ⟨hnone, -⟩ | ⟨p, hp, -⟩
  · rw [recovered_of_none hnone]
    refine iff_of_false (fun himg => ?_) fun hlen => ?_
    · obtain ⟨x, hx, hbyte⟩ := hdata
      exact hbyte (himg.mem_eq hx).symm
    · exact hnone _ hmem (by rw [hpeer e he hl]; exact (hseq _).mpr hlen)
  · obtain ⟨e', he', hl', rfl⟩ := hlive' p hp
    have heq := hpeer e' he' hl'
    rw [recovered_of_src hfleet hp, heq]
    refine iff_of_true ?_ ((hseq _).mp (heq ▸ hp.admissible))
    have himg := restored_image hL ha (s.q.entry e').addr (2 * s.log.length)
    rwa [show (2 * s.log.length + 1) / 2 = s.log.length by omega] at himg

/-- The run above: the server that is left gives the file back, and one that
restarted is asked first. -/
theorem sync_durable_syncCalls : ∃ s : Sys ℕ, Trace.Reach (syncStep .anyTime) (init tiny [0, 1]) s ∧
    HoldsImage tiny s.log 2 ((Client.fresh tiny).recovered [⟨5, tiny.region Mem.zero⟩, s.peer tiny 1]) := by
  have hrun : ∃ s : Sys ℕ, Trace.Reach (syncStep .anyTime) (init tiny [0, 1]) s ∧
      s.log = [.append [1, 2], .writePos [9] 1] ∧ 1 ∈ s.q.props ∧ (s.conn 1).lost = false ∧ s.pc.isIdle = true ∧
        (s.q.entry 1).addr = 1 :=
    Trace.exists_reach_of_exec syncCalls (by decide)
  obtain ⟨s, hs, hlog, hmem, hl, hpc, haddr⟩ := hrun
  have hn : ([⟨5, tiny.region Mem.zero⟩, s.peer tiny 1].map Peer.addr).Nodup := by
    rw [List.map_cons, List.map_cons, show (s.peer tiny 1).addr = 1 from haddr]
    decide
  have hiff := sync_durable hs (by rw [hlog]; decide) (by decide) (Pc.eq_idle hpc) hn
    (fun q hq => by
      rcases List.mem_cons.mp hq with rfl | hq
      · exact .inl rfl
      · exact .inr ⟨1, hmem, hl, List.mem_singleton.mp hq⟩)
    ⟨1, hmem, hl, List.mem_cons_of_mem _ List.mem_cons_self⟩ ⟨0, by decide, by rw [hlog]; decide⟩
  have hlen : s.log.length = 2 := by rw [hlog]; rfl
  rw [hlen] at hiff
  exact ⟨s, hs, hiff.mpr (by norm_num)⟩

end Sys
end ComputeSideLog
