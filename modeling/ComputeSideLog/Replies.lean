/-
# Where the server sends its replies

`handleClientRequest` (`src/rdma/server.cc`) answers `OPEN_FILE` and
`GET_INFO` through the queue pair in the entry of `local_cons`, and
`SYNC_PEER` through the socket there. An entry outlives its connection, and
a connection outlives its file: a client that closed a file keeps its
queue pairs and opens the next file over them. So the entry may belong to a
connection other than the one the request came on, which a debug assertion
excludes and a release build does not notice.

`Replies.step` is the server under connections, requests and lost
connections, with a record of the connection over which each file was
opened. The entries follow that record in every run (`Replies.Inv`), so a
reply goes to the requester exactly when no other connection has the file
open.

Key definitions: `Server.ends`, `Replies`, `Replies.step`,
`Replies.ToRequester`, `Replies.Unshared`.
Key theorems: `Server.openFile_spec`, `Replies.Inv.step`,
`Replies.Inv.toRequester_iff`, `Replies.replies_to_requester`.
-/
import ComputeSideLog.Lib.Trace
import ComputeSideLog.Serve

namespace ComputeSideLog

namespace Server

variable {F : Type*} [DecidableEq F]

/-- The two ways an entry names its connection: the queue pair and the socket. -/
def ends (s : Server F) (fileId : F) : Option (ℕ × ℕ) := (s.localCons fileId).map fun con => (con.qp, con.socket)

variable {s : Server F} {fileId : F} {r : Handled F}

theorem ends_update (cons : F → Option LocalConData) (qps : List ℕ) (pool : MrPool) (con : Option LocalConData) :
    ends ⟨qps, pool, Function.update cons fileId con⟩ =
      Function.update (ends ⟨qps, pool, cons⟩) fileId (con.map fun con => (con.qp, con.socket)) := by
  funext g
  by_cases hg : g = fileId
  · simp [ends, hg]
  · simp [ends, hg]

theorem ends_bind (s : Server F) (socket : ℕ) (pool : MrPool) (mr : Mr) :
    (s.bind fileId socket pool mr).ends = Function.update s.ends fileId (some (socket, socket)) :=
  ends_update ..

theorem ends_setCon (s : Server F) (con : LocalConData) :
    (s.setCon fileId con).ends = Function.update s.ends fileId (some (con.qp, con.socket)) :=
  ends_update ..

/-- A connection takes the file over. -/
theorem ends_incoming {addr socket size : ℕ} (hr : s.handleIncomingConnection addr socket fileId size = some r) :
    r.server.ends = Function.update s.ends fileId (some (socket, socket)) := by
  unfold Server.handleIncomingConnection at hr
  split at hr
  · split at hr
    · cases hr
    · cases hr
      exact ends_bind ..
  · split at hr
    · cases hr
    · cases hr
      exact ends_setCon ..

omit [DecidableEq F] in
theorem ends_of_some {con : LocalConData} (h : s.localCons fileId = some con) :
    s.ends fileId = some (con.qp, con.socket) := by
  unfold ends
  rw [h]
  rfl

omit [DecidableEq F] in
theorem ends_of_none (h : s.localCons fileId = none) : s.ends fileId = none := by
  unfold ends
  rw [h]
  rfl

theorem ends_setCon_self {con con' : LocalConData} (h : s.localCons fileId = some con) (hq : con'.qp = con.qp)
    (hk : con'.socket = con.socket) (pool : MrPool) : (setCon { s with pool } fileId con').ends = s.ends := by
  rw [ends_setCon, hq, hk, ← ends_of_some h]
  exact Function.update_eq_self fileId s.ends

/-- `OPEN_FILE`: the entry stays or belongs to the requester, and the token goes
to the queue pair of the entry. -/
theorem openFile_spec {addr socket size : ℕ} (hqp : socket ∈ s.existingQps)
    (hr : s.openFile addr socket fileId size = some r) :
    r.server.ends = Function.update s.ends fileId (some ((s.ends fileId).getD (socket, socket))) ∧
      ∀ p ∈ r.sent, p.1 = ((s.ends fileId).getD (socket, socket)).1 := by
  unfold Server.openFile at hr
  split at hr
  · rename_i con hf
    cases hr
    refine ⟨?_, fun p hp => ?_⟩
    · rw [ends_of_some hf, Option.getD_some, ← ends_of_some hf]
      exact (Function.update_eq_self fileId s.ends).symm
    · rw [ends_of_some hf]
      obtain ⟨token, -, rfl⟩ := List.mem_map.mp hp
      rfl
  · rename_i hf
    rw [if_pos hqp] at hr
    split at hr
    · cases hr
    · cases hr
      rw [ends_of_none hf]
      refine ⟨ends_bind .., fun p hp => ?_⟩
      rw [List.mem_singleton.mp hp]
      rfl

/-- `CLOSE_FILE`: the entry is gone, nothing is sent. -/
theorem closeFile_spec (hr : s.closeFile fileId = some r) :
    r.server.ends = Function.update s.ends fileId none ∧ r.sent = [] := by
  unfold Server.closeFile at hr
  split at hr
  · rename_i hf
    cases hr
    refine ⟨?_, rfl⟩
    rw [← ends_of_none hf]
    exact (Function.update_eq_self fileId s.ends).symm
  · split at hr
    · cases hr
    · cases hr
      exact ⟨ends_update .., rfl⟩

omit [DecidableEq F] in
/-- `GET_INFO`: there is an entry, and the answer goes to its queue pair. -/
theorem answerInfo_spec (hr : s.answerInfo fileId = some r) :
    r.server = s ∧ ∃ e reply, s.ends fileId = some e ∧ r.sent = [(e.1, reply)] := by
  unfold Server.answerInfo at hr
  split at hr
  · cases hr
  · rename_i con hf
    split at hr
    · cases hr
    · cases hr
      exact ⟨rfl, _, _, ends_of_some hf, rfl⟩

/-- `SYNC_PEER`: the token goes to the socket of the entry, if there is one. -/
theorem syncPeer_spec {addr : ℕ} (hr : s.syncPeer addr fileId = some r) :
    r.server.ends = s.ends ∧ ((s.ends fileId = none ∧ r.sent = []) ∨
      ∃ e reply, s.ends fileId = some e ∧ r.sent = [(e.2, reply)]) := by
  unfold Server.syncPeer at hr
  split at hr
  · rename_i hf
    cases hr
    exact ⟨rfl, .inl ⟨ends_of_none hf, rfl⟩⟩
  · rename_i con hf
    split at hr
    · cases hr
    · split at hr
      · cases hr
      · cases hr
        refine ⟨ends_setCon_self hf ?_ ?_ _, .inr ⟨_, _, ends_of_some hf, rfl⟩⟩
        · rfl
        · rfl

/-- `SYNC_PEER_DONE`: only the regions change. -/
theorem syncPeerDone_spec (hr : s.syncPeerDone fileId = some r) : r.server.ends = s.ends ∧ r.sent = [] := by
  unfold Server.syncPeerDone at hr
  split at hr
  · cases hr
    exact ⟨rfl, rfl⟩
  · rename_i con hf
    split at hr
    · cases hr
    · cases hr
      refine ⟨ends_setCon_self hf ?_ ?_ _, rfl⟩
      · rfl
      · rfl

end Server

/-- The requests that are answered. -/
def ReqType.answered : ReqType → Bool
  | .openFile => true
  | .getInfo => true
  | .syncPeer => true
  | _ => false

/-! ### The server over a whole run -/

/-- A request as it was handled: the socket it came on, and what was sent. -/
structure Exchange (F : Type*) where
  socket : ℕ
  req : ClientReq F
  sent : List (ℕ × Reply)

/-- A server, the connection over which each file was opened and not closed since,
and the request handled last, if the last event was one. -/
structure Replies (F : Type*) where
  server : Server F
  holder : F → Option ℕ
  handled : Option (Exchange F)

namespace Replies

variable {F : Type*}

/-- What reaches the server: a connection for a file, a request on a connection,
and the end of a connection, whether the process exits or crashes. `addr` is
the address of a region if one is created. -/
inductive Event (F : Type*) where
  | connect (addr socket : ℕ) (fileId : F) (size : ℕ)
  | request (addr socket : ℕ) (req : ClientReq F)
  | hangUp (socket : ℕ)

def init : Replies F := ⟨⟨[], .empty, fun _ => none⟩, fun _ => none, none⟩

/-- No other connection has the file of an answered request open. -/
def Unshared (s : Replies F) : Event F → Prop
  | .request _ socket req =>
    req.type.answered = true → s.holder req.fileId = none ∨ s.holder req.fileId = some socket
  | _ => True

instance (s : Replies F) : ∀ e, Decidable (s.Unshared e)
  | .connect .. => instDecidableTrue
  | .request _ socket req => inferInstanceAs
      (Decidable (req.type.answered = true → s.holder req.fileId = none ∨ s.holder req.fileId = some socket))
  | .hangUp _ => instDecidableTrue

/-- What the request handled last was answered went to its socket, and after an
`OPEN_FILE` the entry has the queue pair of that socket. -/
def ToRequester (s : Replies F) : Prop :=
  ∀ x, s.handled = some x → (∀ p ∈ x.sent, p.1 = x.socket) ∧
    (x.req.type = .openFile → (s.server.localCons x.req.fileId).map LocalConData.qp = some x.socket)

variable [DecidableEq F]

/-- Who has the files open after a request. -/
def held (s : Replies F) (socket : ℕ) (fileId : F) : ReqType → F → Option ℕ
  | .openFile => Function.update s.holder fileId (some ((s.holder fileId).getD socket))
  | .closeFile => Function.update s.holder fileId none
  | _ => s.holder

/-- One event. `Run` polls the sockets of `existing_qps` and drops the one whose
request returned 0; `recv` returns 0 at the end of a connection. -/
def step (s : Replies F) : Event F → Option (Replies F)
  | .connect addr socket fileId size =>
    if s.server.pool.Unused addr ∧ socket ∉ s.server.existingQps then
      (s.server.handleIncomingConnection addr socket fileId size).map fun r =>
        ⟨r.server, Function.update s.holder fileId (some socket), none⟩
    else none
  | .request addr socket req =>
    if s.server.pool.Unused addr ∧ socket ∈ s.server.existingQps then
      (s.server.handleClientRequest addr socket req).map fun r =>
        let qps := if r.dropped then r.server.existingQps.erase socket else r.server.existingQps
        ⟨{ r.server with existingQps := qps }, s.held socket req.fileId req.type, some ⟨socket, req, r.sent⟩⟩
    else none
  | .hangUp socket =>
    if socket ∈ s.server.existingQps then
      some ⟨{ s.server with existingQps := s.server.existingQps.erase socket }, s.holder, none⟩
    else none

/-! ### The entries follow the connections -/

/-- The entries name the connections that have their files open. -/
def Inv (s : Replies F) : Prop := s.server.ends = fun f => (s.holder f).map fun socket => (socket, socket)

variable {s t : Replies F}

omit [DecidableEq F] in
theorem inv_init : (init : Replies F).Inv := rfl

omit [DecidableEq F] in
theorem Inv.ends (h : Inv s) (f : F) : s.server.ends f = (s.holder f).map fun socket => (socket, socket) :=
  congrFun h f

theorem map_update (holder : F → Option ℕ) (fileId : F) (v : Option ℕ) :
    (fun f => (Function.update holder fileId v f).map fun socket => (socket, socket)) =
      Function.update (fun f => (holder f).map fun socket => (socket, socket)) fileId
        (v.map fun socket => (socket, socket)) := by
  funext f
  by_cases hf : f = fileId
  · simp [hf]
  · simp [hf]

omit [DecidableEq F] in
theorem Inv.getD_ends (h : Inv s) (socket : ℕ) (fileId : F) :
    (s.server.ends fileId).getD (socket, socket) =
      ((s.holder fileId).getD socket, (s.holder fileId).getD socket) := by
  rw [h.ends]
  cases s.holder fileId with
  | none => rfl
  | some σ => rfl

theorem Inv.request (h : Inv s) {addr socket : ℕ} (hqp : socket ∈ s.server.existingQps) {req : ClientReq F}
    {r : Handled F} (hr : s.server.handleClientRequest addr socket req = some r) :
    r.server.ends = fun f => (s.held socket req.fileId req.type f).map fun socket => (socket, socket) := by
  unfold Server.handleClientRequest at hr
  cases hty : req.type with
  | openFile =>
    simp only [hty] at hr
    rw [(Server.openFile_spec hqp hr).1, h.getD_ends, held, map_update, ← h]
    rfl
  | closeFile =>
    simp only [hty] at hr
    rw [(Server.closeFile_spec hr).1, held, map_update, ← h]
    rfl
  | exitProc =>
    simp only [hty] at hr
    cases hr
    exact h
  | getInfo =>
    simp only [hty] at hr
    rw [(Server.answerInfo_spec hr).1]
    exact h
  | syncPeer =>
    simp only [hty] at hr
    rw [(Server.syncPeer_spec hr).1]
    exact h
  | syncPeerDone =>
    simp only [hty] at hr
    rw [(Server.syncPeerDone_spec hr).1]
    exact h
  | unknown =>
    simp only [hty] at hr
    cases hr
    exact h

/-- What an event can do. -/
theorem step_cases {e : Event F} (h : s.step e = some t) :
    (∃ addr socket fileId size r, e = .connect addr socket fileId size ∧
        s.server.handleIncomingConnection addr socket fileId size = some r ∧
        t = ⟨r.server, Function.update s.holder fileId (some socket), none⟩) ∨
      (∃ addr socket req r qps, e = .request addr socket req ∧ socket ∈ s.server.existingQps ∧
        s.server.handleClientRequest addr socket req = some r ∧
        t = ⟨{ r.server with existingQps := qps }, s.held socket req.fileId req.type,
          some ⟨socket, req, r.sent⟩⟩) ∨
      ∃ socket qps, e = .hangUp socket ∧ t = ⟨{ s.server with existingQps := qps }, s.holder, none⟩ := by
  cases e with
  | connect addr socket fileId size =>
    simp only [Replies.step, Option.ite_none_right_eq_some, Option.map_eq_some_iff] at h
    obtain ⟨-, r, hr, rfl⟩ := h
    exact .inl ⟨addr, socket, fileId, size, r, rfl, hr, rfl⟩
  | request addr socket req =>
    simp only [Replies.step, Option.ite_none_right_eq_some, Option.map_eq_some_iff] at h
    obtain ⟨⟨-, hqp⟩, r, hr, rfl⟩ := h
    exact .inr (.inl ⟨addr, socket, req, r, _, rfl, hqp, hr, rfl⟩)
  | hangUp socket =>
    simp only [Replies.step, Option.ite_none_right_eq_some, Option.some.injEq] at h
    obtain ⟨-, rfl⟩ := h
    exact .inr (.inr ⟨socket, _, rfl, rfl⟩)

theorem Inv.step (h : Inv s) {e : Event F} (hs : s.step e = some t) : Inv t := by
  obtain ⟨addr, socket, fileId, size, r, -, hr, rfl⟩ | ⟨addr, socket, req, r, qps, -, hqp, hr, rfl⟩ |
    ⟨socket, qps, -, rfl⟩ := step_cases hs
  · unfold Inv
    rw [Server.ends_incoming hr, map_update, ← h]
    rfl
  · exact h.request hqp hr
  · exact h

/-! ### Where a reply goes -/

theorem getD_eq_iff (o : Option ℕ) (socket : ℕ) : o.getD socket = socket ↔ o = none ∨ o = some socket := by
  cases o with
  | none => simp
  | some σ => simp

omit [DecidableEq F] in
/-- The queue pair of an entry, read off the connections. -/
theorem Inv.qp (h : Inv s) (fileId : F) :
    (s.server.localCons fileId).map LocalConData.qp = s.holder fileId := by
  have he := congrArg (Option.map Prod.fst) (h.ends fileId)
  simp only [Server.ends, Option.map_map] at he
  calc (s.server.localCons fileId).map LocalConData.qp
      = (s.holder fileId).map id := he
    _ = s.holder fileId := Option.map_id_apply

omit [DecidableEq F] in
/-- Both names of an entry's connection are that of its holder. -/
theorem Inv.of_ends (h : Inv s) {fileId : F} {e : ℕ × ℕ} (he : s.server.ends fileId = some e) :
    s.holder fileId = some e.1 ∧ e.2 = e.1 := by
  rw [h.ends, Option.map_eq_some_iff] at he
  obtain ⟨σ, hσ, rfl⟩ := he
  exact ⟨hσ, rfl⟩

/-- An answer to a connection of the entry reaches the requester if nobody else
has the file open. -/
theorem sent_iff {holder : Option ℕ} {σ socket : ℕ} (reply : Reply) (hσ : holder = some σ) :
    (∀ p ∈ [(σ, reply)], p.1 = socket) ↔ holder = none ∨ holder = some socket := by
  simp [hσ]

/-- **One request**: it is answered to its socket, and an opened file bound to it,
if and only if no other connection has the file open. -/
theorem Inv.toRequester_iff (h : Inv s) {e : Event F} (hs : s.step e = some t) : t.ToRequester ↔ s.Unshared e := by
  have ht : Inv t := h.step hs
  obtain ⟨addr, socket, fileId, size, r, rfl, -, rfl⟩ | ⟨addr, socket, req, r, qps, rfl, hqp, hr, rfl⟩ |
    ⟨socket, qps, rfl, rfl⟩ := step_cases hs
  · exact ⟨fun _ => trivial, fun _ x hx => by cases hx⟩
  · simp only [ToRequester, Option.some.injEq, forall_eq', ht.qp, Unshared]
    unfold Server.handleClientRequest at hr
    cases hty : req.type with
    | openFile =>
      simp only [hty] at hr
      have hsent := (Server.openFile_spec hqp hr).2
      rw [h.getD_ends] at hsent
      simp only [held, Function.update_self, Option.some.injEq, getD_eq_iff, ReqType.answered, forall_const]
      refine ⟨And.right, fun hu => ⟨fun p hp => ?_, hu⟩⟩
      exact (hsent p hp).trans ((getD_eq_iff _ _).mpr hu)
    | closeFile =>
      simp only [hty] at hr
      simp [ReqType.answered, (Server.closeFile_spec hr).2]
    | exitProc =>
      simp only [hty] at hr
      cases hr
      simp [ReqType.answered]
    | getInfo =>
      simp only [hty] at hr
      obtain ⟨-, e, reply, he, hsent⟩ := Server.answerInfo_spec hr
      obtain ⟨hσ, -⟩ := h.of_ends he
      simpa [ReqType.answered, hsent] using sent_iff reply hσ
    | syncPeer =>
      simp only [hty] at hr
      rcases (Server.syncPeer_spec hr).2 with ⟨he, hsent⟩ | ⟨e, reply, he, hsent⟩
      · rw [h.ends, Option.map_eq_none_iff] at he
        simp [hsent, he]
      · obtain ⟨hσ, heq⟩ := h.of_ends he
        simpa [ReqType.answered, hsent, heq] using sent_iff reply hσ
    | syncPeerDone =>
      simp only [hty] at hr
      simp [ReqType.answered, (Server.syncPeerDone_spec hr).2]
    | unknown =>
      simp only [hty] at hr
      cases hr
      simp [ReqType.answered]
  · exact ⟨fun _ => trivial, fun _ x hx => by cases hx⟩

theorem inv_of_reach (h : Trace.Reach step init s) : Inv s := h.inv inv_init fun _ _ _ hi hs => hi.step hs

/-- **Replies go to the requester** in every run in which an answered request comes
while no other connection has its file open: what is sent goes to the socket
of the request, and an opened file is bound to its queue pair. In any run the
next request meets that if and only if it meets the condition. -/
theorem replies_to_requester (s : Replies F) :
    (Trace.Reach (Trace.restrict Unshared step) init s → s.ToRequester) ∧
      (Trace.Reach step init s → ∀ e t, s.step e = some t → (t.ToRequester ↔ s.Unshared e)) := by
  refine ⟨fun h => ?_, fun h e t hs => (inv_of_reach h).toRequester_iff hs⟩
  cases h with
  | init => exact fun x hx => by cases hx
  | next e hu hs =>
    rw [Trace.restrict_eq_some] at hs
    exact ((inv_of_reach hu.of_restrict).toRequester_iff hs.2).mpr hs.1

/-- A file opened, asked about and closed, another one opened over the same
connection, then lost and taken over by a new connection that asks about it. -/
theorem replies_to_requester_reused :
    ∃ s : Replies ℕ, Trace.Reach (Trace.restrict Unshared step) init s ∧
      (s.handled.map Exchange.socket = some 6 ∧ s.handled.map (fun x => x.sent.map Prod.fst) = some [6]) ∧
      s.ToRequester := by
  obtain ⟨s, hs, hp⟩ : ∃ s : Replies ℕ, Trace.Reach (Trace.restrict Unshared step) init s ∧
      (s.handled.map Exchange.socket = some 6 ∧ s.handled.map (fun x => x.sent.map Prod.fst) = some [6]) :=
    Trace.exists_reach_of_exec
      [.connect 0 5 7 16, .request 1 5 ⟨.getInfo, 7, 0⟩, .request 1 5 ⟨.closeFile, 7, 0⟩,
        .request 1 5 ⟨.openFile, 8, 16⟩, .hangUp 5, .connect 1 6 8 16, .request 1 6 ⟨.getInfo, 8, 0⟩] (by decide)
  exact ⟨s, hs, hp, (replies_to_requester s).1 hs⟩

/-- A process crashes with file 7 open over socket 5. A client that closed file 8
opens file 7 over its own socket 6: the token goes to socket 5. -/
theorem reply_to_crashed : ¬ ∀ s : Replies ℕ, Trace.Reach step init s → s.ToRequester := by
  intro hall
  obtain ⟨s, hs, hp⟩ : ∃ s : Replies ℕ, Trace.Reach step init s ∧
      s.handled.any (fun x => x.socket = 6 && x.sent.any fun p => p.1 = 5) = true :=
    Trace.exists_reach_of_exec
      [.connect 0 5 7 16, .hangUp 5, .connect 1 6 8 16, .request 2 6 ⟨.closeFile, 8, 0⟩,
        .request 2 6 ⟨.openFile, 7, 16⟩] (by decide)
  simp only [Option.any_eq_true, Bool.and_eq_true, decide_eq_true_eq, List.any_eq_true] at hp
  obtain ⟨x, hx, h6, p, hp, h5⟩ := hp
  have := (hall s hs x hx).1 p hp
  omega

end Replies
end ComputeSideLog
