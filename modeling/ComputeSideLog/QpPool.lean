/-
# The pool of queue pairs

A process keeps its connections to the replication servers. A client has one
queue pair for each of its peers, in `remote_props`; when it is destroyed
they go to `idle_qps` (`src/rdma/qp_pool.cc`), and the next client that adds
such a peer opens its file over one of them instead of connecting. A server
reads requests only from the sockets in `existing_qps`
(`src/rdma/server.cc`). It drops a socket when it reads `EXIT_PROC` on it,
and the socket of a file's entry when a new connection comes for that file.

`QpPool.step` is one process with any number of clients, the servers, which
come and go, and the requests under way on each connection. The constructor,
`CSLClientPool` and `ClientWatcher` are sequences of its events, between
which the other threads and the servers may run. A client sends two kinds of
request that it does not wait for, so the order in which they are read
matters. Connections are named by number, and the server's socket by the
connection.

Two things make a server drop a connection that the process still holds: the
destructor of a client in use sends `EXIT_PROC` and then puts the queue pair
back into the pool, and a connection for a file takes the place of another
one, for instance when two idle clients get a new peer, both under the
cleared file name. Without them every connection held is read
(`QpPool.held_served`).

Key definitions: `Endpoint`, `Holder`, `QpPool`, `QpPool.step`,
`QpPool.Served`, `QpPool.Careful`.
Key theorems: `Server.existingQps_request`, `QpPool.Safe.step`,
`QpPool.held_served`.
-/
import ComputeSideLog.Lib.Assoc
import ComputeSideLog.Lib.Trace
import ComputeSideLog.Serve

namespace ComputeSideLog

/-! ### Which sockets a server reads -/

namespace Server

variable {F : Type*} [DecidableEq F] {s : Server F} {r : Handled F}

/-- No request changes `existing_qps`; `Run` drops a socket only after
`EXIT_PROC`. -/
theorem existingQps_request {addr socket : ℕ} {req : ClientReq F}
    (hr : s.handleClientRequest addr socket req = some r) :
    r.server.existingQps = s.existingQps ∧ (r.dropped = true → req.type = .exitProc) := by
  unfold Server.handleClientRequest at hr
  cases hty : req.type with
  | openFile =>
    simp only [hty] at hr
    unfold Server.openFile at hr
    repeat' split at hr
    all_goals cases hr <;> exact ⟨rfl, fun h => by cases h⟩
  | closeFile =>
    simp only [hty] at hr
    unfold Server.closeFile at hr
    repeat' split at hr
    all_goals cases hr <;> exact ⟨rfl, fun h => by cases h⟩
  | exitProc =>
    simp only [hty] at hr
    cases hr
    exact ⟨rfl, fun _ => rfl⟩
  | getInfo =>
    simp only [hty] at hr
    unfold Server.answerInfo at hr
    repeat' split at hr
    all_goals cases hr <;> exact ⟨rfl, fun h => by cases h⟩
  | syncPeer =>
    simp only [hty] at hr
    unfold Server.syncPeer at hr
    repeat' split at hr
    all_goals cases hr <;> exact ⟨rfl, fun h => by cases h⟩
  | syncPeerDone =>
    simp only [hty] at hr
    unfold Server.syncPeerDone at hr
    repeat' split at hr
    all_goals cases hr <;> exact ⟨rfl, fun h => by cases h⟩
  | unknown =>
    simp only [hty] at hr
    cases hr
    exact ⟨rfl, fun h => by cases h⟩

/-- A connection is read from then on, and so is every other one except that of
the file's entry. -/
theorem existingQps_incoming {addr socket size : ℕ} {fileId : F}
    (hr : s.handleIncomingConnection addr socket fileId size = some r) :
    socket ∈ r.server.existingQps ∧
      ∀ q ∈ s.existingQps, (∀ con, s.localCons fileId = some con → con.qp ≠ q) → q ∈ r.server.existingQps := by
  unfold Server.handleIncomingConnection at hr
  split at hr
  · split at hr
    · cases hr
    · cases hr
      exact ⟨List.mem_insert_self, fun q hq _ => List.mem_insert_of_mem hq⟩
  · rename_i con hf
    split at hr
    · cases hr
    · cases hr
      refine ⟨List.mem_insert_self, fun q hq hne => List.mem_insert_of_mem ?_⟩
      exact (List.mem_erase_of_ne (hne con hf).symm).mpr hq

end Server

/-! ### A process and its servers -/

section

variable {α N : Type*}

/-- A running server: the connections it has accepted, and the requests on each
that it has not read yet. A file is identified by its name, `none` for the
cleared one: the address of the process's host in front is always the same. -/
structure Endpoint (N : Type*) where
  server : Server (Option N)
  accepted : List ℕ
  inbox : ℕ → List (ClientReq (Option N))

/-- What a client knows of its connections: `remote_props`, whose keys are
`peers`, and what it says about its file. -/
structure Holder (α N : Type*) where
  inUse : Bool
  filename : Option N
  bufSize : ℕ
  remoteProps : List (α × ℕ)

/-- A process with its live clients and its `NCLQpPool`, the servers that run, and
the number of connections made so far. -/
structure QpPool (α N : Type*) where
  servers : α → Option (Endpoint N)
  idleQps : α → List ℕ
  clients : List (ℕ × Holder α N)
  made : ℕ

/-- `send` on a connection. -/
def Endpoint.send (n : Endpoint N) (req : ClientReq (Option N)) (q : ℕ) : Endpoint N :=
  if q ∈ n.accepted then { n with inbox := Function.update n.inbox q (n.inbox q ++ [req]) } else n

/-- The same request on several connections. -/
def Endpoint.sendTo (n : Endpoint N) (req : ClientReq (Option N)) (qs : List ℕ) : Endpoint N :=
  qs.foldl (fun n q => n.send req q) n

variable [DecidableEq α]

namespace Holder

/-- The queue pairs of the client to a host. -/
def qpsTo (c : Holder α N) (host : α) : List ℕ := (c.remoteProps.filter fun p => p.1 = host).map Prod.snd

/-- The entry of `remote_props` that `AddPeer` makes. -/
def insert (c : Holder α N) (host : α) (q : ℕ) : Holder α N :=
  { c with remoteProps := (host, q) :: c.remoteProps }

/-- `remote_props.erase` of `replacePeer`: the queue pair is dropped. -/
def erase (c : Holder α N) (host : α) : Holder α N :=
  { c with remoteProps := c.remoteProps.filter fun p => p.1 ≠ host }

theorem mem_qpsTo {c : Holder α N} {host : α} {q : ℕ} : q ∈ c.qpsTo host ↔ (host, q) ∈ c.remoteProps := by
  simp [qpsTo]

theorem mem_qpsTo_insert {c : Holder α N} {host host' : α} {q q' : ℕ} (h : q' ∈ (c.insert host q).qpsTo host') :
    (host' = host ∧ q' = q) ∨ q' ∈ c.qpsTo host' := by
  rw [mem_qpsTo] at h ⊢
  rcases List.mem_cons.mp h with h | h
  · exact .inl (Prod.mk.inj h)
  · exact .inr h

end Holder

namespace QpPool

/-- Nothing runs yet. -/
def init : QpPool α N := ⟨fun _ => none, fun _ => [], [], 0⟩

def client (s : QpPool α N) (o : ℕ) : Option (Holder α N) := Assoc.find s.clients o

def setClient (s : QpPool α N) (o : ℕ) (c : Holder α N) : QpPool α N :=
  { s with clients := (o, c) :: Assoc.erase s.clients o }

/-- A request sent to every peer of a client. -/
def sendAll (s : QpPool α N) (c : Holder α N) (type : ReqType) (size : ℕ) : QpPool α N :=
  { s with servers := fun host => (s.servers host).map fun n => n.sendTo ⟨type, c.filename, size⟩ (c.qpsTo host) }

/-- `SendFinalization`. -/
def sendFinalization (s : QpPool α N) (c : Holder α N) (type : ReqType) : QpPool α N :=
  if c.inUse then s.sendAll c type 0 else s

/-- `RecycleQp` of every queue pair of a client. -/
def recycleQps (s : QpPool α N) (c : Holder α N) : QpPool α N :=
  { s with idleQps := fun host => s.idleQps host ++ c.qpsTo host }

/-- `GetQpTo` for a client: the first idle queue pair, with `OPEN_FILE` sent over
it, or a new connection, which the server has to accept. -/
def getQpTo (s : QpPool α N) [DecidableEq N] (c : Holder α N) (host : α) (addr : ℕ) : Option (QpPool α N × ℕ) :=
  match s.idleQps host with
  | q :: rest =>
    let req := ⟨.openFile, c.filename, c.bufSize⟩
    some ({ s with
      idleQps := Function.update s.idleQps host rest
      servers := Function.update s.servers host ((s.servers host).map fun n => n.send req q) }, q)
  | [] =>
    match s.servers host with
    | none => none
    | some n =>
      if n.server.pool.Unused addr then
        (n.server.handleIncomingConnection addr s.made c.filename c.bufSize).map fun r =>
          ({ s with
            servers := Function.update s.servers host
              (some { n with server := r.server, accepted := s.made :: n.accepted })
            made := s.made + 1 }, s.made)
      else none

/-- What can happen. `GetClient` constructs a client, adds its peers and sets it in
use, or it takes an idle one, gives it the new name (`SetFileInfo`), may ask
about the file (`TryRecover`) and sets it in use; `RecycleClient` resets it.
A notice to the watcher removes a peer and adds one, or adds one. -/
inductive Event (α N : Type*) where
  | construct (o : ℕ) (filename : Option N) (bufSize : ℕ)
  | addPeer (o : ℕ) (host : α) (addr : ℕ)
  | removePeer (o : ℕ) (host : α)
  | setFileInfo (o : ℕ) (filename : Option N) (size : ℕ)
  | tryRecover (o : ℕ)
  | setInUse (o : ℕ)
  | reset (o : ℕ)
  | destroy (o : ℕ)
  | handle (host : α) (socket addr : ℕ)
  | hangUp (host : α) (socket : ℕ)
  | start (host : α)
  | crash (host : α)

/-- The process holds the queue pair to the host. -/
def Held (s : QpPool α N) (host : α) (q : ℕ) : Prop :=
  q ∈ s.idleQps host ∨ ∃ x ∈ s.clients, q ∈ x.2.qpsTo host

instance (s : QpPool α N) (host : α) (q : ℕ) : Decidable (s.Held host q) := inferInstanceAs (Decidable (_ ∨ _))

/-- Every queue pair that the process holds to a running server, and that this
server accepted, is read by it. -/
def Served (s : QpPool α N) : Prop :=
  ∀ host n q, s.servers host = some n → s.Held host q → q ∈ n.accepted → q ∈ n.server.existingQps

/-- The connection is to a server that runs. -/
def Alive (s : QpPool α N) (host : α) (q : ℕ) : Prop :=
  (s.servers host).any (fun n => q ∈ n.accepted) = true

instance (s : QpPool α N) (host : α) (q : ℕ) : Decidable (s.Alive host q) := inferInstanceAs (Decidable (_ = true))

/-- The queue pair in the entry of a file on a server. -/
def entryQp (s : QpPool α N) (host : α) (fileId : Option N) : Option ℕ :=
  (s.servers host).bind fun n => (n.server.localCons fileId).map LocalConData.qp

/-- No client in use is destroyed while one of its servers runs, and a new
connection does not take the place of one that is held. -/
def Careful (s : QpPool α N) : Event α N → Prop
  | .destroy o => ∀ c ∈ s.client o, c.inUse = true → ∀ p ∈ c.remoteProps, ¬ s.Alive p.1 p.2
  | .addPeer o host _ =>
    ∀ c ∈ s.client o, s.idleQps host = [] → ∀ q ∈ s.entryQp host c.filename, ¬ s.Held host q
  | _ => True

instance (s : QpPool α N) : ∀ e, Decidable (s.Careful e)
  | .destroy o => inferInstanceAs
      (Decidable (∀ c ∈ s.client o, c.inUse = true → ∀ p ∈ c.remoteProps, ¬ s.Alive p.1 p.2))
  | .addPeer o host _ => inferInstanceAs
      (Decidable (∀ c ∈ s.client o, s.idleQps host = [] → ∀ q ∈ s.entryQp host c.filename, ¬ s.Held host q))
  | .construct .. | .removePeer .. | .setFileInfo .. | .tryRecover _ | .setInUse _ | .reset _ | .handle ..
  | .hangUp .. | .start _ | .crash _ => instDecidableTrue

variable [DecidableEq N]

/-- One event. `Run` reads from the sockets in `existing_qps`, and drops the one
whose request returned 0 or whose other end is closed, which a queue pair
that is held is not. -/
def step (s : QpPool α N) : Event α N → Option (QpPool α N)
  | .construct o filename bufSize =>
    if s.client o = none then some (s.setClient o ⟨false, filename, bufSize, []⟩) else none
  | .addPeer o host addr =>
    (s.client o).bind fun c =>
      if host ∈ c.remoteProps.map Prod.fst then none
      else (s.getQpTo c host addr).map fun r => r.1.setClient o (c.insert host r.2)
  | .removePeer o host => (s.client o).map fun c => s.setClient o (c.erase host)
  | .setFileInfo o filename size =>
    (s.client o).map fun c =>
      let c := { c with filename, bufSize := size }
      (s.sendAll c .openFile size).setClient o c
  | .tryRecover o => (s.client o).map fun c => s.sendAll c .getInfo 0
  | .setInUse o => (s.client o).map fun c => s.setClient o { c with inUse := true }
  | .reset o =>
    (s.client o).map fun c =>
      (s.sendFinalization c .closeFile).setClient o { c with inUse := false, filename := none }
  | .destroy o =>
    (s.client o).map fun c =>
      let t := (s.sendFinalization c .exitProc).recycleQps c
      { t with clients := Assoc.erase t.clients o }
  | .handle host socket addr =>
    (s.servers host).bind fun n =>
      match n.inbox socket with
      | [] => none
      | req :: rest =>
        if socket ∈ n.server.existingQps ∧ n.server.pool.Unused addr then
          (n.server.handleClientRequest addr socket req).map fun r =>
            let qps := if r.dropped then r.server.existingQps.erase socket else r.server.existingQps
            let n' := ⟨{ r.server with existingQps := qps }, n.accepted, Function.update n.inbox socket rest⟩
            { s with servers := Function.update s.servers host (some n') }
        else none
  | .hangUp host socket =>
    (s.servers host).bind fun n =>
      if s.Held host socket then none
      else
        let n' := { n with server := { n.server with existingQps := n.server.existingQps.erase socket } }
        some { s with servers := Function.update s.servers host (some n') }
  | .start host =>
    if (s.servers host).isNone then
      some { s with servers := Function.update s.servers host (some ⟨.init, [], fun _ => []⟩) }
    else none
  | .crash host => some { s with servers := Function.update s.servers host none }

end QpPool

/-! ### What a request sent changes -/

theorem Endpoint.send_server (n : Endpoint N) (req : ClientReq (Option N)) (q : ℕ) :
    (n.send req q).server = n.server ∧ (n.send req q).accepted = n.accepted := by
  unfold Endpoint.send
  split
  · exact ⟨rfl, rfl⟩
  · exact ⟨rfl, rfl⟩

/-- No `EXIT_PROC` is under way. -/
def Endpoint.Quiet (n : Endpoint N) : Prop := ∀ q, ∀ req ∈ n.inbox q, req.type ≠ .exitProc

theorem Endpoint.Quiet.update {n : Endpoint N} (h : n.Quiet) (q : ℕ) {reqs : List (ClientReq (Option N))}
    (hreqs : ∀ req ∈ reqs, req.type ≠ .exitProc) :
    Endpoint.Quiet { n with inbox := Function.update n.inbox q reqs } :=
  (Function.forall_update_iff n.inbox fun _ reqs => ∀ req ∈ reqs, req.type ≠ .exitProc).mpr
    ⟨hreqs, fun q' _ => h q'⟩

theorem Endpoint.Quiet.send {n : Endpoint N} (h : n.Quiet) {req : ClientReq (Option N)} {q : ℕ}
    (hreq : q ∈ n.accepted → req.type ≠ .exitProc) : (n.send req q).Quiet := by
  unfold Endpoint.send
  split
  · rename_i hq
    refine h.update q fun req' hmem => ?_
    rcases List.mem_append.mp hmem with hmem | hmem
    · exact h q req' hmem
    · rw [List.mem_singleton.mp hmem]
      exact hreq hq
  · exact h

/-- The requests change only what is under way. -/
theorem Endpoint.sendTo_server (req : ClientReq (Option N)) : ∀ (qs : List ℕ) (n : Endpoint N),
    (n.sendTo req qs).server = n.server ∧ (n.sendTo req qs).accepted = n.accepted
  | [], _ => ⟨rfl, rfl⟩
  | q :: qs, n => by
    obtain ⟨hs, ha⟩ := n.send_server req q
    obtain ⟨hs', ha'⟩ := sendTo_server req qs (n.send req q)
    exact ⟨hs'.trans hs, ha'.trans ha⟩

theorem Endpoint.Quiet.sendTo {req : ClientReq (Option N)} : ∀ {qs : List ℕ} {n : Endpoint N}, n.Quiet →
    (∀ q ∈ qs, q ∈ n.accepted → req.type ≠ .exitProc) → (n.sendTo req qs).Quiet
  | [], _, h, _ => h
  | q :: qs, n, h, hreq => by
    refine (h.send (hreq q List.mem_cons_self)).sendTo fun q' hq' hacc => ?_
    rw [(n.send_server req q).2] at hacc
    exact hreq q' (List.mem_cons_of_mem _ hq') hacc

/-! ### Careful runs -/

namespace QpPool

variable {s t : QpPool α N}

/-- Every connection held is read, and no `EXIT_PROC` is under way. -/
structure Safe (s : QpPool α N) : Prop where
  served : s.Served
  quiet : ∀ host n, s.servers host = some n → n.Quiet

theorem safe_init : (init : QpPool α N).Safe where
  served := fun host n q hn => by cases hn
  quiet := fun host n hn => by cases hn

/-- What the servers do is safe if they go on reading what is held. -/
theorem safe_servers {f : α → Option (Endpoint N)} {m : ℕ}
    (hf : ∀ host n', f host = some n' →
      n'.Quiet ∧ ∀ q, s.Held host q → q ∈ n'.accepted → q ∈ n'.server.existingQps) :
    Safe { s with servers := f, made := m } where
  served := fun host n q hn hq hacc => (hf host n hn).2 q hq hacc
  quiet := fun host n hn => (hf host n hn).1

/-- What one server does. -/
theorem Safe.update (h : Safe s) {host : α} {o : Option (Endpoint N)} {m : ℕ}
    (ho : ∀ n', o = some n' → n'.Quiet ∧ ∀ q, s.Held host q → q ∈ n'.accepted → q ∈ n'.server.existingQps) :
    Safe { s with servers := Function.update s.servers host o, made := m } := by
  refine safe_servers fun host' n' hn' => ?_
  rcases Assoc.update_cases hn' with ⟨rfl, hnew⟩ | ⟨-, hold⟩
  · exact ho n' hnew
  · exact ⟨h.quiet host' n' hold, fun q hq hacc => h.served host' n' q hold hq hacc⟩

/-- What the process does with its queue pairs is safe if each was held before or
is read. -/
theorem Safe.hold (h : Safe s) (hsv : t.servers = s.servers)
    (hheld : ∀ host q, t.Held host q →
      s.Held host q ∨ ∀ n, s.servers host = some n → q ∈ n.server.existingQps) : Safe t where
  served := fun host n q hn hq hacc => by
    rw [hsv] at hn
    rcases hheld host q hq with hq | hq
    · exact h.served host n q hn hq hacc
    · exact hq n hn
  quiet := fun host n hn => h.quiet host n (hsv ▸ hn)

theorem held_setClient {o : ℕ} {c : Holder α N} {host : α} {q : ℕ} (h : (s.setClient o c).Held host q) :
    s.Held host q ∨ q ∈ c.qpsTo host := by
  rcases h with h | ⟨x, hx, hq⟩
  · exact .inl (.inl h)
  · rcases List.mem_cons.mp hx with rfl | hx
    · exact .inr hq
    · exact .inl (.inr ⟨x, (List.mem_filter.mp hx).1, hq⟩)

theorem held_of_client {o : ℕ} {c : Holder α N} (hc : s.client o = some c) {host : α} {q : ℕ}
    (hq : q ∈ c.qpsTo host) : s.Held host q :=
  .inr ⟨(o, c), Assoc.mem_of_find hc, hq⟩

/-- A client changes without a new queue pair. -/
theorem Safe.setClient (h : Safe s) {o : ℕ} {c : Holder α N} (hc : ∀ host, ∀ q ∈ c.qpsTo host, s.Held host q) :
    Safe (s.setClient o c) := by
  refine h.hold rfl fun host q hq => .inl ?_
  rcases held_setClient hq with hq | hq
  · exact hq
  · exact hc host q hq

/-- A request to the peers of a client, `EXIT_PROC` only to those that are gone. -/
theorem Safe.sendAll (h : Safe s) {c : Holder α N} {type : ReqType} {size : ℕ}
    (hty : type = .exitProc → ∀ p ∈ c.remoteProps, ¬ s.Alive p.1 p.2) : Safe (s.sendAll c type size) := by
  refine safe_servers (m := s.made) fun host n' hn' => ?_
  obtain ⟨n, hn, rfl⟩ := Option.map_eq_some_iff.mp hn'
  obtain ⟨hserver, haccepted⟩ := n.sendTo_server ⟨type, c.filename, size⟩ (c.qpsTo host)
  rw [hserver, haccepted]
  refine ⟨(h.quiet host n hn).sendTo fun q hq hacc hexit => ?_, fun q hq hacc => h.served host n q hn hq hacc⟩
  refine hty hexit (host, q) (Holder.mem_qpsTo.mp hq) ?_
  simp [Alive, hn, hacc]

theorem Safe.sendFinalization (h : Safe s) {c : Holder α N} {type : ReqType}
    (hty : type = .exitProc → c.inUse = true → ∀ p ∈ c.remoteProps, ¬ s.Alive p.1 p.2) :
    Safe (s.sendFinalization c type) := by
  unfold QpPool.sendFinalization
  split
  · rename_i hin
    exact h.sendAll fun he => hty he hin
  · exact h

theorem client_sendFinalization (s : QpPool α N) (c : Holder α N) (type : ReqType) (o : ℕ) :
    (s.sendFinalization c type).client o = s.client o := by
  unfold QpPool.sendFinalization
  split
  · rfl
  · rfl

theorem Safe.destroy (h : Safe s) {o : ℕ} {c : Holder α N} (hc : s.client o = some c)
    (hgone : c.inUse = true → ∀ p ∈ c.remoteProps, ¬ s.Alive p.1 p.2) :
    let t := (s.sendFinalization c .exitProc).recycleQps c
    Safe { t with clients := Assoc.erase t.clients o } := by
  have hsent : Safe (s.sendFinalization c .exitProc) := h.sendFinalization fun _ => hgone
  refine hsent.hold rfl fun host q hq => .inl ?_
  rcases hq with hq | ⟨x, hx, hq⟩
  · rcases List.mem_append.mp hq with hq | hq
    · exact .inl hq
    · exact held_of_client ((s.client_sendFinalization c .exitProc o).trans hc) hq
  · exact .inr ⟨x, (List.mem_filter.mp hx).1, hq⟩

/-- An idle queue pair goes to a client, which opens its file over it. -/
theorem Safe.takeIdle (h : Safe s) {o : ℕ} {c : Holder α N} (hc : s.client o = some c) {host : α} {q : ℕ}
    {rest : List ℕ} (hidle : s.idleQps host = q :: rest) :
    Safe (QpPool.setClient { s with
      idleQps := Function.update s.idleQps host rest
      servers := Function.update s.servers host
        ((s.servers host).map fun n => n.send ⟨.openFile, c.filename, c.bufSize⟩ q) } o (c.insert host q)) := by
  have hsent : Safe { s with
      servers := Function.update s.servers host
        ((s.servers host).map fun n => n.send ⟨.openFile, c.filename, c.bufSize⟩ q) } := by
    refine h.update (m := s.made) fun n' hn' => ?_
    obtain ⟨n, hn, rfl⟩ := Option.map_eq_some_iff.mp hn'
    obtain ⟨hserver, haccepted⟩ := n.send_server ⟨.openFile, c.filename, c.bufSize⟩ q
    rw [hserver, haccepted]
    exact ⟨(h.quiet host n hn).send fun _ => by simp, fun q hq hacc => h.served host n q hn hq hacc⟩
  have hmem : ∀ q' ∈ q :: rest, s.Held host q' := fun q' hq' => .inl (by rw [hidle]; exact hq')
  refine hsent.hold rfl fun host' q' hq' => .inl ?_
  rcases held_setClient hq' with (hq' | hq') | hq'
  · by_cases hh : host' = host
    · subst hh
      simp only [Function.update_self] at hq'
      exact hmem q' (List.mem_cons_of_mem _ hq')
    · simp only [Function.update_of_ne hh] at hq'
      exact .inl hq'
  · exact .inr hq'
  · rcases Holder.mem_qpsTo_insert hq' with ⟨rfl, rfl⟩ | hq'
    · exact hmem _ List.mem_cons_self
    · exact held_of_client hc hq'

variable [DecidableEq N]

/-- A new connection that takes the place of none that is held. -/
theorem Safe.connect (h : Safe s) {o : ℕ} {c : Holder α N} (hc : s.client o = some c) {host : α} {addr : ℕ}
    {n : Endpoint N} (hn : s.servers host = some n) (hfree : ∀ q ∈ s.entryQp host c.filename, ¬ s.Held host q)
    {r : Handled (Option N)} (hr : n.server.handleIncomingConnection addr s.made c.filename c.bufSize = some r) :
    Safe (QpPool.setClient { s with
      servers := Function.update s.servers host
        (some { n with server := r.server, accepted := s.made :: n.accepted })
      made := s.made + 1 } o (c.insert host s.made)) := by
  obtain ⟨hnew, hkeep⟩ := Server.existingQps_incoming hr
  have hconnected : Safe { s with
      servers := Function.update s.servers host (some ⟨r.server, s.made :: n.accepted, n.inbox⟩)
      made := s.made + 1 } := by
    refine h.update fun n' hn' => ?_
    cases hn'
    refine ⟨h.quiet host n hn, fun q hq hacc => ?_⟩
    rcases List.mem_cons.mp hacc with rfl | hacc
    · exact hnew
    · refine hkeep q (h.served host n q hn hq hacc) fun con hcon heq => ?_
      refine hfree q ?_ hq
      simp [entryQp, hn, hcon, heq]
  refine hconnected.hold rfl fun host' q hq => ?_
  rcases held_setClient hq with hq | hq
  · exact .inl hq
  · rcases Holder.mem_qpsTo_insert hq with ⟨rfl, rfl⟩ | hq
    · right
      intro n' hn'
      simp only [Function.update_self, Option.some.injEq] at hn'
      rw [← hn']
      exact hnew
    · exact .inl (held_of_client hc hq)

theorem Safe.addPeer (h : Safe s) {o : ℕ} {c : Holder α N} (hc : s.client o = some c) {host : α} {addr q : ℕ}
    {u : QpPool α N} (hfree : s.idleQps host = [] → ∀ q ∈ s.entryQp host c.filename, ¬ s.Held host q)
    (hu : s.getQpTo c host addr = some (u, q)) : Safe (u.setClient o (c.insert host q)) := by
  unfold getQpTo at hu
  split at hu
  · rename_i hidle
    rw [Option.some.injEq, Prod.mk.injEq] at hu
    obtain ⟨rfl, rfl⟩ := hu
    exact h.takeIdle hc hidle
  · rename_i hidle
    split at hu
    · cases hu
    · rename_i n hn
      simp only [Option.ite_none_right_eq_some, Option.map_eq_some_iff, Prod.mk.injEq] at hu
      obtain ⟨-, r, hr, rfl, rfl⟩ := hu
      exact h.connect hc hn (hfree hidle) hr

/-- A server reads a request, which is not `EXIT_PROC`. -/
theorem Safe.handle (h : Safe s) {host : α} {n : Endpoint N} (hn : s.servers host = some n) {socket addr : ℕ}
    {req : ClientReq (Option N)} {rest : List (ClientReq (Option N))} (hbox : n.inbox socket = req :: rest)
    {r : Handled (Option N)} (hr : n.server.handleClientRequest addr socket req = some r) (qps : List ℕ)
    (hqps : r.dropped = false → qps = r.server.existingQps) :
    Safe { s with
      servers := Function.update s.servers host
        (some ⟨{ r.server with existingQps := qps }, n.accepted, Function.update n.inbox socket rest⟩) } := by
  have hquiet := h.quiet host n hn
  obtain ⟨hkeep, hdrop⟩ := Server.existingQps_request hr
  have hstay : r.dropped = false := by
    rw [← Bool.not_eq_true]
    intro hd
    exact hquiet socket req (by rw [hbox]; exact List.mem_cons_self) (hdrop hd)
  refine h.update (m := s.made) fun n' hn' => ?_
  cases hn'
  rw [hqps hstay, hkeep]
  refine ⟨?_, fun q hq hacc => h.served host n q hn hq hacc⟩
  have hrest : ∀ req' ∈ rest, req'.type ≠ .exitProc := fun req' hmem =>
    hquiet socket req' (by rw [hbox]; exact List.mem_cons_of_mem _ hmem)
  exact hquiet.update socket hrest

theorem Safe.step (h : Safe s) {e : Event α N} (he : s.Careful e) (hs : s.step e = some t) : Safe t := by
  cases e with
  | construct o filename bufSize =>
    simp only [QpPool.step, Option.ite_none_right_eq_some, Option.some.injEq] at hs
    obtain ⟨-, rfl⟩ := hs
    exact h.setClient fun host q hq => by cases hq
  | addPeer o host addr =>
    simp only [QpPool.step, Option.bind_eq_some_iff, Option.ite_none_left_eq_some, Option.map_eq_some_iff] at hs
    obtain ⟨c, hc, -, ⟨u, q⟩, hu, rfl⟩ := hs
    exact h.addPeer hc (he c hc) hu
  | removePeer o host =>
    simp only [QpPool.step, Option.map_eq_some_iff] at hs
    obtain ⟨c, hc, rfl⟩ := hs
    refine h.setClient fun host' q hq => held_of_client hc ?_
    rw [Holder.mem_qpsTo] at hq ⊢
    exact (List.mem_filter.mp hq).1
  | setFileInfo o filename size =>
    simp only [QpPool.step, Option.map_eq_some_iff] at hs
    obtain ⟨c, hc, rfl⟩ := hs
    refine Safe.setClient (h.sendAll fun he => by cases he) fun host q hq => ?_
    exact held_of_client (c := c) hc hq
  | tryRecover o =>
    simp only [QpPool.step, Option.map_eq_some_iff] at hs
    obtain ⟨c, hc, rfl⟩ := hs
    exact h.sendAll fun he => by cases he
  | setInUse o =>
    simp only [QpPool.step, Option.map_eq_some_iff] at hs
    obtain ⟨c, hc, rfl⟩ := hs
    exact h.setClient fun host q hq => held_of_client (c := c) hc hq
  | reset o =>
    simp only [QpPool.step, Option.map_eq_some_iff] at hs
    obtain ⟨c, hc, rfl⟩ := hs
    refine Safe.setClient (h.sendFinalization fun he => by cases he) fun host q hq => ?_
    exact held_of_client (c := c) ((s.client_sendFinalization c .closeFile o).trans hc) hq
  | destroy o =>
    simp only [QpPool.step, Option.map_eq_some_iff] at hs
    obtain ⟨c, hc, rfl⟩ := hs
    exact h.destroy hc (he c hc)
  | handle host socket addr =>
    simp only [QpPool.step, Option.bind_eq_some_iff] at hs
    obtain ⟨n, hn, hs⟩ := hs
    split at hs
    · cases hs
    · rename_i req rest hbox
      simp only [Option.ite_none_right_eq_some, Option.map_eq_some_iff] at hs
      obtain ⟨-, r, hr, rfl⟩ := hs
      exact h.handle hn hbox hr _ fun hd => by rw [hd]; rfl
  | hangUp host socket =>
    simp only [QpPool.step, Option.bind_eq_some_iff, Option.ite_none_left_eq_some, Option.some.injEq] at hs
    obtain ⟨n, hn, hfree, rfl⟩ := hs
    refine h.update (m := s.made) fun n' hn' => ?_
    cases hn'
    refine ⟨h.quiet host n hn, fun q hq hacc => ?_⟩
    have hne : q ≠ socket := fun hqs => hfree (hqs ▸ hq)
    exact (List.mem_erase_of_ne hne).mpr (h.served host n q hn hq hacc)
  | start host =>
    simp only [QpPool.step, Option.ite_none_right_eq_some, Option.some.injEq] at hs
    obtain ⟨-, rfl⟩ := hs
    refine h.update (m := s.made) fun n' hn' => ?_
    cases hn'
    refine ⟨fun q req hmem => ?_, fun q _ hacc => ?_⟩
    · cases hmem
    · cases hacc
  | crash host =>
    simp only [QpPool.step, Option.some.injEq] at hs
    subst hs
    exact h.update (m := s.made) fun n' hn' => by cases hn'

/-- **Every queue pair held is served**, in every state of every run in which no
client in use is destroyed while one of its servers runs, and no connection
takes the place of one that is held. -/
theorem held_served (h : Trace.Reach (Trace.restrict Careful step) init s) : s.Served := by
  have hsafe : s.Safe := h.inv_restrict safe_init fun _ _ _ hs hok he => hs.step hok he
  exact hsafe.served

end QpPool

end

namespace QpPool

/-- A client with two peers is recycled and reused, loses a peer while it is idle
and gets another one, and is destroyed; the next client opens its file over a
recycled connection. -/
def recycled : List (Event ℕ ℕ) :=
  [.start 0, .start 1, .construct 0 (some 7) 16, .addPeer 0 0 0, .addPeer 0 1 0, .setInUse 0, .reset 0,
    .handle 0 0 1, .handle 1 1 1, .setFileInfo 0 (some 8) 16, .handle 0 0 1, .handle 1 1 1, .tryRecover 0,
    .handle 1 1 1, .handle 0 0 1, .setInUse 0, .reset 0, .crash 1, .removePeer 0 1, .start 2, .addPeer 0 2 0,
    .handle 0 0 1, .destroy 0, .construct 1 (some 9) 16, .addPeer 1 0 1, .handle 0 0 1]

theorem held_served_recycled :
    ∃ s : QpPool ℕ ℕ, Trace.Reach (Trace.restrict Careful step) init s ∧
      (s.Held 0 0 ∧ s.Alive 0 0 ∧ s.Held 2 2 ∧ s.Alive 2 2 ∧ s.entryQp 0 (some 9) = some 0) ∧ s.Served := by
  obtain ⟨s, hs, hp⟩ : ∃ s : QpPool ℕ ℕ, Trace.Reach (Trace.restrict Careful step) init s ∧
      (s.Held 0 0 ∧ s.Alive 0 0 ∧ s.Held 2 2 ∧ s.Alive 2 2 ∧ s.entryQp 0 (some 9) = some 0) :=
    Trace.exists_reach_of_exec recycled (by decide)
  exact ⟨s, hs, hp, held_served hs⟩

/-- Two idle clients lose their server and get another one. Both connect to it
under the cleared name, and the server drops the first of the connections. -/
theorem idle_connection_dropped : ¬ ∀ s : QpPool ℕ ℕ, Trace.Reach step init s → s.Served := by
  intro hall
  obtain ⟨s, hs, hp⟩ : ∃ s : QpPool ℕ ℕ, Trace.Reach step init s ∧
      (s.Held 1 2 ∧ (s.servers 1).any (fun n => 2 ∈ n.accepted ∧ 2 ∉ n.server.existingQps) = true) :=
    Trace.exists_reach_of_exec
      [.start 0, .construct 0 (some 7) 16, .addPeer 0 0 0, .setInUse 0, .construct 1 (some 8) 16,
        .addPeer 1 0 1, .setInUse 1, .reset 0, .handle 0 0 2, .reset 1, .handle 0 1 2, .start 1, .crash 0,
        .removePeer 0 0, .addPeer 0 1 0, .removePeer 1 0, .addPeer 1 1 1] (by decide)
  obtain ⟨hheld, hp⟩ := hp
  simp only [Option.any_eq_true, decide_eq_true_eq] at hp
  obtain ⟨n, hn, hacc, hout⟩ := hp
  exact hout (hall s hs 1 n 2 hn hheld hacc)

end QpPool
end ComputeSideLog
