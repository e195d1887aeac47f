/-
# Peers and their connections

A client keeps its membership twice: `peers`, which decides how large a
quorum is and whom a recovery writes to, and `remote_props`, an
`unordered_map` from the address to the connection, which the requests and
the writes go to (`src/rdma/client.cc`). Several functions index
`remote_props` with `operator[]`, which inserts an empty connection under a
key that is missing (`Conns.index`).

`Conns.step` has every function that changes one of the two or goes through
them, each as one step with any answers from the servers and from ZooKeeper.
The two agree in every state, and every connection has the queue pair that
an `AddPeer` got for its key (`Conns.members_connected`): each use of
`operator[]` names a key that is there, also the source that
`getRecoverSrcPeer` computes from replies (`recoverSrc_mem`). What a client
does to its membership is `Member` of `Watcher.lean` (`Conns.clientWatcher_member`).

An iteration over a container is a list of its elements in any order. An
address is a non-empty string, taken from an arbitrary type, and no address
is the empty string. `recover_lock` is in `Suspend.lean`.
-/
import ComputeSideLog.Lib.Trace
import ComputeSideLog.Recover
import ComputeSideLog.Serve
import ComputeSideLog.Watcher

namespace ComputeSideLog

/-- A queue pair with its remote socket and its user data, which is the region
token that the server sent. -/
structure QueuePair where
  id : ℕ
  remoteSocket : ℕ
  userData : ℕ
  deriving DecidableEq, Repr

/-- `RemoteConData`: null pointers and a socket that was never set are `none`,
and of `op_queue` the length is kept. -/
structure RemoteConData where
  qp : Option QueuePair
  remoteBufferToken : Option ℕ
  socket : Option ℕ
  opQueue : ℕ
  deriving DecidableEq, Repr

namespace RemoteConData

/-- What `operator[]` inserts. -/
def empty : RemoteConData := ⟨none, none, none, 0⟩

/-- What `AddPeer` fills in. -/
def ofQp (qp : QueuePair) : RemoteConData := ⟨some qp, some qp.userData, some qp.remoteSocket, 0⟩

/-- The connection is made of the queue pair. -/
def Over (d : RemoteConData) (qp : QueuePair) : Prop :=
  d.qp = some qp ∧ d.remoteBufferToken = some qp.userData ∧ d.socket = some qp.remoteSocket

theorem ofQp_over (qp : QueuePair) : (ofQp qp).Over qp := ⟨rfl, rfl, rfl⟩

end RemoteConData

/-- The list goes through the elements of the container. -/
def Enumerates {α : Type*} [DecidableEq α] (l : List α) (s : Finset α) : Prop := l.Nodup ∧ l.toFinset = s

instance {α : Type*} [DecidableEq α] (l : List α) (s : Finset α) : Decidable (Enumerates l s) :=
  inferInstanceAs (Decidable (_ ∧ _))

section

variable {α : Type*}

theorem Enumerates.mem_iff [DecidableEq α] {l : List α} {s : Finset α} (h : Enumerates l s) (a : α) :
    a ∈ l ↔ a ∈ s := by
  rw [← h.2, List.mem_toFinset]

/-! ### The recovery source -/

/-- The body of the second loop of `getRecoverSrcPeer`, for any reply. -/
def srcReply (acc : SrcAcc α) (r : α × ServerResp) : SrcAcc α :=
  if r.2.seq ≠ 0 ∧ r.2.seq < acc.minSeq then ⟨r.2.seq, r.2.size, some r.1⟩ else acc

/-- `getRecoverSrcPeer`, the replies in the order of `remote_props`. -/
def recoverSrc (replies : List (α × ServerResp)) : Option α × ℕ :=
  let acc := replies.foldl srcReply ⟨seqMax, 0, none⟩
  (acc.ipRecoverSrc, if acc.minSeq = seqMax then 0 else acc.recoverSize)

/-- With the replies that the peers' regions give, this is the source of the
recovered client. -/
theorem recoverSrc_getInfo (ps : List (Peer α)) :
    recoverSrc (ps.map fun p => (p.addr, getInfo p.buffer)) = getRecoverSrcPeer ps := by
  unfold recoverSrc getRecoverSrcPeer
  rw [List.foldl_map]
  rfl

/-- Whatever the servers reply, a size to recover comes with the address of one
of them. -/
theorem recoverSrc_mem {replies : List (α × ServerResp)} (h : 0 < (recoverSrc replies).2) :
    ∃ a, (recoverSrc replies).1 = some a ∧ a ∈ replies.map Prod.fst := by
  unfold recoverSrc at h ⊢
  rcases @Least.foldl_cases _ _ (fun r : α × ServerResp => r.2.seq) SrcAcc.minSeq
    (fun r => ⟨r.2.seq, r.2.size, some r.1⟩) srcReply (fun _ => rfl) (fun _ _ => rfl) replies ⟨seqMax, 0, none⟩
    with ⟨he, -⟩ | ⟨r, hr, he⟩
  · simp [he] at h
  · exact ⟨r.1, by simp only [he], List.mem_map_of_mem hr.mem⟩

end

/-! ### The client -/

/-- `peers`, `remote_props` as its keys and the connection of each, `rep_factor`
and `in_use`; and for each `AddPeer` that connected, the address and the queue
pair it got. -/
structure Conns (α : Type*) where
  peers : Finset α
  props : Finset α
  con : α → RemoteConData
  repFactor : ℕ
  inUse : Bool
  obtained : List (α × QueuePair)

/-- The requests a function sends, with the socket of each. -/
abbrev Sends := List (Option ℕ × ReqType)

namespace Conns

variable {α : Type*} [DecidableEq α]

/-- The client before `init`. -/
def empty (rep : ℕ) : Conns α := ⟨∅, ∅, fun _ => .empty, rep, false, []⟩

/-- `AddPeer`, with the queue pair that `GetQpTo` returns. -/
def addPeer (s : Conns α) (a : α) (qp : QueuePair) (wexists : Bool) : Conns α × Bool :=
  if a ∈ s.peers then (s, false)
  else
    ({ s with
        props := insert a s.props
        con := Function.update s.con a (.ofQp qp)
        peers := insert a s.peers
        obtained := (a, qp) :: s.obtained }, wexists)

/-- The two erasures of `replacePeer`. -/
def erase (s : Conns α) (a : α) : Conns α :=
  { s with props := s.props.erase a, con := Function.update s.con a .empty, peers := s.peers.erase a }

/-- The removal in `replacePeer`; `none` if the old peer is not connected. -/
def removeOld (s : Conns α) : Option α → Option (Conns α)
  | none => some s
  | some a => if a ∈ s.props then some (s.erase a) else none

/-- `replacePeer`; `none` is the empty string. -/
def replacePeer (s : Conns α) (old : Option α) (ans : Answers α) (qp : QueuePair) : Conns α × Option α :=
  match s.removeOld old with
  | none => (s, none)
  | some s =>
    match Member.finds ans s.peers with
    | none => (s, none)
    | some a =>
      let (s, ok) := s.addPeer a qp ans.wexists
      (s, if ok then some a else none)

/-- `remote_props[a]`. -/
def index (s : Conns α) (a : α) : Conns α :=
  if a ∈ s.props then s else { s with props := insert a s.props, con := Function.update s.con a .empty }

/-- `recoverPeer`: the two writes go over the connection of the peer. -/
def recoverPeer (s : Conns α) (a : α) : Conns α := s.index a

/-- `recoverPeers`. -/
def recoverPeers (s : Conns α) (syncAddrs : List α) : Conns α := syncAddrs.foldl index s

/-- `recoverFromSrc`: the read goes over the connection of the source. -/
def recoverFromSrc (s : Conns α) (src : α) : Conns α := s.index src

/-- `syncPeerAfterRecover`, which goes through `peers`. -/
def syncPeerAfterRecover (s : Conns α) (order : List α) (skip : Option α) : Conns α :=
  s.recoverPeers (order.filter fun a => some a ≠ skip)

/-- `TryRecover`. A positive size never comes without a source
(`recoverSrc_mem`). -/
def tryRecover (s : Conns α) (replies : List (α × ServerResp)) (order : List α) : Conns α :=
  let (src, size) := recoverSrc replies
  let s := if 0 < size then src.elim s s.recoverFromSrc else s
  s.syncPeerAfterRecover order src

/-- `TryLocalRecover` for a local file of `stSize` bytes. -/
def tryLocalRecover (s : Conns α) (stSize : ℕ) (order : List α) : Conns α :=
  if 0 < stSize then order.foldl recoverPeer s else s

/-- `SetFileInfo`: the sockets are those of the queue pairs. -/
def setFileInfo (s : Conns α) (order : List α) : Sends :=
  order.map fun a => ((s.con a).qp.map QueuePair.remoteSocket, .openFile)

/-- `SendFinalization`. -/
def sendFinalization (s : Conns α) (order : List α) (type : ReqType) : Sends :=
  if s.inUse then order.map fun a => ((s.con a).socket, type) else []

/-- `Reset`. -/
def reset (s : Conns α) (order : List α) : Conns α × Sends :=
  ({ s with inUse := false }, s.sendFinalization order .closeFile)

/-- The queues after `WriteQuorum` has pushed a token to each and popped
`popped a` of them. -/
def polled (s : Conns α) (popped : α → ℕ) : Conns α :=
  { s with con := fun a =>
      if a ∈ s.props then { s.con a with opQueue := (s.con a).opQueue + 1 - popped a } else s.con a }

/-- `quorumCompleted`: too few peers, or a queue is empty again at more than
half of them, so that the token of this call was popped there. -/
def quorumCompleted (s : Conns α) : Prop :=
  s.peers.card ≤ s.repFactor / 2 ∨ s.repFactor / 2 < (s.props.filter fun a => (s.con a).opQueue = 0).card

instance (s : Conns α) : Decidable s.quorumCompleted := inferInstanceAs (Decidable (_ ∨ _))

/-- `WriteQuorum`, which ends once `quorumCompleted`. -/
def writeQuorum (s : Conns α) (popped : α → ℕ) : Option (Conns α) :=
  if (s.polled popped).quorumCompleted then some (s.polled popped) else none

/-- `ClientWatcher` in the connected state. -/
def clientWatcher (s : Conns α) (ans : Answers α) (qp : QueuePair) : Notice α → Conns α
  | .deleted peer =>
    match s.replacePeer (some peer) ans qp with
    | (s, none) => s
    | (s, some a) => s.recoverPeer a
  | .child =>
    match s.replacePeer none ans qp with
    | (s, none) => s
    | (s, some a) => if s.inUse then s.recoverPeer a else s
  | .created _ => s

/-- `init`: `AddPeer` for every address, each with its queue pair and the
outcome of `zoo_wexists`. -/
def construct (rep : ℕ) (hosts : List (α × QueuePair × Bool)) : Conns α :=
  hosts.foldl (fun s h => (s.addPeer h.1 h.2.1 h.2.2).1) (empty rep)

/-- A call on the client or a callback. -/
inductive Event (α : Type*) where
  | addPeer (a : α) (qp : QueuePair) (wexists : Bool)
  | replacePeer (old : Option α) (ans : Answers α) (qp : QueuePair)
  | tryRecover (replies : List (α × ServerResp)) (order : List α)
  | tryLocalRecover (stSize : ℕ) (order : List α)
  | setFileInfo (order : List α)
  | sendFinalization (order : List α) (type : ReqType)
  | reset (order : List α)
  | setInUse (inUse : Bool)
  | writeQuorum (popped : α → ℕ)
  | clientWatcher (notice : Notice α) (ans : Answers α) (qp : QueuePair)

/-- One call; an iteration goes through what is there. -/
def step (s : Conns α) : Event α → Option (Conns α)
  | .addPeer a qp wexists => some (s.addPeer a qp wexists).1
  | .replacePeer old ans qp => some (s.replacePeer old ans qp).1
  | .tryRecover replies order =>
    if Enumerates (replies.map Prod.fst) s.props ∧ Enumerates order s.peers
    then some (s.tryRecover replies order) else none
  | .tryLocalRecover stSize order =>
    if Enumerates order s.peers then some (s.tryLocalRecover stSize order) else none
  | .setFileInfo order => if Enumerates order s.props then some s else none
  | .sendFinalization order _ => if Enumerates order s.props then some s else none
  | .reset order => if Enumerates order s.props then some (s.reset order).1 else none
  | .setInUse inUse => some { s with inUse := inUse }
  | .writeQuorum popped => s.writeQuorum popped
  | .clientWatcher notice ans qp => some (s.clientWatcher ans qp notice)

/-- `remote_props` and `peers` have the same keys, and each connection is made
of a queue pair that `AddPeer` got for its key. -/
structure Ok (s : Conns α) : Prop where
  keys : s.props = s.peers
  made : ∀ a ∈ s.props, ∃ qp, (a, qp) ∈ s.obtained ∧ (s.con a).Over qp

variable {s t : Conns α}

theorem addPeer_of_notMem {a : α} (ha : a ∉ s.peers) (qp : QueuePair) (wexists : Bool) :
    s.addPeer a qp wexists =
      ({ s with
          props := insert a s.props
          con := Function.update s.con a (.ofQp qp)
          peers := insert a s.peers
          obtained := (a, qp) :: s.obtained }, wexists) := if_neg ha

theorem Ok.addPeer (h : s.Ok) (a : α) (qp : QueuePair) (wexists : Bool) : (s.addPeer a qp wexists).1.Ok := by
  by_cases ha : a ∈ s.peers
  · rw [Conns.addPeer, if_pos ha]
    exact h
  · rw [addPeer_of_notMem ha]
    refine ⟨congrArg (insert a) h.keys, fun b hb => ?_⟩
    by_cases hba : b = a
    · subst hba
      refine ⟨qp, List.mem_cons_self, ?_⟩
      show (Function.update s.con b (.ofQp qp) b).Over qp
      rw [Function.update_self]
      exact RemoteConData.ofQp_over qp
    · obtain ⟨q, hq, hover⟩ := h.made b ((Finset.mem_insert.mp hb).resolve_left hba)
      refine ⟨q, List.mem_cons_of_mem _ hq, ?_⟩
      show (Function.update s.con a (.ofQp qp) b).Over q
      rw [Function.update_of_ne hba]
      exact hover

theorem Ok.erase (h : s.Ok) (a : α) : (s.erase a).Ok := by
  refine ⟨congrArg (Finset.erase · a) h.keys, fun b hb => ?_⟩
  obtain ⟨hba, hb⟩ := Finset.mem_erase.mp hb
  obtain ⟨q, hq, hover⟩ := h.made b hb
  refine ⟨q, hq, ?_⟩
  show (Function.update s.con a .empty b).Over q
  rw [Function.update_of_ne hba]
  exact hover

theorem Ok.removeOld (h : s.Ok) {old : Option α} (ht : s.removeOld old = some t) : t.Ok := by
  cases old with
  | none => exact Option.some.inj ht ▸ h
  | some a =>
    obtain ⟨-, ht⟩ := Option.ite_none_right_eq_some.mp ht
    exact Option.some.inj ht ▸ h.erase a

/-- `replacePeer` stops before the old peer is removed, or after it, or calls
`AddPeer` for a server that is none of the peers. -/
theorem replacePeer_cases (s : Conns α) (old : Option α) (ans : Answers α) (qp : QueuePair) :
    (s.removeOld old = none ∧ s.replacePeer old ans qp = (s, none)) ∨
    ∃ u, s.removeOld old = some u ∧
      ((Member.finds ans u.peers = none ∧ s.replacePeer old ans qp = (u, none)) ∨
      ∃ a, Member.finds ans u.peers = some a ∧ s.replacePeer old ans qp =
        ((u.addPeer a qp ans.wexists).1, if ans.wexists then some a else none)) := by
  unfold replacePeer
  cases hu : s.removeOld old with
  | none => exact .inl ⟨rfl, rfl⟩
  | some u =>
    refine .inr ⟨u, rfl, ?_⟩
    cases ha : Member.finds ans u.peers with
    | none => exact .inl ⟨rfl, by simp only [ha]⟩
    | some a =>
      refine .inr ⟨a, rfl, ?_⟩
      simp only [ha, addPeer_of_notMem (Member.finds_notMem ha)]

theorem Ok.replacePeer (h : s.Ok) (old : Option α) (ans : Answers α) (qp : QueuePair) :
    (s.replacePeer old ans qp).1.Ok := by
  rcases replacePeer_cases s old ans qp with ⟨-, hr⟩ | ⟨u, hu, ⟨-, hr⟩ | ⟨a, -, hr⟩⟩
  · rw [hr]
    exact h
  · rw [hr]
    exact h.removeOld hu
  · rw [hr]
    exact (h.removeOld hu).addPeer a qp ans.wexists

/-- The address that `replacePeer` returns has a connection. -/
theorem replacePeer_mem {old : Option α} {ans : Answers α} {qp : QueuePair} {a : α}
    (h : s.replacePeer old ans qp = (t, some a)) : a ∈ t.props := by
  rcases replacePeer_cases s old ans qp with ⟨-, hr⟩ | ⟨u, -, ⟨-, hr⟩ | ⟨b, hb, hr⟩⟩
  · simp [hr] at h
  · simp [hr] at h
  · rw [hr, addPeer_of_notMem (Member.finds_notMem hb), Prod.mk.injEq] at h
    obtain ⟨rfl, hret⟩ := h
    obtain ⟨-, hret⟩ := Option.ite_none_right_eq_some.mp hret
    exact Option.some.inj hret ▸ Finset.mem_insert_self b _

/-! ### Uses of `operator[]` -/

/-- With a key that is there `operator[]` changes nothing. -/
theorem index_of_mem {a : α} (ha : a ∈ s.props) : s.index a = s := if_pos ha

theorem foldl_index_of_mem {as : List α} (h : ∀ a ∈ as, a ∈ s.props) : as.foldl index s = s := by
  induction as with
  | nil => rfl
  | cons a as ih =>
    rw [List.foldl_cons, index_of_mem (h a List.mem_cons_self)]
    exact ih fun b hb => h b (List.mem_cons_of_mem _ hb)

theorem Ok.mem_props (h : s.Ok) {order : List α} (ho : Enumerates order s.peers) {a : α} (ha : a ∈ order) :
    a ∈ s.props := by
  rw [h.keys]
  exact (ho.mem_iff a).mp ha

theorem Ok.syncPeerAfterRecover (h : s.Ok) {order : List α} (ho : Enumerates order s.peers) (skip : Option α) :
    s.syncPeerAfterRecover order skip = s :=
  foldl_index_of_mem fun _ ha => h.mem_props ho (List.mem_filter.mp ha).1

/-- `TryRecover` names present keys only: the source is one of the peers that
replied, and the others are taken from `peers`. -/
theorem Ok.tryRecover (h : s.Ok) {replies : List (α × ServerResp)} {order : List α}
    (hr : Enumerates (replies.map Prod.fst) s.props) (ho : Enumerates order s.peers) :
    s.tryRecover replies order = s := by
  have hsrc : (if 0 < (recoverSrc replies).2 then (recoverSrc replies).1.elim s s.recoverFromSrc else s) = s := by
    split
    · rename_i hpos
      obtain ⟨a, ha, hmem⟩ := recoverSrc_mem hpos
      rw [ha]
      exact index_of_mem ((hr.mem_iff a).mp hmem)
    · rfl
  unfold Conns.tryRecover
  simp only [hsrc]
  exact h.syncPeerAfterRecover ho _

theorem Ok.tryLocalRecover (h : s.Ok) {order : List α} (ho : Enumerates order s.peers) (stSize : ℕ) :
    s.tryLocalRecover stSize order = s := by
  unfold Conns.tryLocalRecover
  split
  · exact foldl_index_of_mem fun _ ha => h.mem_props ho ha
  · rfl

/-- The peer that `ClientWatcher` recovers is the one that `replacePeer` has
just connected. -/
theorem clientWatcher_eq (s : Conns α) (ans : Answers α) (qp : QueuePair) (n : Notice α) :
    s.clientWatcher ans qp n = match n with
      | .deleted peer => (s.replacePeer (some peer) ans qp).1
      | .child => (s.replacePeer none ans qp).1
      | .created _ => s := by
  cases n with
  | deleted peer =>
    rcases hr : s.replacePeer (some peer) ans qp with ⟨t, _ | a⟩
    · simp only [clientWatcher, hr]
    · simp only [clientWatcher, hr]
      exact index_of_mem (replacePeer_mem hr)
  | created peer => rfl
  | child =>
    rcases hr : s.replacePeer none ans qp with ⟨t, _ | a⟩
    · simp only [clientWatcher, hr]
    · simp only [clientWatcher, hr]
      split
      · exact index_of_mem (replacePeer_mem hr)
      · rfl

theorem Ok.clientWatcher (h : s.Ok) (ans : Answers α) (qp : QueuePair) (n : Notice α) :
    (s.clientWatcher ans qp n).Ok := by
  rw [clientWatcher_eq]
  cases n with
  | deleted peer => exact h.replacePeer (some peer) ans qp
  | created peer => exact h
  | child => exact h.replacePeer none ans qp

theorem Ok.polled (h : s.Ok) (popped : α → ℕ) : (s.polled popped).Ok := by
  refine ⟨h.keys, fun a ha => ?_⟩
  obtain ⟨q, hq, hover⟩ := h.made a ha
  refine ⟨q, hq, ?_⟩
  have hcon : (s.polled popped).con a = { s.con a with opQueue := (s.con a).opQueue + 1 - popped a } := if_pos ha
  rw [hcon]
  exact hover

/-! ### Runs -/

theorem Ok.step (h : s.Ok) {e : Event α} (hs : s.step e = some t) : t.Ok := by
  cases e with
  | addPeer a qp wexists => exact Option.some.inj hs ▸ h.addPeer a qp wexists
  | replacePeer old ans qp => exact Option.some.inj hs ▸ h.replacePeer old ans qp
  | tryRecover replies order =>
    obtain ⟨⟨hr, ho⟩, hs⟩ := Option.ite_none_right_eq_some.mp hs
    rw [← Option.some.inj hs, h.tryRecover hr ho]
    exact h
  | tryLocalRecover stSize order =>
    obtain ⟨ho, hs⟩ := Option.ite_none_right_eq_some.mp hs
    rw [← Option.some.inj hs, h.tryLocalRecover ho]
    exact h
  | setFileInfo order =>
    obtain ⟨-, hs⟩ := Option.ite_none_right_eq_some.mp hs
    exact Option.some.inj hs ▸ h
  | sendFinalization order type =>
    obtain ⟨-, hs⟩ := Option.ite_none_right_eq_some.mp hs
    exact Option.some.inj hs ▸ h
  | reset order =>
    obtain ⟨-, hs⟩ := Option.ite_none_right_eq_some.mp hs
    exact Option.some.inj hs ▸ ⟨h.keys, h.made⟩
  | setInUse inUse => exact Option.some.inj hs ▸ ⟨h.keys, h.made⟩
  | writeQuorum popped =>
    obtain ⟨-, hs⟩ := Option.ite_none_right_eq_some.mp hs
    exact Option.some.inj hs ▸ h.polled popped
  | clientWatcher notice ans qp => exact Option.some.inj hs ▸ h.clientWatcher ans qp notice

theorem construct_ok (rep : ℕ) (hosts : List (α × QueuePair × Bool)) : (construct rep hosts).Ok := by
  suffices hall : ∀ (hs : List (α × QueuePair × Bool)) (s : Conns α), s.Ok →
      (hs.foldl (fun s h => (s.addPeer h.1 h.2.1 h.2.2).1) s).Ok from
    hall hosts _ ⟨rfl, fun a ha => absurd ha (Finset.notMem_empty a)⟩
  intro hs
  induction hs with
  | nil => exact fun s h => h
  | cons x hs ih => exact fun s h => ih _ (h.addPeer x.1 x.2.1 x.2.2)

theorem ok_of_reach {rep : ℕ} {hosts : List (α × QueuePair × Bool)} (hs : Trace.Reach step (construct rep hosts) s) :
    s.Ok :=
  hs.inv (construct_ok rep hosts) fun _ _ _ h he => h.step he

/-- Every request goes to the socket of a queue pair that was got for a peer. -/
theorem Ok.sends (h : s.Ok) {order : List α} (ho : Enumerates order s.props) (type : ReqType) {r : Option ℕ × ReqType}
    (hr : r ∈ s.setFileInfo order ++ s.sendFinalization order type) :
    ∃ a qp, (a, qp) ∈ s.obtained ∧ r.1 = some qp.remoteSocket := by
  rcases List.mem_append.mp hr with hr | hr
  · obtain ⟨a, ha, rfl⟩ := List.mem_map.mp hr
    obtain ⟨qp, hqp, hover⟩ := h.made a ((ho.mem_iff a).mp ha)
    exact ⟨a, qp, hqp, by rw [hover.1]; rfl⟩
  · unfold sendFinalization at hr
    split at hr
    · obtain ⟨a, ha, rfl⟩ := List.mem_map.mp hr
      obtain ⟨qp, hqp, hover⟩ := h.made a ((ho.mem_iff a).mp ha)
      exact ⟨a, qp, hqp, hover.2.2⟩
    · exact absurd hr List.not_mem_nil

/-! ### The membership of the watcher -/

/-- What `Member` keeps of the client. -/
def member (s : Conns α) : Member α := ⟨s.peers, s.props, s.repFactor, s.inUse⟩

theorem addPeer_member (s : Conns α) (a : α) (qp : QueuePair) (wexists : Bool) :
    s.member.addPeer a wexists = ((s.addPeer a qp wexists).1.member, (s.addPeer a qp wexists).2) := by
  unfold Member.addPeer addPeer
  change (if a ∈ s.peers then _ else _) = _
  split <;> rfl

theorem removeOld_member (s : Conns α) (old : Option α) :
    s.member.removeOld old = (s.removeOld old).map member := by
  cases old with
  | none => rfl
  | some a =>
    change (if a ∈ s.props then _ else _) = (if a ∈ s.props then some (s.erase a) else none).map member
    split <;> rfl

theorem replacePeer_member (s : Conns α) (old : Option α) (ans : Answers α) (qp : QueuePair) :
    s.member.replacePeer old ans = ((s.replacePeer old ans qp).1.member, (s.replacePeer old ans qp).2) := by
  rcases replacePeer_cases s old ans qp with ⟨hu, hr⟩ | ⟨u, hu, hr⟩
  · rw [hr, Member.replacePeer, removeOld_member, hu]
    rfl
  · have hmem : s.member.removeOld old = some u.member := by
      rw [removeOld_member, hu]
      rfl
    rcases hr with ⟨hf, hr⟩ | ⟨a, hf, hr⟩ <;>
      rcases Member.replacePeer_cases s.member ans old hmem with ⟨hf', hr'⟩ | ⟨b, hf', hr'⟩
    · rw [hr, hr']
    · exact absurd (hf.symm.trans hf') (by simp)
    · exact absurd (hf.symm.trans hf') (by simp)
    · obtain rfl : a = b := Option.some.inj (hf.symm.trans hf')
      rw [hr, hr', addPeer_of_notMem (Member.finds_notMem hf)]
      rfl

/-- A callback does to the membership what `Member.clientWatcher` says. -/
theorem clientWatcher_member (s : Conns α) (ans : Answers α) (qp : QueuePair) (n : Notice α) :
    (s.member.clientWatcher ans n).1 = (s.clientWatcher ans qp n).member := by
  rw [clientWatcher_eq]
  cases n with
  | deleted peer =>
    have hr := replacePeer_member s (some peer) ans qp
    cases hret : (s.replacePeer (some peer) ans qp).2 <;> simp only [Member.clientWatcher, hr, hret]
  | created peer => rfl
  | child =>
    have hr := replacePeer_member s none ans qp
    cases hret : (s.replacePeer none ans qp).2 <;> simp only [Member.clientWatcher, hr, hret]

/-- **One membership.** In every state after the construction the keys of
`remote_props` are `peers`, and every connection has a queue pair, which an
`AddPeer` got for its key. -/
theorem members_connected {rep : ℕ} {hosts : List (α × QueuePair × Bool)} {s : Conns α}
    (hs : Trace.Reach step (construct rep hosts) s) :
    s.props = s.peers ∧ ∀ a ∈ s.props, ∃ qp, (s.con a).qp = some qp ∧ (a, qp) ∈ s.obtained := by
  have hok := ok_of_reach hs
  refine ⟨hok.keys, fun a ha => ?_⟩
  obtain ⟨qp, hqp, hover⟩ := hok.made a ha
  exact ⟨qp, hover.1, hqp⟩

/-- Two peers, of which the second is recovered from and then replaced. -/
theorem members_connected_two : ∃ s : Conns ℕ,
    Trace.Reach step (construct 2 [(1, ⟨11, 21, 31⟩, true), (2, ⟨12, 22, 32⟩, false)]) s ∧ s.peers = {1, 3} ∧
    s.props = s.peers ∧ ∀ a ∈ s.props, ∃ qp, (s.con a).qp = some qp ∧ (a, qp) ∈ s.obtained := by
  have hrun : ∃ s : Conns ℕ,
      Trace.Reach step (construct 2 [(1, ⟨11, 21, 31⟩, true), (2, ⟨12, 22, 32⟩, false)]) s ∧ s.peers = {1, 3} :=
    Trace.exists_reach_of_exec
      [.tryRecover [(2, ⟨40, 7⟩), (1, ⟨40, 8⟩)] [1, 2], .setInUse true, .writeQuorum fun _ => 1,
        .clientWatcher (.deleted 2) ⟨some [1, 3], true⟩ ⟨13, 23, 33⟩, .reset [3, 1]] (by decide)
  obtain ⟨s, hs, hp⟩ := hrun
  exact ⟨s, hs, hp, members_connected hs⟩

end Conns
end ComputeSideLog
