/-
# The server's main loop

`CSLServer::Run` (`src/rdma/server.cc`) selects on the listening socket and on
the sockets of `existing_qps`, accepts at most one connection, and then goes
over `existing_qps` and calls `handleClientRequest` on each socket that
`select` reported, which it erases from the map when the call returned 0. A
connection that was just accepted is in the map but not in `fds`; a
connection that the new one replaces is in `fds` but no longer in the map.

`Loop` is `Run` with its local `fds`, the bytes that wait at each socket, and,
as a record for the statements, what arrived at each connection and what was
read from it. `recv` on a socket where nothing waits blocks the server for
good (`blocked`). The iteration order of the map is a choice of each round, and
`waitIncomingConnection` is one step.

A round is a list of events of the machine in `Replies.lean`
(`Loop.roundEvents`), so what holds there in every order of events holds of
`Run`. The messages of a connection are read in the order they came, one a
round, and `recv` never blocks.

Key definitions: `Received`, `Loop`, `Loop.visit`, `Loop.round`, `Loop.step`.
Key theorems: `Loop.round_other`, `Loop.served_in_order`,
`Loop.rounds_serve`, `Loop.run_refines_events`.
-/
import ComputeSideLog.Lib.Trace
import ComputeSideLog.QpPool
import ComputeSideLog.Replies
import ComputeSideLog.Survive

namespace ComputeSideLog

/-- What one `recv` gives: a request, 0 at the end of the connection, or -1. A
short read is a request with whatever was in `req` before. -/
inductive Received (F : Type*) where
  | request (req : ClientReq F)
  | closed
  | failed

/-- A connection that waits at the listening socket. `addr` is the address of a
region if one is created. -/
structure Incoming (F : Type*) where
  addr : ℕ
  socket : ℕ
  fileId : F
  size : ℕ

/-- `CSLServer::Run`. `inbox` is what waits at a socket, and its connection so far
had `arrived`, of which `handled` was read. -/
structure Loop (F : Type*) where
  server : Server F
  fds : ℕ → Bool
  inbox : ℕ → List (Received F)
  arrived : ℕ → List (Received F)
  handled : ℕ → List (Received F)
  stop : Bool
  returned : Bool
  blocked : Bool

namespace Server

variable {F : Type*} [DecidableEq F]

/-- `handleClientRequest` after its `recv`. -/
def receive (s : Server F) (addr socket : ℕ) : Received F → Option (Handled F)
  | .request req => if s.pool.Unused addr then s.handleClientRequest addr socket req else none
  | .closed => some ⟨s, [], true⟩
  | .failed => some ⟨s, [], false⟩

end Server

/-- Nothing is read from a connection after this message. -/
def Received.last {F : Type*} : Received F → Bool
  | .request req => decide (req.type = .exitProc)
  | .closed => true
  | .failed => false

namespace Loop

variable {F : Type*}

/-- What a round of `Run` depends on besides its own state: whether `select` fails
or times out, and otherwise the connection that waits, the address for a
region that a request on a socket creates, and the order of the map. -/
inductive Select (F : Type*) where
  | error
  | timeout
  | ready (incoming : Option (Incoming F)) (addrs : ℕ → ℕ) (order : List ℕ)

/-- A message arrives at a socket, `Stop` is called, `select` returns. -/
inductive Event (F : Type*) where
  | arrive (socket : ℕ) (x : Received F)
  | stop
  | select (sel : Select F)

/-- `Run` is entered with a new server. -/
def init : Loop F := ⟨.init, fun _ => false, fun _ => [], fun _ => [], fun _ => [], false, false, false⟩

/-- The sockets that `select` reports: in the map, positive, and with something to
read. -/
def polled (l : Loop F) (socket : ℕ) : Bool :=
  decide (socket ∈ l.server.existingQps) && decide (0 < socket) && !(l.inbox socket).isEmpty

variable [DecidableEq F]

/-- The listening socket is reported: `handleIncomingConnection`. The socket is a
new one, with nothing read from it. -/
def accept (l : Loop F) (c : Incoming F) : Option (Loop F) :=
  if l.server.pool.Unused c.addr ∧ c.socket ∉ l.server.existingQps then
    (l.server.handleIncomingConnection c.addr c.socket c.fileId c.size).map fun r =>
      { l with
        server := r.server
        inbox := Function.update l.inbox c.socket []
        arrived := Function.update l.arrived c.socket []
        handled := Function.update l.handled c.socket [] }
  else none

/-- The body of the loop over `existing_qps`. -/
def visit (addr : ℕ) (l : Loop F) (socket : ℕ) : Option (Loop F) :=
  if 0 < socket ∧ l.fds socket = true then
    match l.inbox socket with
    | [] => some { l with blocked := true }
    | x :: rest => (l.server.receive addr socket x).map fun r =>
      { l with
        server := if r.dropped then r.server.drop socket else r.server
        fds := Function.update l.fds socket false
        inbox := Function.update l.inbox socket rest
        handled := Function.update l.handled socket (l.handled socket ++ [x]) }
  else some l

/-- The loop over `existing_qps`. -/
def visitAll (addrs : ℕ → ℕ) : List ℕ → Loop F → Option (Loop F)
  | [], l => some l
  | socket :: order, l => (l.visit (addrs socket) socket).bind (visitAll addrs order)

/-- The first half of a round: `fds` is filled, and a connection accepted. -/
def enter (l : Loop F) (incoming : Option (Incoming F)) : Option (Loop F) :=
  incoming.elim (some { l with fds := l.polled }) fun c => accept { l with fds := l.polled } c

/-- A round in which something is reported; the map is traversed in `order`. -/
def round (l : Loop F) (incoming : Option (Incoming F)) (addrs : ℕ → ℕ) (order : List ℕ) : Option (Loop F) :=
  (l.enter incoming).bind fun m =>
    if order.Perm m.server.existingQps then m.visitAll addrs order else none

/-- One event. A blocked `Run` does nothing any more. -/
def step (l : Loop F) : Event F → Option (Loop F)
  | .arrive socket x => some
      { l with
        inbox := Function.update l.inbox socket (l.inbox socket ++ [x])
        arrived := Function.update l.arrived socket (l.arrived socket ++ [x]) }
  | .stop => some { l with stop := true }
  | .select sel =>
    if l.stop = false ∧ l.returned = false ∧ l.blocked = false then
      match sel with
      | .error => some { l with returned := true }
      | .timeout => some l
      | .ready incoming addrs order => l.round incoming addrs order
    else none

/-- Two connections, a round that reads from both, and one that reads the end of the
first while a third comes in and takes the file of the second. -/
def twoClients : List (Event ℕ) :=
  [.select (.ready (some ⟨0, 5, 7, 16⟩) (fun _ => 1) [5]), .select (.ready (some ⟨1, 6, 8, 16⟩) (fun _ => 2) [6, 5]),
    .arrive 5 (.request ⟨.getInfo, 7, 0⟩), .arrive 6 (.request ⟨.closeFile, 8, 0⟩), .arrive 5 .closed,
    .arrive 6 (.request ⟨.openFile, 9, 16⟩), .select (.ready none (fun _ => 2) [5, 6]),
    .select (.ready (some ⟨2, 7, 9, 16⟩) (fun _ => 3) [7, 6, 5])]

/-! ### One socket -/

variable {l m : Loop F} {addr socket : ℕ}

/-- What the body of the loop can do: nothing, block, or handle one message. -/
theorem visit_cases (h : l.visit addr socket = some m) :
    (¬ (0 < socket ∧ l.fds socket = true) ∧ m = l) ∨
      ((0 < socket ∧ l.fds socket = true) ∧ l.inbox socket = [] ∧ m = { l with blocked := true }) ∨
      ∃ x rest r, (0 < socket ∧ l.fds socket = true) ∧ l.inbox socket = x :: rest ∧
        l.server.receive addr socket x = some r ∧
        m = { l with
          server := if r.dropped then r.server.drop socket else r.server
          fds := Function.update l.fds socket false
          inbox := Function.update l.inbox socket rest
          handled := Function.update l.handled socket (l.handled socket ++ [x]) } := by
  unfold Loop.visit at h
  split at h
  · rename_i hset
    cases hin : l.inbox socket with
    | nil =>
      rw [hin] at h
      exact .inr (.inl ⟨hset, rfl, (Option.some.inj h).symm⟩)
    | cons x rest =>
      rw [hin] at h
      obtain ⟨r, hr, rfl⟩ := Option.map_eq_some_iff.mp h
      exact .inr (.inr ⟨x, rest, r, hset, rfl, hr, rfl⟩)
  · rename_i hset
    exact .inl ⟨hset, (Option.some.inj h).symm⟩

/-- What was read and what waits make up what arrived. -/
def Fifo (l : Loop F) : Prop := ∀ k, l.handled k ++ l.inbox k = l.arrived k

/-- `select` reported only sockets where something waits. -/
def Ready (l : Loop F) : Prop := ∀ k, l.fds k = true → l.inbox k ≠ []

/-- What is left of a list after one was taken, or the list. -/
def served {α : Type*} (b : Bool) (waiting : List α) : List α × List α :=
  if b then (waiting.take 1, waiting.drop 1) else ([], waiting)

/-- The pass does not block, and every reported socket of the list is read once. -/
theorem visitAll_spec {addrs : ℕ → ℕ} {order : List ℕ} (h : l.visitAll addrs order = some m) (hready : l.Ready) :
    m.blocked = l.blocked ∧ m.arrived = l.arrived ∧ m.stop = l.stop ∧ m.returned = l.returned ∧
      ∀ k, let b := decide (0 < k) && l.fds k && decide (k ∈ order)
        m.handled k = l.handled k ++ (served b (l.inbox k)).1 ∧ m.inbox k = (served b (l.inbox k)).2 := by
  induction order generalizing l with
  | nil =>
    cases h
    exact ⟨rfl, rfl, rfl, rfl, fun k => by simp [served]⟩
  | cons socket order ih =>
    obtain ⟨l', hl', hrest⟩ := Option.bind_eq_some_iff.mp h
    rcases visit_cases hl' with ⟨hset, rfl⟩ | ⟨hset, hnil, -⟩ | ⟨x, rest, r, hset, hin, -, rfl⟩
    · obtain ⟨hb, ha, hs, hr, hk⟩ := ih hrest hready
      refine ⟨hb, ha, hs, hr, fun k => ?_⟩
      by_cases hks : k = socket
      · have hoff : (decide (0 < socket) && l'.fds socket) = false := by simpa using hset
        simpa [hks, hoff] using hk socket
      · simpa [hks] using hk k
    · exact absurd hnil (hready socket hset.2)
    · obtain ⟨hb, ha, hs, hr, hk⟩ := ih hrest fun k hk => by
        by_cases hks : k = socket
        · simp [hks] at hk
        · simp only [Function.update_of_ne hks] at hk ⊢
          exact hready k hk
      refine ⟨hb, ha, hs, hr, fun k => ?_⟩
      by_cases hks : k = socket
      · -- its bit is cleared, so it is not read again
        subst hks
        simpa [served, hset.1, hset.2, hin] using hk k
      · simpa [hks] using hk k

/-- The map after the body of the loop: the socket leaves it after the last message
of its connection. -/
theorem qps_receive {s : Server F} {x : Received F} {r : Handled F} (h : s.receive addr socket x = some r) :
    (if r.dropped then r.server.drop socket else r.server).existingQps =
      if x.last then s.existingQps.erase socket else s.existingQps := by
  cases x with
  | closed =>
    cases h
    rfl
  | failed =>
    cases h
    rfl
  | request req =>
    simp only [Server.receive, Option.ite_none_right_eq_some] at h
    obtain ⟨hqps, hdrop⟩ := Server.existingQps_request h.2
    by_cases hexit : req.type = .exitProc
    · have hr : r = ⟨s, [], decide (socket ∈ s.existingQps)⟩ := by
        have h2 := h.2
        simp only [Server.handleClientRequest, hexit, Option.some.injEq] at h2
        exact h2.symm
      by_cases hmem : socket ∈ s.existingQps
      · simp [hr, hmem, Received.last, hexit, Server.drop]
      · simp [hr, hmem, Received.last, hexit, List.erase_of_not_mem hmem]
    · have hno : r.dropped = false := by
        rw [← Bool.not_eq_true]
        exact fun hd => hexit (hdrop hd)
      simp [hno, Received.last, hexit, hqps]

/-- The map after the pass. -/
theorem visitAll_qps {addrs : ℕ → ℕ} {order : List ℕ} (h : l.visitAll addrs order = some m)
    (hnodup : l.server.existingQps.Nodup) :
    m.server.existingQps.Nodup ∧ ∀ k, k ∈ m.server.existingQps ↔ k ∈ l.server.existingQps ∧
      ¬ (0 < k ∧ l.fds k = true ∧ k ∈ order ∧ ∃ x ∈ (l.inbox k).head?, x.last = true) := by
  induction order generalizing l with
  | nil =>
    cases h
    exact ⟨hnodup, fun k => by simp⟩
  | cons socket order ih =>
    obtain ⟨l', hl', hrest⟩ := Option.bind_eq_some_iff.mp h
    rcases visit_cases hl' with ⟨hset, rfl⟩ | ⟨hset, hnil, rfl⟩ | ⟨x, rest, r, hset, hin, hr, rfl⟩
    · obtain ⟨hnd, hmem⟩ := ih hrest hnodup
      refine ⟨hnd, fun k => (hmem k).trans (and_congr_right fun _ => not_congr ?_)⟩
      simp only [List.mem_cons]
      refine ⟨fun ⟨h0, hf, ho, hx⟩ => ⟨h0, hf, .inr ho, hx⟩, fun ⟨h0, hf, ho, hx⟩ => ⟨h0, hf, ?_, hx⟩⟩
      exact ho.resolve_left fun hk => hset (hk ▸ ⟨h0, hf⟩)
    · obtain ⟨hnd, hmem⟩ := ih hrest hnodup
      refine ⟨hnd, fun k => (hmem k).trans (and_congr_right fun _ => not_congr ?_)⟩
      simp only [List.mem_cons]
      refine ⟨fun ⟨h0, hf, ho, hx⟩ => ⟨h0, hf, .inr ho, hx⟩, fun ⟨h0, hf, ho, hx⟩ => ⟨h0, hf, ?_, hx⟩⟩
      refine ho.resolve_left ?_
      rintro rfl
      simp [hnil] at hx
    · have hqps := qps_receive hr
      have hnd' : (if x.last then l.server.existingQps.erase socket else l.server.existingQps).Nodup := by
        split
        · exact hnodup.erase socket
        · exact hnodup
      obtain ⟨hnd, hmem⟩ := ih hrest (hqps ▸ hnd')
      refine ⟨hnd, fun k => (hmem k).trans ?_⟩
      simp only [hqps]
      by_cases hks : k = socket
      · -- its bit is cleared, so only its one message counts
        subst hks
        by_cases hx : x.last = true
        · simp [hx, hin, hset.1, hset.2, hnodup.not_mem_erase]
        · simp [hx, hin]
      · by_cases hx : x.last = true
        · simp [hx, hks, List.mem_erase_of_ne hks]
        · simp [hx, hks]

/-! ### One round -/

/-- A new connection for the file takes the place of this one. -/
def Replaces (l : Loop F) (c : Incoming F) (k : ℕ) : Prop :=
  (l.server.localCons c.fileId).map LocalConData.qp = some k

instance (l : Loop F) (c : Incoming F) (k : ℕ) : Decidable (l.Replaces c k) :=
  inferInstanceAs (Decidable (_ = _))

/-- The state `l'` after the first half of a round from `l`: the new connection is
in the map and not in `fds`, the one that it replaces is in `fds` only. -/
structure Entered (l : Loop F) (incoming : Option (Incoming F)) (l' : Loop F) : Prop where
  ready : l'.Ready
  blocked : l'.blocked = l.blocked
  nodup : l'.server.existingQps.Nodup
  fresh : ∀ c ∈ incoming, c.socket ∉ l.server.existingQps ∧ c.socket ∈ l'.server.existingQps ∧
    l'.fds c.socket = false ∧ l'.inbox c.socket = [] ∧ l'.handled c.socket = [] ∧ l'.arrived c.socket = []
  others : ∀ k, (∀ c ∈ incoming, k ≠ c.socket) → l'.fds k = l.polled k ∧ l'.inbox k = l.inbox k ∧
    l'.handled k = l.handled k ∧ l'.arrived k = l.arrived k ∧
    (k ∈ l'.server.existingQps ↔ k ∈ l.server.existingQps ∧ ∀ c ∈ incoming, ¬ l.Replaces c k)

omit [DecidableEq F] in
theorem waiting_of_polled {k : ℕ} (h : l.polled k = true) :
    k ∈ l.server.existingQps ∧ 0 < k ∧ l.inbox k ≠ [] := by
  simp only [Loop.polled, Bool.and_eq_true, decide_eq_true_eq, Bool.not_eq_true', List.isEmpty_eq_false_iff] at h
  exact ⟨h.1.1, h.1.2, h.2⟩

/-- The map after a connection: its socket comes, that of the file's entry goes. -/
theorem qps_incoming {s : Server F} {size : ℕ} {fileId : F} {r : Handled F}
    (h : s.handleIncomingConnection addr socket fileId size = some r) (hnodup : s.existingQps.Nodup) :
    r.server.existingQps.Nodup ∧ ∀ k, k ∈ r.server.existingQps ↔
      k = socket ∨ k ∈ s.existingQps ∧ (s.localCons fileId).map LocalConData.qp ≠ some k := by
  unfold Server.handleIncomingConnection at h
  split at h
  · rename_i hf
    split at h
    · cases h
    · cases h
      refine ⟨hnodup.insert, fun k => ?_⟩
      simp [Server.bind, Server.setCon, hf]
  · rename_i con hf
    split at h
    · cases h
    · cases h
      refine ⟨(hnodup.erase _).insert, fun k => ?_⟩
      simp [Server.setCon, hf, hnodup.mem_erase_iff, and_comm, eq_comm]

theorem entered {l' : Loop F} {incoming : Option (Incoming F)} (h : l.enter incoming = some l')
    (hnodup : l.server.existingQps.Nodup) : l.Entered incoming l' := by
  have hready : ∀ k, l.polled k = true → l.inbox k ≠ [] := fun k hk => (waiting_of_polled hk).2.2
  cases incoming with
  | none =>
    cases h
    exact ⟨hready, rfl, hnodup, fun c hc => absurd hc (by simp), fun k _ => ⟨rfl, rfl, rfl, rfl, by simp⟩⟩
  | some c =>
    change accept { l with fds := l.polled } c = some l' at h
    simp only [Loop.accept, Option.ite_none_right_eq_some, Option.map_eq_some_iff] at h
    obtain ⟨⟨-, hnew⟩, r, hr, rfl⟩ := h
    obtain ⟨hnd, hqps⟩ := qps_incoming hr hnodup
    have hoff : l.polled c.socket = false := by
      rw [← Bool.not_eq_true]
      exact fun hp => hnew (waiting_of_polled hp).1
    refine ⟨fun k hk => ?_, rfl, hnd, fun c' hc' => ?_, fun k hk => ?_⟩
    · have hne : k ≠ c.socket := by
        rintro rfl
        exact absurd (hoff.symm.trans hk) (by simp)
      simp only [Function.update_of_ne hne]
      exact hready k hk
    · obtain rfl := Option.some.inj hc'
      exact ⟨hnew, (hqps _).mpr (.inl rfl), hoff, Function.update_self .., Function.update_self ..,
        Function.update_self ..⟩
    · have hne : k ≠ c.socket := hk c rfl
      refine ⟨rfl, Function.update_of_ne hne .., Function.update_of_ne hne .., Function.update_of_ne hne .., ?_⟩
      simp [hqps, hne, Replaces]

/-- The two halves of a round. -/
theorem round_cases {incoming : Option (Incoming F)} {addrs : ℕ → ℕ} {order : List ℕ}
    (h : l.round incoming addrs order = some m) :
    ∃ l', l.enter incoming = some l' ∧ order.Perm l'.server.existingQps ∧ l'.visitAll addrs order = some m := by
  obtain ⟨l', hl', hrest⟩ := Option.bind_eq_some_iff.mp h
  exact ⟨l', hl', Option.ite_none_right_eq_some.mp hrest⟩

/-- **A round**, for a connection that did not come in it: if `select` reported the
socket and the connection was not replaced, its first message is read, and
otherwise none; and it leaves the map if it was replaced or if that message
is the last one. -/
theorem round_other {incoming : Option (Incoming F)} {addrs : ℕ → ℕ} {order : List ℕ}
    (h : l.round incoming addrs order = some m) (hnodup : l.server.existingQps.Nodup) {k : ℕ}
    (hk : ∀ c ∈ incoming, k ≠ c.socket) :
    let b := l.polled k && decide (∀ c ∈ incoming, ¬ l.Replaces c k)
    m.handled k = l.handled k ++ (served b (l.inbox k)).1 ∧ m.inbox k = (served b (l.inbox k)).2 ∧
      m.arrived k = l.arrived k ∧
      (k ∈ m.server.existingQps ↔ k ∈ l.server.existingQps ∧ (∀ c ∈ incoming, ¬ l.Replaces c k) ∧
        ¬ (0 < k ∧ ∃ x ∈ (l.inbox k).head?, x.last = true)) := by
  obtain ⟨l', hl', hperm, hv⟩ := round_cases h
  have he := entered hl' hnodup
  obtain ⟨hf, hi, hh, ha, hmem⟩ := he.others k hk
  obtain ⟨-, harr, -, -, hspec⟩ := visitAll_spec hv he.ready
  obtain ⟨-, hqps⟩ := visitAll_qps hv he.nodup
  have hb : (decide (0 < k) && l'.fds k && decide (k ∈ order)) =
      (l.polled k && decide (∀ c ∈ incoming, ¬ l.Replaces c k)) := by
    rw [hf, Bool.eq_iff_iff]
    simp only [Bool.and_eq_true, decide_eq_true_eq, hperm.mem_iff, hmem]
    exact ⟨fun ⟨⟨_, hp⟩, _, hr⟩ => ⟨hp, hr⟩,
      fun ⟨hp, hr⟩ => ⟨⟨(waiting_of_polled hp).2.1, hp⟩, (waiting_of_polled hp).1, hr⟩⟩
  refine ⟨?_, ?_, ?_, ?_⟩
  · rw [(hspec k).1, hb, hh, hi]
  · rw [(hspec k).2, hb, hi]
  · rw [harr, ha]
  · rw [hqps k, hmem, hi, hf, hperm.mem_iff, hmem, and_assoc]
    refine and_congr_right fun hin => and_congr_right fun hr => not_congr ?_
    refine ⟨fun ⟨h0, _, _, hx⟩ => ⟨h0, hx⟩, fun ⟨h0, x, hx, hlast⟩ => ⟨h0, ?_, ⟨hin, hr⟩, x, hx, hlast⟩⟩
    have hne : l.inbox k ≠ [] := by
      rintro hnil
      simp [hnil] at hx
    simp [Loop.polled, hin, h0, hne]

/-- The connection that came in the round has not been read. -/
theorem round_new {c : Incoming F} {addrs : ℕ → ℕ} {order : List ℕ}
    (h : l.round (some c) addrs order = some m) (hnodup : l.server.existingQps.Nodup) :
    m.handled c.socket = [] ∧ m.inbox c.socket = [] ∧ m.arrived c.socket = [] := by
  obtain ⟨l', hl', -, hv⟩ := round_cases h
  have he := entered hl' hnodup
  obtain ⟨-, -, hf, hi, hh, ha⟩ := he.fresh c rfl
  obtain ⟨-, harr, -, -, hspec⟩ := visitAll_spec hv he.ready
  refine ⟨?_, ?_, ?_⟩
  · rw [(hspec _).1, hf, hh]
    simp [served]
  · rw [(hspec _).2, hf, hi]
    simp [served]
  · rw [harr, ha]

/-! ### Every run -/

/-- What holds between two events: `Run` does not wait in `recv`, the messages of a
connection are read in order, and none after the last. -/
structure Inv (l : Loop F) : Prop where
  blocked : l.blocked = false
  nodup : l.server.existingQps.Nodup
  fifo : l.Fifo
  going : ∀ k ∈ l.server.existingQps, ∀ x ∈ l.handled k, x.last = false
  ended : ∀ k, ∀ x ∈ (l.handled k).dropLast, x.last = false

omit [DecidableEq F] in
theorem inv_init : (init : Loop F).Inv :=
  ⟨rfl, List.nodup_nil, fun _ => rfl, fun _ hk => absurd hk List.not_mem_nil,
    fun _ _ hx => absurd hx List.not_mem_nil⟩

/-- What one connection looks like after a round. -/
theorem Inv.other (h : l.Inv) {incoming : Option (Incoming F)} {addrs : ℕ → ℕ} {order : List ℕ}
    (hr : l.round incoming addrs order = some m) {k : ℕ} (hk : ∀ c ∈ incoming, k ≠ c.socket) :
    m.handled k ++ m.inbox k = m.arrived k ∧ (k ∈ m.server.existingQps → ∀ x ∈ m.handled k, x.last = false) ∧
      ∀ x ∈ (m.handled k).dropLast, x.last = false := by
  obtain ⟨hh, hi, ha, hmem⟩ := round_other hr h.nodup hk
  rw [hh, hi, ha]
  cases hb : l.polled k && decide (∀ c ∈ incoming, ¬ l.Replaces c k) with
  | false =>
    simp only [served, Bool.false_eq_true, ↓reduceIte, List.append_nil]
    exact ⟨h.fifo k, fun hin => h.going k (hmem.mp hin).1, h.ended k⟩
  | true =>
    obtain ⟨hin, hpos, hne⟩ := waiting_of_polled (Bool.and_eq_true_iff.mp hb).1
    obtain ⟨x, rest, hx⟩ := List.exists_cons_of_ne_nil hne
    have hgoing := h.going k hin
    simp only [served, ↓reduceIte, hx, List.take_succ_cons, List.take_zero, List.drop_succ_cons, List.drop_zero]
    refine ⟨?_, fun hin' y hy => ?_, fun y hy => ?_⟩
    · calc l.handled k ++ [x] ++ rest = l.handled k ++ l.inbox k := by rw [hx, List.append_assoc]; rfl
        _ = l.arrived k := h.fifo k
    · rcases List.mem_append.mp hy with hy | hy
      · exact hgoing y hy
      · have hlast := (hmem.mp hin').2.2
        rw [List.mem_singleton.mp hy, ← Bool.not_eq_true]
        exact fun hl => hlast ⟨hpos, x, by rw [hx]; rfl, hl⟩
    · rw [List.dropLast_concat] at hy
      exact hgoing y hy

theorem Inv.round (h : l.Inv) {incoming : Option (Incoming F)} {addrs : ℕ → ℕ} {order : List ℕ}
    (hr : l.round incoming addrs order = some m) : m.Inv := by
  obtain ⟨l', hl', -, hv⟩ := round_cases hr
  have he := entered hl' h.nodup
  have hblocked : m.blocked = false := by rw [(visitAll_spec hv he.ready).1, he.blocked, h.blocked]
  have hnodup := (visitAll_qps hv he.nodup).1
  -- one connection at a time: it came in this round or it did not
  have hall : ∀ k, m.handled k ++ m.inbox k = m.arrived k ∧
      (k ∈ m.server.existingQps → ∀ x ∈ m.handled k, x.last = false) ∧
      ∀ x ∈ (m.handled k).dropLast, x.last = false := by
    intro k
    by_cases hk : ∀ c ∈ incoming, k ≠ c.socket
    · exact h.other hr hk
    · obtain ⟨c, rfl, rfl⟩ : ∃ c, incoming = some c ∧ k = c.socket := by
        simpa only [Option.mem_def, not_forall, Decidable.not_not, exists_prop] using hk
      obtain ⟨hh, hi, ha⟩ := round_new hr h.nodup
      simp [hh, hi, ha]
  exact ⟨hblocked, hnodup, fun k => (hall k).1, fun k hk => (hall k).2.1 hk, fun k => (hall k).2.2⟩

theorem Inv.step (h : l.Inv) {e : Event F} (hs : l.step e = some m) : m.Inv := by
  cases e with
  | arrive socket x =>
    cases hs
    refine ⟨h.blocked, h.nodup, fun k => ?_, h.going, h.ended⟩
    by_cases hk : k = socket
    · simp only [hk, Function.update_self]
      rw [← List.append_assoc, h.fifo socket]
    · simp only [Function.update_of_ne hk]
      exact h.fifo k
  | stop =>
    cases hs
    exact ⟨h.blocked, h.nodup, h.fifo, h.going, h.ended⟩
  | select sel =>
    simp only [Loop.step, Option.ite_none_right_eq_some] at hs
    cases sel with
    | error =>
      cases hs.2
      exact ⟨h.blocked, h.nodup, h.fifo, h.going, h.ended⟩
    | timeout =>
      cases hs.2
      exact h
    | ready incoming addrs order => exact h.round hs.2

/-- **Served in order.** In every run the main loop never waits in `recv` for one
client while others wait for it, what it read from a connection is what arrived
there so far less what still waits, and it reads nothing more after an
`EXIT_PROC` or the end of the connection. -/
theorem served_in_order (l : Loop F) (hl : Trace.Reach step init l) :
    l.blocked = false ∧ l.Fifo ∧ ∀ k, ∀ x ∈ (l.handled k).dropLast, x.last = false := by
  have h : l.Inv := hl.inv inv_init fun _ _ _ hi hs => hi.step hs
  exact ⟨h.blocked, h.fifo, h.ended⟩

theorem served_in_order_two : ∃ l : Loop ℕ, Trace.Reach step init l ∧ (l.handled 5).length = 2 ∧
    l.blocked = false ∧ l.Fifo := by
  obtain ⟨l, hl, hp⟩ : ∃ l : Loop ℕ, Trace.Reach step init l ∧ (l.handled 5).length = 2 :=
    Trace.exists_reach_of_exec twoClients (by decide)
  obtain ⟨hb, hf, -⟩ := served_in_order l hl
  exact ⟨l, hl, hp, hb, hf⟩

/-- The event leaves a connection alone: no connection of this round replaces it. -/
def Spares (k : ℕ) (l : Loop F) : Event F → Prop
  | .select (.ready incoming _ _) => ∀ c ∈ incoming, ¬ l.Replaces c k
  | _ => True

instance (k : ℕ) (l : Loop F) : ∀ e, Decidable (Spares k l e)
  | .arrive .. => instDecidableTrue
  | .stop => instDecidableTrue
  | .select .error => instDecidableTrue
  | .select .timeout => instDecidableTrue
  | .select (.ready incoming _ _) => inferInstanceAs (Decidable (∀ c ∈ incoming, ¬ l.Replaces c k))

/-- The rounds in which `select` reported something. -/
def Event.isReady : Event F → Bool
  | .select (.ready ..) => true
  | _ => false

/-- One round reads the first of the messages that wait. -/
theorem Inv.round_waiting (h : l.Inv) {incoming : Option (Incoming F)} {addrs : ℕ → ℕ} {order : List ℕ}
    (hr : l.round incoming addrs order = some m) {k : ℕ} (hpos : 0 < k) (hin : k ∈ l.server.existingQps)
    (hspare : ∀ c ∈ incoming, ¬ l.Replaces c k) {x : Received F} {rest : List (Received F)}
    (hx : l.inbox k = x :: rest) (hlast : x.last = false) :
    m.handled k = l.handled k ++ [x] ∧ m.inbox k = rest ∧ k ∈ m.server.existingQps := by
  obtain ⟨l', hl', -, -⟩ := round_cases hr
  have hk : ∀ c ∈ incoming, k ≠ c.socket := fun c hc hks => ((entered hl' h.nodup).fresh c hc).1 (hks ▸ hin)
  obtain ⟨hh, hi, -, hmem⟩ := round_other hr h.nodup hk
  have hb : (l.polled k && decide (∀ c ∈ incoming, ¬ l.Replaces c k)) = true := by
    simp [Loop.polled, hin, hpos, hx]
    simpa using hspare
  rw [hb] at hh hi
  refine ⟨by rw [hh, hx]; rfl, by rw [hi, hx]; rfl, hmem.mpr ⟨hin, hspare, ?_⟩⟩
  rintro ⟨-, y, hy, hl⟩
  obtain rfl : x = y := by simpa [hx] using hy
  exact absurd (hlast.symm.trans hl) (by simp)

/-- **No connection starves.** Whatever else arrives and is served, `n` rounds read
exactly the next `n` messages of a connection that has them, as long as none of
them is the last and no new connection for its file replaces it. -/
theorem rounds_serve {l m : Loop F} (hl : Trace.Reach step init l) {k : ℕ} (hpos : 0 < k)
    (hin : k ∈ l.server.existingQps) {es : List (Event F)}
    (h : Trace.exec (Trace.restrict (Spares k) step) l es = some m)
    (hlen : es.countP Event.isReady ≤ (l.inbox k).length)
    (hlast : ∀ x ∈ (l.inbox k).take (es.countP Event.isReady), x.last = false) :
    m.handled k = l.handled k ++ (l.inbox k).take (es.countP Event.isReady) ∧ k ∈ m.server.existingQps := by
  induction es generalizing l with
  | nil =>
    cases h
    exact ⟨by simp, hin⟩
  | cons e es ih =>
    obtain ⟨l', hstep, hrest⟩ := Option.bind_eq_some_iff.mp h
    obtain ⟨hspare, hs⟩ := Trace.restrict_eq_some.mp hstep
    have hl' := hl.next e hs
    have hinv : l.Inv := hl.inv inv_init fun _ _ _ hi hs => hi.step hs
    -- an event that is no such round leaves what waits where it is
    have hidle : Event.isReady e = false → l'.handled k = l.handled k → l'.server = l.server →
        l.inbox k <+: l'.inbox k → m.handled k = l.handled k ++ (l.inbox k).take ((e :: es).countP Event.isReady) ∧
          k ∈ m.server.existingQps := by
      rintro he hh hsv ⟨more, hmore⟩
      have hcount : (e :: es).countP Event.isReady = es.countP Event.isReady :=
        List.countP_cons_of_neg (by simp [he])
      rw [hcount] at hlen hlast ⊢
      have htake : (l'.inbox k).take (es.countP Event.isReady) = (l.inbox k).take (es.countP Event.isReady) := by
        rw [← hmore, List.take_append_of_le_length hlen]
      have hlen' : es.countP Event.isReady ≤ (l'.inbox k).length := by
        rw [← hmore, List.length_append]
        omega
      obtain ⟨hm, hmem⟩ := ih hl' (hsv ▸ hin) hrest hlen' (by rw [htake]; exact hlast)
      exact ⟨by rw [hm, hh, htake], hmem⟩
    cases e with
    | arrive socket x =>
      cases hs
      refine hidle rfl rfl rfl ?_
      by_cases hk : k = socket
      · simp [hk]
      · simp [Function.update_of_ne hk]
    | stop =>
      cases hs
      exact hidle rfl rfl rfl List.prefix_rfl
    | select sel =>
      simp only [Loop.step, Option.ite_none_right_eq_some] at hs
      cases sel with
      | error =>
        cases hs.2
        exact hidle rfl rfl rfl List.prefix_rfl
      | timeout =>
        cases hs.2
        exact hidle rfl rfl rfl List.prefix_rfl
      | ready incoming addrs order =>
        have hcount : (Event.select (.ready incoming addrs order) :: es).countP Event.isReady =
            es.countP Event.isReady + 1 := List.countP_cons_of_pos rfl
        rw [hcount] at hlen hlast ⊢
        cases hx : l.inbox k with
        | nil =>
          rw [hx, List.length_nil] at hlen
          omega
        | cons x rest =>
          rw [hx] at hlen hlast
          simp only [List.take_succ_cons, List.mem_cons, forall_eq_or_imp] at hlast
          obtain ⟨hh, hi, hmem⟩ := hinv.round_waiting hs.2 hpos hin hspare hx hlast.1
          obtain ⟨hm, hmem'⟩ := ih hl' hmem hrest (by rw [hi]; simpa using hlen) (by rw [hi]; exact hlast.2)
          exact ⟨by rw [hm, hh, hi, List.take_succ_cons, List.append_assoc]; rfl, hmem'⟩

theorem rounds_serve_two : ∃ l m : Loop ℕ, Trace.Reach step init l ∧
    Trace.exec (Trace.restrict (Spares 6) step) l (twoClients.drop 6) = some m ∧
    m.handled 6 = l.handled 6 ++ (l.inbox 6).take 2 := by
  obtain ⟨l, hl, ⟨hin, hlen, hlast⟩, hrun⟩ : ∃ l : Loop ℕ, Trace.Reach step init l ∧
      ((6 ∈ l.server.existingQps ∧ 2 ≤ (l.inbox 6).length ∧ ∀ x ∈ (l.inbox 6).take 2, x.last = false) ∧
        (Trace.exec (Trace.restrict (Spares 6) step) l (twoClients.drop 6)).isSome = true) :=
    Trace.exists_reach_of_exec (twoClients.take 6) (by decide)
  obtain ⟨m, hm⟩ := Option.isSome_iff_exists.mp hrun
  exact ⟨l, m, hl, hm, (rounds_serve hl (by decide) hin hm hlen hlast).1⟩

/-! ### A round is a list of events -/

/-- The event that handling a message is. -/
def eventOf (addr socket : ℕ) : Received F → Option (Replies.Event F)
  | .request req => some (.request addr socket req)
  | .closed => some (.hangUp socket)
  | .failed => none

/-- What the pass handles on a socket. -/
def visitEvent (l : Loop F) (addr socket : ℕ) : Option (Replies.Event F) :=
  if 0 < socket ∧ l.fds socket = true then (l.inbox socket).head?.bind (eventOf addr socket) else none

/-- The events of a round: the connection, then the first message of each
connection that has one, in the order of the map. -/
def roundEvents (l : Loop F) (incoming : Option (Incoming F)) (addrs : ℕ → ℕ) (order : List ℕ) :
    List (Replies.Event F) :=
  (incoming.toList.map fun c => .connect c.addr c.socket c.fileId c.size) ++
    order.filterMap fun k => if l.polled k then (l.inbox k).head?.bind (eventOf (addrs k) k) else none

variable {u : Replies F}

/-- One message is one event. -/
theorem receive_sim {x : Received F} {r : Handled F} (hu : u.server = l.server)
    (hin : socket ∈ l.server.existingQps) (h : l.server.receive addr socket x = some r) :
    ∃ u', Trace.exec Replies.step u (eventOf addr socket x).toList = some u' ∧
      u'.server = if r.dropped then r.server.drop socket else r.server := by
  cases x with
  | closed =>
    cases h
    exact ⟨⟨u.server.drop socket, u.holder, none⟩, by simp [eventOf, Trace.exec, Replies.step, hu, hin, Server.drop],
      by rw [hu]; rfl⟩
  | failed =>
    cases h
    exact ⟨u, rfl, hu⟩
  | request req =>
    simp only [Server.receive, Option.ite_none_right_eq_some] at h
    have hstep : Replies.step u (.request addr socket req) =
        some ⟨{ r.server with
          existingQps := if r.dropped then r.server.existingQps.erase socket else r.server.existingQps },
          u.held socket req.fileId req.type, some ⟨socket, req, r.sent⟩⟩ := by
      simp only [Replies.step, hu, h.1, hin, and_self, ↓reduceIte, h.2, Option.map_some]
    refine ⟨_, (Trace.exec_singleton ..).trans hstep, ?_⟩
    cases r.dropped with
    | true => rfl
    | false => rfl

/-- The pass is the list of its events. -/
theorem visitAll_sim {addrs : ℕ → ℕ} {order : List ℕ} (h : l.visitAll addrs order = some m) (hu : u.server = l.server)
    (hnodup : order.Nodup) (hin : ∀ k ∈ order, k ∈ l.server.existingQps) :
    ∃ u', Trace.exec Replies.step u (order.filterMap fun k => l.visitEvent (addrs k) k) = some u' ∧
      u'.server = m.server := by
  induction order generalizing l u with
  | nil =>
    cases h
    exact ⟨u, rfl, hu⟩
  | cons socket order ih =>
    obtain ⟨l', hl', hrest⟩ := Option.bind_eq_some_iff.mp h
    obtain ⟨hnot, hnodup⟩ := List.nodup_cons.mp hnodup
    have hin' : ∀ k ∈ order, k ∈ l.server.existingQps := fun k hk => hin k (List.mem_cons_of_mem _ hk)
    rcases visit_cases hl' with ⟨hset, rfl⟩ | ⟨hset, hnil, rfl⟩ | ⟨x, rest, r, hset, hwait, hr, rfl⟩
    · obtain ⟨u', hu', hserver⟩ := ih hrest hu hnodup hin'
      exact ⟨u', by simpa [List.filterMap_cons, visitEvent, hset] using hu', hserver⟩
    · obtain ⟨u', hu', hserver⟩ := ih hrest hu hnodup hin'
      exact ⟨u', by simpa [List.filterMap_cons, visitEvent, hnil] using hu', hserver⟩
    · obtain ⟨v, hv, hvs⟩ := receive_sim hu (hin socket List.mem_cons_self) hr
      have hne : ∀ k ∈ order, k ≠ socket := fun k hk hks => hnot (hks ▸ hk)
      have hqps := qps_receive hr
      obtain ⟨u', hu', hserver⟩ := ih hrest hvs hnodup fun k hk => by
        have hk' := hin' k hk
        show k ∈ (if r.dropped then r.server.drop socket else r.server).existingQps
        rw [hqps]
        split
        · exact (List.mem_erase_of_ne (hne k hk)).mpr hk'
        · exact hk'
      refine ⟨u', ?_, hserver⟩
      have hevents : (order.filterMap fun k => visitEvent
            { l with
              server := if r.dropped then r.server.drop socket else r.server
              fds := Function.update l.fds socket false
              inbox := Function.update l.inbox socket rest
              handled := Function.update l.handled socket (l.handled socket ++ [x]) } (addrs k) k) =
          order.filterMap fun k => l.visitEvent (addrs k) k := by
        refine List.filterMap_congr fun k hk => ?_
        simp [visitEvent, Function.update_of_ne (hne k hk)]
      calc Trace.exec Replies.step u ((socket :: order).filterMap fun k => l.visitEvent (addrs k) k)
          = Trace.exec Replies.step u ((eventOf (addrs socket) socket x).toList ++
              order.filterMap fun k => l.visitEvent (addrs k) k) := by
            rw [List.filterMap_cons]
            cases hx : eventOf (addrs socket) socket x with
            | none => simp [visitEvent, hset, hwait, hx]
            | some e => simp [visitEvent, hset, hwait, hx]
        _ = some u' := by rw [Trace.exec_append, hv, Option.bind_some, ← hevents, hu']

/-- The connection is an event. -/
theorem accept_sim {c : Incoming F} (h : l.accept c = some m) (hu : u.server = l.server) :
    ∃ u', Replies.step u (.connect c.addr c.socket c.fileId c.size) = some u' ∧ u'.server = m.server := by
  simp only [Loop.accept, Option.ite_none_right_eq_some, Option.map_eq_some_iff] at h
  obtain ⟨hnew, r, hr, rfl⟩ := h
  refine ⟨⟨r.server, Function.update u.holder c.fileId (some c.socket), none⟩, ?_, rfl⟩
  simp [Replies.step, hu, hnew, hr]

/-- A round is the list of its events. -/
theorem round_sim {incoming : Option (Incoming F)} {addrs : ℕ → ℕ} {order : List ℕ}
    (h : l.round incoming addrs order = some m) (hnodup : l.server.existingQps.Nodup) (hu : u.server = l.server) :
    ∃ u', Trace.exec Replies.step u (l.roundEvents incoming addrs order) = some u' ∧ u'.server = m.server := by
  obtain ⟨l', hl', hperm, hv⟩ := round_cases h
  have he := entered hl' hnodup
  have hevents : (order.filterMap fun k => l'.visitEvent (addrs k) k) =
      order.filterMap fun k => if l.polled k then (l.inbox k).head?.bind (eventOf (addrs k) k) else none := by
    refine List.filterMap_congr fun k _ => ?_
    by_cases hk : ∀ c ∈ incoming, k ≠ c.socket
    · obtain ⟨hf, hi, -⟩ := he.others k hk
      have hpos : (0 < k ∧ l.polled k = true) = (l.polled k = true) :=
        propext ⟨And.right, fun hp => ⟨(waiting_of_polled hp).2.1, hp⟩⟩
      simp only [visitEvent, hf, hi, hpos]
    · obtain ⟨c, rfl, rfl⟩ : ∃ c, incoming = some c ∧ k = c.socket := by
        simpa only [Option.mem_def, not_forall, Decidable.not_not, exists_prop] using hk
      obtain ⟨hnew, -, hf, -⟩ := he.fresh c rfl
      have hoff : ¬ l.polled c.socket = true := fun hp => hnew (waiting_of_polled hp).1
      simp [visitEvent, hf, hoff]
  obtain ⟨v, hconn, hvs⟩ : ∃ v, Trace.exec Replies.step u
      (incoming.toList.map fun c => .connect c.addr c.socket c.fileId c.size) = some v ∧ v.server = l'.server := by
    cases incoming with
    | none =>
      cases hl'
      exact ⟨u, rfl, hu⟩
    | some c =>
      obtain ⟨v, hv, hvs⟩ := accept_sim (l := { l with fds := l.polled }) hl' hu
      exact ⟨v, (Trace.exec_singleton ..).trans hv, hvs⟩
  obtain ⟨u', hu', hserver⟩ := visitAll_sim hv hvs (hperm.nodup_iff.mpr he.nodup) fun k hk => hperm.mem_iff.mp hk
  refine ⟨u', ?_, hserver⟩
  rw [roundEvents, Trace.exec_append, hconn, Option.bind_some, ← hevents, hu']

/-- **The main loop runs the event machine.** Whatever arrives, however `select`
reports it and in whatever order the map is traversed, the server is in a
state that connections, requests and lost connections one at a time lead to,
and a round is the connection it accepts followed by the first message of
every connection that was reported and is still there. -/
theorem run_refines_events (l : Loop F) (hl : Trace.Reach step init l) :
    ∃ u : Replies F, Trace.Reach Replies.step Replies.init u ∧ u.server = l.server ∧
      ∀ incoming addrs order m, l.round incoming addrs order = some m →
        ∃ u', Trace.exec Replies.step u (l.roundEvents incoming addrs order) = some u' ∧ u'.server = m.server := by
  have hsim : ∃ u : Replies F, Trace.Reach Replies.step Replies.init u ∧ l.Inv ∧ u.server = l.server := by
    refine hl.simulate (fun l (u : Replies F) => l.Inv ∧ u.server = l.server) ⟨inv_init, rfl⟩ ?_
    rintro l e m u ⟨hi, hu⟩ hs
    have hi' := hi.step hs
    cases e with
    | arrive socket x =>
      cases hs
      exact ⟨[], u, rfl, hi', hu⟩
    | stop =>
      cases hs
      exact ⟨[], u, rfl, hi', hu⟩
    | select sel =>
      simp only [Loop.step, Option.ite_none_right_eq_some] at hs
      cases sel with
      | error =>
        cases hs.2
        exact ⟨[], u, rfl, hi', hu⟩
      | timeout =>
        cases hs.2
        exact ⟨[], u, rfl, hi', hu⟩
      | ready incoming addrs order =>
        obtain ⟨u', hu', hserver⟩ := round_sim hs.2 hi.nodup hu
        exact ⟨_, u', hu', hi', hserver⟩
  obtain ⟨u, hreach, hinv, hu⟩ := hsim
  exact ⟨u, hreach, hu, fun incoming addrs order m hm => round_sim hm hinv.nodup hu⟩

theorem run_refines_events_two : ∃ l : Loop ℕ, Trace.Reach step init l ∧
    (l.server.existingQps = [7, 6] ∧ (l.handled 5).length = 2 ∧ (l.handled 6).length = 2) ∧
    ∃ u : Replies ℕ, Trace.Reach Replies.step Replies.init u ∧ u.server = l.server := by
  obtain ⟨l, hl, hp⟩ : ∃ l : Loop ℕ, Trace.Reach step init l ∧
      (l.server.existingQps = [7, 6] ∧ (l.handled 5).length = 2 ∧ (l.handled 6).length = 2) :=
    Trace.exists_reach_of_exec twoClients (by decide)
  obtain ⟨u, hu, hserver, -⟩ := run_refines_events l hl
  exact ⟨l, hl, hp, u, hu, hserver⟩

end Loop
end ComputeSideLog
