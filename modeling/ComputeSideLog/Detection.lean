/-
# Losing a server

A client learns that a server is gone from ZooKeeper alone: `AddPeer` sets an
exists-watch on the server's node, `/servers/<peer>`, and `ClientWatcher`
takes the peer's address from the path of the node that was deleted
(`getPeerFromPath` in `src/util.h`).

`Membership` takes a callback as one step, and addresses for paths. Here a
callback is as many steps as it makes calls to ZooKeeper: `look` up to
`AddPeer`, `connect` from there, and `watchForPeerJoin`. Servers join and
leave in between, and the session may expire, which drops all watches. A
callback does what `Member.clientWatcher` says (`clientWatcher_in_steps`). The
deletion of a watched node is always reported as one; that a client which was
disconnected meanwhile may be told of a change instead, when the node is there
again, is not in the model.

What should hold is that no peer dies unnoticed: its node is there and
watched, or a notice of its deletion waits (`Detects`). It does unless the
server of a new peer leaves after the callback has seen it and before its
watch is set, that call fails, or the session expires
(`losses_detected`). In the first case ZooKeeper leaves a watch that only
reports the node's creation, and nothing waits for that.

Key definitions: `getPeerFromPath`, `look`, `connect`, `Detection.step`,
`Detects`, `Attended`.
Key theorems: `getPeerFromPath_serverPath_iff`, `clientWatcher_in_steps`,
`losses_detected`.
-/
import Mathlib.Data.List.TakeWhile
import ComputeSideLog.IpString
import ComputeSideLog.Lib.Trace
import ComputeSideLog.Watcher

namespace ComputeSideLog
namespace Detection

/-! ### Paths -/

/-- `ZK_SVR_ROOT_PATH`. -/
def zkSvrRootPath : Name := "/servers".toList

/-- The node of a server. -/
def serverPath (a : Name) : Name := zkSvrRootPath ++ '/' :: a

/-- `std::getline` up to a slash: what is left in the stream, `none` when it is no
longer good, and the string. -/
def getline : Option Name × Name → Option Name × Name
  | (none, s) => (none, s)
  | (some rest, _) =>
    match rest.dropWhile (· ≠ '/') with
    | [] => (none, rest)
    | _ :: rest' => (some rest', rest.takeWhile (· ≠ '/'))

/-- `getPeerFromPath`. -/
def getPeerFromPath (path : Name) : Name := (getline (getline (getline (some path, [])))).2

example : getPeerFromPath "/servers/10.0.0.1".toList = "10.0.0.1".toList := by decide

theorem getline_of_notMem {s : Name} (h : '/' ∉ s) (t : Name) : getline (some s, t) = (none, s) := by
  have hdrop : s.dropWhile (· ≠ '/') = [] := by
    rw [List.dropWhile_eq_nil_iff]
    intro c hc
    simpa using fun he : c = '/' => h (he ▸ hc)
  simp only [getline, hdrop]

theorem getline_of_mem {s : Name} (h : '/' ∈ s) (t : Name) : '/' ∉ (getline (some s, t)).2 := by
  have htake : '/' ∉ s.takeWhile (· ≠ '/') := fun hm => by simpa using List.mem_takeWhile_imp hm
  unfold getline
  split
  · rename_i heq
    cases heq
  · rename_i rest t' heq
    obtain ⟨rfl, -⟩ : s = rest ∧ t = t' := by simpa using heq
    split
    · rename_i hnil
      rw [List.dropWhile_eq_nil_iff] at hnil
      simpa using hnil '/' h
    · exact htake

/-- The path of a node gives the address back, if the address has no slash. -/
theorem getPeerFromPath_serverPath_iff {a : Name} : getPeerFromPath (serverPath a) = a ↔ '/' ∉ a := by
  have hread : getPeerFromPath (serverPath a) = (getline (some a, "servers".toList)).2 := rfl
  rw [hread]
  by_cases h : '/' ∈ a
  · refine iff_of_false (fun he => ?_) (not_not.mpr h)
    exact getline_of_mem h _ (he ▸ h)
  · rw [getline_of_notMem h]
    exact iff_of_true rfl h

theorem serverPath_inj {a b : Name} : serverPath a = serverPath b ↔ a = b := by
  unfold serverPath
  rw [List.append_cancel_left_eq, List.cons.injEq]
  exact and_iff_right rfl

/-! ### A callback in steps -/

/-- The type of an event. -/
inductive EventType where
  | created
  | deleted
  | changed
  | child
  | session
  | notWatching
  deriving DecidableEq, Repr

/-- The arguments of `ClientWatcher`; `connected` is whether the state is
`ZOO_CONNECTED_STATE`. -/
structure Called where
  type : EventType
  connected : Bool
  path : Name
  deriving DecidableEq, Repr

/-- Where the watcher thread is: between callbacks, at `AddPeer` for a new peer,
which takes the place of a lost one or follows a join, or at
`watchForPeerJoin`. -/
inductive Stage where
  | idle
  | adding (lost : Bool) (a : Name)
  | watching
  deriving DecidableEq, Repr

/-- The replacement of a lost peer has failed. -/
def failed (m : Member Name) : Member Name × List (Act Name) × Stage :=
  (m, if m.peers.card ≤ m.repFactor / 2 then [.lock] else [], .watching)

/-- `ClientWatcher` up to `AddPeer`, if it comes there. -/
def look (m : Member Name) (children : Option (List Name)) (c : Called) : Member Name × List (Act Name) × Stage :=
  if c.connected then
    match c.type with
    | .deleted =>
      let peer := getPeerFromPath c.path
      match m.removeOld (if peer = [] then none else some peer) with
      | none => failed m
      | some m =>
        match children.bind fun cs => cs.find? fun a => a ∉ m.peers with
        | none => failed m
        | some a => (m, [], .adding true a)
    | .child =>
      match children.bind fun cs => cs.find? fun a => a ∉ m.peers with
      | none => (m, [], .idle)
      | some a => (m, [], .adding false a)
    | _ => (m, [], .idle)
  else (m, [], .idle)

/-- `AddPeer`, with what `zoo_wexists` returns, and what follows it. -/
def connect (m : Member Name) (lost : Bool) (a : Name) (wexists : Bool) : Member Name × List (Act Name) × Stage :=
  let (m, ok) := m.addPeer a wexists
  if ok then
    if lost then (m, [.recoverPeer a, .updateClientZKNode m.peers], .idle)
    else
      (m, (if m.inUse then [.recoverPeer a] else []) ++ (if m.repFactor / 2 < m.peers.card then [.unlock] else []),
        if m.peers.card < m.repFactor then .watching else .idle)
  else if lost then failed m
  else (m, [], .idle)

/-- The rest of a callback at once. -/
def finish (wexists : Bool) : Member Name × List (Act Name) × Stage → Member Name × List (Act Name)
  | (m, acts, .idle) => (m, acts)
  | (m, acts, .watching) => (m, acts ++ [.watchForPeerJoin])
  | (m, acts, .adding lost a) =>
    match connect m lost a wexists with
    | (m, acts', .watching) => (m, acts ++ acts' ++ [.watchForPeerJoin])
    | (m, acts', _) => (m, acts ++ acts')

/-- What a call is about. -/
def Called.notice (c : Called) : Notice Name :=
  match c.connected, c.type with
  | true, .deleted => .deleted (getPeerFromPath c.path)
  | true, .child => .child
  | _, _ => .created (getPeerFromPath c.path)

theorem finish_failed (wexists : Bool) (m : Member Name) : finish wexists (failed m) = (m, m.suspends) := rfl

/-- What follows `AddPeer` for a new peer. -/
theorem connect_of_notMem {m : Member Name} {a : Name} (h : a ∉ m.peers) (lost wexists : Bool) :
    connect m lost a wexists =
      if wexists then
        if lost then (m.add a, [.recoverPeer a, .updateClientZKNode (m.add a).peers], .idle)
        else
          (m.add a, (if m.inUse then [.recoverPeer a] else []) ++
              (if m.repFactor / 2 < (m.add a).peers.card then [.unlock] else []),
            if (m.add a).peers.card < m.repFactor then .watching else .idle)
      else if lost then failed (m.add a)
      else (m.add a, [], .idle) := by
  unfold connect
  rw [Member.addPeer_of_notMem h]
  rfl

/-- The part of a callback from `AddPeer` on. -/
theorem finish_adding {m : Member Name} {a : Name} (h : a ∉ m.peers) (lost wexists : Bool) :
    finish wexists (m, [], .adding lost a) =
      (m.add a,
        if lost then
          if wexists then [.recoverPeer a, .updateClientZKNode (m.add a).peers] else (m.add a).suspends
        else if wexists then (m.add a).joined a else []) := by
  unfold finish
  simp only [connect_of_notMem h]
  cases wexists with
  | false => cases lost <;> rfl
  | true =>
    cases lost with
    | true => rfl
    | false =>
      by_cases hfew : (m.add a).peers.card < m.repFactor
      · simp only [if_pos hfew, Bool.false_eq_true, if_false, if_true, List.nil_append]
        unfold Member.joined
        rw [if_pos (show (m.add a).peers.card < (m.add a).repFactor from hfew)]
        rfl
      · simp only [if_neg hfew, Bool.false_eq_true, if_false, if_true, List.nil_append]
        unfold Member.joined
        rw [if_neg (show ¬ (m.add a).peers.card < (m.add a).repFactor from hfew), List.append_nil]
        rfl

/-- **A callback in steps** does what it does at once. -/
theorem clientWatcher_in_steps (m : Member Name) (children : Option (List Name)) (wexists : Bool) {c : Called}
    (hc : c.type = .deleted → getPeerFromPath c.path ≠ []) :
    finish wexists (look m children c) = m.clientWatcher ⟨children, wexists⟩ c.notice := by
  obtain ⟨type, connected, path⟩ := c
  cases connected with
  | false => cases type <;> rfl
  | true =>
    cases type with
    | deleted =>
      unfold look Called.notice Member.clientWatcher
      simp only [if_true, if_neg (hc rfl)]
      cases hold : m.removeOld (some (getPeerFromPath path)) with
      | none =>
        unfold Member.replacePeer
        simp only [hold]
        rfl
      | some m' =>
        rcases Member.replacePeer_cases m ⟨children, wexists⟩ _ hold with ⟨hf, hr⟩ | ⟨a, hf, hr⟩
        · rw [hr]
          simp only [show (children.bind fun cs => cs.find? fun a => a ∉ m'.peers) = none from hf]
          rfl
        · rw [hr]
          simp only [show (children.bind fun cs => cs.find? fun a => a ∉ m'.peers) = some a from hf]
          rw [finish_adding (Member.finds_notMem hf)]
          cases wexists <;> rfl
    | child =>
      unfold look Called.notice Member.clientWatcher
      rcases Member.replacePeer_cases m ⟨children, wexists⟩ none rfl with ⟨hf, hr⟩ | ⟨a, hf, hr⟩
      · rw [hr]
        simp only [if_true, show (children.bind fun cs => cs.find? fun a => a ∉ m.peers) = none from hf]
        rfl
      · rw [hr]
        simp only [if_true, show (children.bind fun cs => cs.find? fun a => a ∉ m.peers) = some a from hf]
        rw [finish_adding (Member.finds_notMem hf)]
        cases wexists <;> rfl
    | _ => rfl

/-! ### ZooKeeper and the watcher thread -/

/-- The nodes of the servers, the watches of the client, the calls of `ClientWatcher`
that wait for its watcher thread, the membership, and where that thread is. -/
structure State where
  nodes : Finset Name
  existsWatch : Finset Name
  childWatch : Bool
  queue : List Called
  member : Member Name
  stage : Stage

/-- A server creates its node or loses it, the session changes its state or
expires, or the watcher thread goes on: it begins with the call at position
`i`, for which `zoo_get_children` returns `children`, or makes the next call to
ZooKeeper, which fails unless `ok`. -/
inductive Event where
  | join (a : Name)
  | leave (a : Name)
  | session (connected : Bool)
  | expire
  | begin (i : ℕ) (children : Option (List Name))
  | add (ok : Bool)
  | watch (ok : Bool)
  deriving DecidableEq

/-- The deletion of a server's node is reported. -/
def lost (a : Name) : Called := ⟨.deleted, true, serverPath a⟩

/-- What the child watch leaves. -/
def State.childNotice (s : State) : List Called := if s.childWatch then [⟨.child, true, zkSvrRootPath⟩] else []

/-- A server creates its node. -/
def State.join (s : State) (a : Name) : State :=
  { s with
    nodes := insert (serverPath a) s.nodes
    existsWatch := s.existsWatch.erase (serverPath a)
    childWatch := false
    queue := s.queue ++ (if serverPath a ∈ s.existsWatch then [⟨.created, true, serverPath a⟩] else []) ++
      s.childNotice }

/-- A server's node is deleted. -/
def State.leave (s : State) (a : Name) : State :=
  { s with
    nodes := s.nodes.erase (serverPath a)
    existsWatch := s.existsWatch.erase (serverPath a)
    childWatch := false
    queue := s.queue ++ (if serverPath a ∈ s.existsWatch then [lost a] else []) ++ s.childNotice }

/-- A callback begins with the call `c`. -/
def State.began (s : State) (i : ℕ) (children : Option (List Name)) (c : Called) : State :=
  { s with
    queue := s.queue.eraseIdx i
    member := (look s.member children c).1
    stage := (look s.member children c).2.2 }

/-- `zoo_wexists` returns `ZOK` if the node is there, and leaves a watch in any case
unless it fails. -/
def State.added (s : State) (lost : Bool) (a : Name) (ok : Bool) : State :=
  { s with
    existsWatch := if ok = true ∧ a ∉ s.member.peers then insert (serverPath a) s.existsWatch else s.existsWatch
    member := (connect s.member lost a (ok && decide (serverPath a ∈ s.nodes))).1
    stage := (connect s.member lost a (ok && decide (serverPath a ∈ s.nodes))).2.2 }

/-- One event. -/
def step (s : State) : Event → Option State
  | .join a => if ValidName a ∧ serverPath a ∉ s.nodes then some (s.join a) else none
  | .leave a => if serverPath a ∈ s.nodes then some (s.leave a) else none
  | .session connected => some { s with queue := s.queue ++ [⟨.session, connected, []⟩] }
  | .expire => some { s with existsWatch := ∅, childWatch := false, queue := s.queue ++ [⟨.session, false, []⟩] }
  | .begin i children =>
    if s.stage = .idle ∧ ∀ cs ∈ children, cs.toFinset.image serverPath = s.nodes then
      s.queue[i]?.map (s.began i children)
    else none
  | .add ok =>
    match s.stage with
    | .adding lost a => some (s.added lost a ok)
    | _ => none
  | .watch ok =>
    if s.stage = .watching then some { s with childWatch := s.childWatch || ok, stage := .idle } else none

/-- The client after its construction with the peers `addrs`. -/
def start (servers : Finset Name) (addrs : List Name) (rep : ℕ) (ok : Name → Bool) : State where
  nodes := servers.image serverPath
  existsWatch := (addrs.filter fun a => ok a).toFinset.image serverPath
  childWatch := false
  queue := []
  member := Member.construct addrs rep fun a => ok a && decide (a ∈ servers)
  stage := .idle

/-- No peer is lost without a notice: its node is there and watched, or the notice
waits. -/
def Detects (s : State) : Prop := ∀ a ∈ s.member.peers,
  (serverPath a ∈ s.nodes ∧ serverPath a ∈ s.existsWatch) ∨ lost a ∈ s.queue

instance (s : State) : Decidable (Detects s) := inferInstanceAs (Decidable (∀ a ∈ s.member.peers, _ ∨ _))

/-- The new peer's node is still there when its watch is set, and the session does
not expire unless all peers are lost. -/
def Attended (s : State) : Event → Prop
  | .add ok =>
    match s.stage with
    | .adding _ a => ok = true ∧ serverPath a ∈ s.nodes
    | _ => True
  | .expire => ∀ a ∈ s.member.peers, lost a ∈ s.queue
  | _ => True

instance (s : State) : ∀ e, Decidable (Attended s e)
  | .add ok =>
    match h : s.stage with
    | .adding _ a => decidable_of_iff (ok = true ∧ serverPath a ∈ s.nodes) (by rw [Attended, h])
    | .idle => .isTrue (by rw [Attended, h]; trivial)
    | .watching => .isTrue (by rw [Attended, h]; trivial)
  | .expire => inferInstanceAs (Decidable (∀ a ∈ s.member.peers, lost a ∈ s.queue))
  | .join _ | .leave _ | .session _ | .begin _ _ | .watch _ => instDecidableTrue

/-! ### What a callback leaves of the membership -/

section Callback

variable {m : Member Name} {a b : Name}

theorem found {children : Option (List Name)} {peers : Finset Name}
    (h : (children.bind fun cs => cs.find? fun a => a ∉ peers) = some b) : b ∉ peers ∧ ∃ cs ∈ children, b ∈ cs := by
  obtain ⟨cs, hcs, hfind⟩ := Option.bind_eq_some_iff.mp h
  exact ⟨by simpa using List.find?_some hfind, cs, hcs, List.mem_of_find?_eq_some hfind⟩

/-- The report of a lost peer takes it out; a new peer is one of the children. -/
theorem look_lost (children : Option (List Name)) (hm : m.Ok) (ha : ValidName a) (hp : a ∈ m.peers) :
    (look m children (lost a)).1 = m.remove a ∧
      ∀ l b, (look m children (lost a)).2.2 = .adding l b → b ∉ (m.remove a).peers ∧ ∃ cs ∈ children, b ∈ cs := by
  have hpath : getPeerFromPath (lost a).path = a := getPeerFromPath_serverPath_iff.mpr ha.2.2
  have hold : m.removeOld (some a) = some (m.remove a) := if_pos (show a ∈ m.props by rwa [hm])
  unfold look
  rw [if_pos (show (lost a).connected = true from rfl)]
  simp only [show (lost a).type = .deleted from rfl, hpath, if_neg ha.1, hold]
  cases hf : children.bind fun cs => cs.find? fun b => b ∉ (m.remove a).peers with
  | none => exact ⟨rfl, fun l b he => by cases he⟩
  | some b =>
    refine ⟨rfl, fun l b' he => ?_⟩
    cases he
    exact found hf

/-- No other call takes a peer out. -/
theorem look_other (m : Member Name) (children : Option (List Name)) {c : Called} (hc : c.type ≠ .deleted) :
    (look m children c).1 = m ∧
      ∀ l b, (look m children c).2.2 = .adding l b → b ∉ m.peers ∧ ∃ cs ∈ children, b ∈ cs := by
  have hnone : ∀ l b, (m, ([] : List (Act Name)), Stage.idle).2.2 = .adding l b →
      b ∉ m.peers ∧ ∃ cs ∈ children, b ∈ cs := fun l b he => by cases he
  unfold look
  split
  · split
    · exact absurd ‹_› hc
    · cases hf : children.bind fun cs => cs.find? fun b => b ∉ m.peers with
      | none => exact ⟨rfl, hnone⟩
      | some b =>
        refine ⟨rfl, fun l b' he => ?_⟩
        cases he
        exact found hf
    · exact ⟨rfl, hnone⟩
  · exact ⟨rfl, hnone⟩

/-- The new peer is a member whether its watch is set or not. -/
theorem connect_member (h : a ∉ m.peers) (l wexists : Bool) : (connect m l a wexists).1 = m.add a ∧
    ∀ l' b, (connect m l a wexists).2.2 ≠ .adding l' b := by
  rw [connect_of_notMem h]
  refine ⟨?_, fun l' b => ?_⟩
  · split
    · split <;> rfl
    · split <;> rfl
  · split
    · split
      · exact fun he => by cases he
      · dsimp only
        split <;> exact fun he => by cases he
    · split <;> exact fun he => by cases he

end Callback

/-! ### Reports and watches -/

variable {s t : State}

/-- What the reports and the watches are about: peers, each of which has a watch or
a report at most. -/
structure Inv (s : State) : Prop where
  ok : s.member.Ok
  nodes : ∀ p ∈ s.nodes, ∃ a, ValidName a ∧ p = serverPath a
  peers : ∀ a ∈ s.member.peers, ValidName a
  watches : ∀ p ∈ s.existsWatch, ∃ a ∈ s.member.peers, p = serverPath a ∧ lost a ∉ s.queue
  reports : ∀ c ∈ s.queue, c.type = .deleted → ∃ a ∈ s.member.peers, c = lost a
  once : ∀ a, s.queue.count (lost a) ≤ 1
  adding : ∀ l a, s.stage = .adding l a → ValidName a ∧ a ∉ s.member.peers

theorem lost_inj {a b : Name} : lost a = lost b ↔ a = b := by
  unfold lost
  rw [Called.mk.injEq]
  simp only [true_and, serverPath_inj]

theorem Inv.lost_mem (h : Inv s) {a : Name} (ha : lost a ∈ s.queue) : a ∈ s.member.peers := by
  obtain ⟨b, hb, he⟩ := h.reports _ ha rfl
  exact lost_inj.mp he ▸ hb

theorem inv_start {servers : Finset Name} {addrs : List Name} {rep : ℕ} {ok : Name → Bool}
    (hv : ∀ a ∈ servers, ValidName a) (ha : ∀ a ∈ addrs, ValidName a) : Inv (start servers addrs rep ok) where
  ok := Member.construct_ok _ _ _
  nodes p hp := by
    obtain ⟨a, hm, rfl⟩ := Finset.mem_image.mp hp
    exact ⟨a, hv a hm, rfl⟩
  peers a hm := by
    have hmem : a ∈ addrs.toFinset := by simpa [start, Member.construct_eq] using hm
    exact ha a (List.mem_toFinset.mp hmem)
  watches p hp := by
    obtain ⟨a, hm, rfl⟩ := Finset.mem_image.mp hp
    have hmem : a ∈ addrs := (List.mem_filter.mp (List.mem_toFinset.mp hm)).1
    exact ⟨a, by simpa [start, Member.construct_eq] using hmem, rfl, List.not_mem_nil⟩
  reports c hc := absurd hc List.not_mem_nil
  once a := Nat.zero_le 1
  adding l a hs := by cases hs

/-- More calls that report no deletion change nothing. -/
theorem Inv.quiet (h : Inv s) {cs : List Called} (hcs : ∀ c ∈ cs, c.type ≠ .deleted) :
    Inv { s with queue := s.queue ++ cs } := by
  have hno : ∀ a, lost a ∉ cs := fun a ha => hcs _ ha rfl
  refine { h with watches := fun p hp => ?_, reports := fun c hc ht => ?_, once := fun a => ?_ }
  · obtain ⟨a, ha, he, hq⟩ := h.watches p hp
    refine ⟨a, ha, he, fun hm => ?_⟩
    exact (List.mem_append.mp hm).elim hq (hno a)
  · exact (List.mem_append.mp hc).elim (fun hc => h.reports c hc ht) fun hc => absurd ht (hcs c hc)
  · show (s.queue ++ cs).count (lost a) ≤ 1
    rw [List.count_append, List.count_eq_zero_of_not_mem (hno a)]
    exact h.once a

/-- Nor do fewer watches. -/
theorem Inv.fewer (h : Inv s) {watches : Finset Name} (hw : watches ⊆ s.existsWatch) (child : Bool) :
    Inv { s with existsWatch := watches, childWatch := child } :=
  { h with watches := fun p hp => h.watches p (hw hp) }

theorem childNotice_type {c : Called} (hc : c ∈ s.childNotice) : c.type ≠ .deleted := by
  unfold State.childNotice at hc
  split at hc
  · rw [List.mem_singleton.mp hc]
    decide
  · cases hc

theorem Inv.join (h : Inv s) {a : Name} (ha : ValidName a) : Inv (s.join a) := by
  have hquiet : ∀ c ∈ (if serverPath a ∈ s.existsWatch then [⟨.created, true, serverPath a⟩] else []) ++ s.childNotice,
      Called.type c ≠ .deleted := by
    intro c hc
    rcases List.mem_append.mp hc with hc | hc
    · split at hc
      · rw [List.mem_singleton.mp hc]
        exact fun he => by cases he
      · cases hc
    · exact childNotice_type hc
  have hinv := (h.quiet hquiet).fewer (Finset.erase_subset (serverPath a) _) false
  unfold State.join
  rw [List.append_assoc]
  refine { hinv with nodes := fun p hp => ?_ }
  rcases Finset.mem_insert.mp hp with rfl | hp
  · exact ⟨a, ha, rfl⟩
  · exact h.nodes p hp

theorem Inv.leave (h : Inv s) (a : Name) : Inv (s.leave a) := by
  have hquiet : ∀ c ∈ s.childNotice, c.type ≠ .deleted := fun c hc => childNotice_type hc
  have hinv := (h.quiet hquiet).fewer (Finset.erase_subset (serverPath a) s.existsWatch) false
  by_cases hw : serverPath a ∈ s.existsWatch
  · obtain ⟨a', ha, he, hq⟩ := h.watches _ hw
    obtain rfl := serverPath_inj.mp he
    have hno : lost a ∉ s.childNotice := fun hc => childNotice_type hc rfl
    unfold State.leave
    rw [if_pos hw]
    refine { hinv with
      nodes := fun p hp => h.nodes p (Finset.mem_of_mem_erase hp)
      watches := fun p hp => ?_
      reports := fun c hc ht => ?_
      once := fun b => ?_ }
    · obtain ⟨b, hb, rfl, hqb⟩ := hinv.watches p hp
      refine ⟨b, hb, rfl, fun hm => ?_⟩
      have hne : b ≠ a := fun he => Finset.ne_of_mem_erase hp (by rw [he])
      rcases List.mem_append.mp hm with hm | hm
      · rcases List.mem_append.mp hm with hm | hm
        · exact hqb (List.mem_append_left _ hm)
        · exact hne (lost_inj.mp (List.mem_singleton.mp hm))
      · exact hqb (List.mem_append_right _ hm)
    · rcases List.mem_append.mp hc with hc | hc
      · rcases List.mem_append.mp hc with hc | hc
        · exact h.reports c hc ht
        · exact ⟨a, ha, List.mem_singleton.mp hc⟩
      · exact absurd ht (childNotice_type hc)
    · show (s.queue ++ [lost a] ++ s.childNotice).count (lost b) ≤ 1
      have hnob : lost b ∉ s.childNotice := fun hc => childNotice_type hc rfl
      rw [List.count_append, List.count_append, List.count_eq_zero_of_not_mem hnob]
      by_cases hb : b = a
      · subst hb
        rw [List.count_eq_zero_of_not_mem hq, List.count_singleton_self]
      · rw [List.count_eq_zero_of_not_mem (show lost b ∉ [lost a] from fun hm =>
          hb (lost_inj.mp (List.mem_singleton.mp hm)))]
        exact h.once b
  · unfold State.leave
    rw [if_neg hw, List.append_nil]
    exact { hinv with nodes := fun p hp => h.nodes p (Finset.mem_of_mem_erase hp) }

/-- The report that a callback begins with is the only one about its peer. -/
theorem count_erase {i : ℕ} {c : Called} (hc : s.queue[i]? = some c) (x : Called) :
    s.queue.count x = (s.queue.eraseIdx i).count x + if c = x then 1 else 0 := by
  obtain ⟨hi, rfl⟩ := List.getElem?_eq_some_iff.mp hc
  have hsplit : s.queue = s.queue.take i ++ s.queue[i] :: s.queue.drop (i + 1) := by
    rw [List.cons_getElem_drop_succ, List.take_append_drop]
  rw [List.eraseIdx_eq_take_drop_succ, List.count_append]
  conv_lhs => rw [hsplit, List.count_append, List.count_cons]
  simp only [beq_iff_eq]
  omega

theorem Inv.notMem_erase (h : Inv s) {i : ℕ} {a : Name} (hc : s.queue[i]? = some (lost a)) :
    lost a ∉ s.queue.eraseIdx i := by
  have hcount := count_erase hc (lost a)
  rw [if_pos rfl] at hcount
  have hle := h.once a
  exact List.count_eq_zero.mp (by omega)

/-- What a callback begins with is taken out of the queue. -/
theorem Inv.erase (h : Inv s) {i : ℕ} {c : Called} (hc : s.queue[i]? = some c) (b : Name) :
    (s.queue.eraseIdx i).count (lost b) ≤ 1 := by
  have hcount := count_erase hc (lost b)
  have hle := h.once b
  omega

/-- A child of the server root has a node. -/
theorem Inv.child (h : Inv s) {children : Option (List Name)} {b : Name}
    (hchildren : ∀ cs ∈ children, cs.toFinset.image serverPath = s.nodes) (hb : ∃ cs ∈ children, b ∈ cs) :
    ValidName b := by
  obtain ⟨cs, hcs, hmem⟩ := hb
  have hnode : serverPath b ∈ s.nodes := by
    rw [← hchildren cs hcs]
    exact Finset.mem_image_of_mem _ (List.mem_toFinset.mpr hmem)
  obtain ⟨b', hv, he⟩ := h.nodes _ hnode
  exact serverPath_inj.mp he ▸ hv

theorem Inv.began (h : Inv s) {i : ℕ} {children : Option (List Name)} {c : Called} (hc : s.queue[i]? = some c)
    (hchildren : ∀ cs ∈ children, cs.toFinset.image serverPath = s.nodes) : Inv (s.began i children c) := by
  have hsub : ∀ x ∈ s.queue.eraseIdx i, x ∈ s.queue := fun x hx => List.mem_of_mem_eraseIdx hx
  by_cases ht : c.type = .deleted
  · obtain ⟨a, ha, rfl⟩ := h.reports c (List.mem_of_getElem? hc) ht
    obtain ⟨hmember, hstage⟩ := look_lost children h.ok (h.peers a ha) ha
    have hno := h.notMem_erase hc
    -- the peers are those other than `a`
    have hother : ∀ b ∈ s.member.peers, b ≠ a → b ∈ (look s.member children (lost a)).1.peers := by
      intro b hb hne
      rw [hmember]
      exact Finset.mem_erase_of_ne_of_mem hne hb
    refine ⟨?_, h.nodes, fun b hb => h.peers b ?_, fun p hp => ?_, fun x hx hd => ?_, h.erase hc, fun l b hs => ?_⟩
    · show (look s.member children (lost a)).1.Ok
      rw [hmember]
      exact h.ok.remove a
    · have hb' : b ∈ (look s.member children (lost a)).1.peers := hb
      rw [hmember] at hb'
      exact Finset.mem_of_mem_erase hb'
    · obtain ⟨b, hb, rfl, hq⟩ := h.watches p hp
      have hne : b ≠ a := fun he => hq (he ▸ List.mem_of_getElem? hc)
      exact ⟨b, hother b hb hne, rfl, fun hm => hq (hsub _ hm)⟩
    · obtain ⟨b, hb, rfl⟩ := h.reports x (hsub x hx) hd
      have hne : b ≠ a := fun he => hno (he ▸ hx)
      exact ⟨b, hother b hb hne, rfl⟩
    · obtain ⟨hnot, hmem⟩ := hstage l b hs
      refine ⟨h.child hchildren hmem, ?_⟩
      show b ∉ (look s.member children (lost a)).1.peers
      rw [hmember]
      exact hnot
  · obtain ⟨hmember, hstage⟩ := look_other s.member children ht
    refine ⟨?_, h.nodes, fun b hb => h.peers b ?_, fun p hp => ?_, fun x hx hd => ?_, h.erase hc, fun l b hs => ?_⟩
    · show (look s.member children c).1.Ok
      rw [hmember]
      exact h.ok
    · have hb' : b ∈ (look s.member children c).1.peers := hb
      rwa [hmember] at hb'
    · obtain ⟨b, hb, rfl, hq⟩ := h.watches p hp
      refine ⟨b, ?_, rfl, fun hm => hq (hsub _ hm)⟩
      show b ∈ (look s.member children c).1.peers
      rwa [hmember]
    · obtain ⟨b, hb, rfl⟩ := h.reports x (hsub x hx) hd
      refine ⟨b, ?_, rfl⟩
      show b ∈ (look s.member children c).1.peers
      rwa [hmember]
    · obtain ⟨hnot, hmem⟩ := hstage l b hs
      refine ⟨h.child hchildren hmem, ?_⟩
      show b ∉ (look s.member children c).1.peers
      rwa [hmember]

theorem Inv.added (h : Inv s) {l : Bool} {a : Name} (hs : s.stage = .adding l a) (ok : Bool) :
    Inv (s.added l a ok) := by
  obtain ⟨hv, hnot⟩ := h.adding l a hs
  obtain ⟨hmember, hstage⟩ := connect_member hnot l (ok && decide (serverPath a ∈ s.nodes))
  have hgrow : ∀ b ∈ s.member.peers, b ∈ (s.added l a ok).member.peers := by
    intro b hb
    show b ∈ (connect s.member l a _).1.peers
    rw [hmember]
    exact Finset.mem_insert_of_mem hb
  have hnew : a ∈ (s.added l a ok).member.peers := by
    show a ∈ (connect s.member l a _).1.peers
    rw [hmember]
    exact Finset.mem_insert_self _ _
  refine ⟨?_, h.nodes, fun b hb => ?_, fun p hp => ?_, fun c hc hd => ?_, h.once, fun l' b he => ?_⟩
  · show (connect s.member l a _).1.Ok
    rw [hmember]
    exact h.ok.add a
  · have hb' : b ∈ (connect s.member l a (ok && decide (serverPath a ∈ s.nodes))).1.peers := hb
    rw [hmember] at hb'
    rcases Finset.mem_insert.mp hb' with rfl | hb'
    · exact hv
    · exact h.peers b hb'
  · have hp' : p = serverPath a ∨ p ∈ s.existsWatch := by
      have hp : p ∈ if ok = true ∧ a ∉ s.member.peers then insert (serverPath a) s.existsWatch else s.existsWatch := hp
      split at hp
      · exact Finset.mem_insert.mp hp
      · exact .inr hp
    rcases hp' with rfl | hp'
    · exact ⟨a, hnew, rfl, fun hq => hnot (h.lost_mem hq)⟩
    · obtain ⟨b, hb, rfl, hq⟩ := h.watches p hp'
      exact ⟨b, hgrow b hb, rfl, hq⟩
  · obtain ⟨b, hb, rfl⟩ := h.reports c hc hd
    exact ⟨b, hgrow b hb, rfl⟩
  · exact absurd he (hstage l' b)

/-- What an event can do. -/
inductive Moves (s : State) : Event → State → Prop
  | join (a : Name) (ha : ValidName a) (hnode : serverPath a ∉ s.nodes) : Moves s (.join a) (s.join a)
  | leave (a : Name) (hnode : serverPath a ∈ s.nodes) : Moves s (.leave a) (s.leave a)
  | session (connected : Bool) :
      Moves s (.session connected) { s with queue := s.queue ++ [⟨.session, connected, []⟩] }
  | expire : Moves s .expire
      { s with existsWatch := ∅, childWatch := false, queue := s.queue ++ [⟨.session, false, []⟩] }
  | begin (i : ℕ) (children : Option (List Name)) (c : Called) (hc : s.queue[i]? = some c)
      (hchildren : ∀ cs ∈ children, cs.toFinset.image serverPath = s.nodes) :
      Moves s (.begin i children) (s.began i children c)
  | add (ok l : Bool) (a : Name) (hs : s.stage = .adding l a) : Moves s (.add ok) (s.added l a ok)
  | watch (ok : Bool) : Moves s (.watch ok) { s with childWatch := s.childWatch || ok, stage := .idle }

theorem moves_step {e : Event} (hs : step s e = some t) : Moves s e t := by
  cases e with
  | join a =>
    simp only [step, Option.ite_none_right_eq_some, Option.some.injEq] at hs
    obtain ⟨⟨ha, hnode⟩, rfl⟩ := hs
    exact .join a ha hnode
  | leave a =>
    simp only [step, Option.ite_none_right_eq_some, Option.some.injEq] at hs
    obtain ⟨hnode, rfl⟩ := hs
    exact .leave a hnode
  | session connected =>
    cases hs
    exact .session connected
  | expire =>
    cases hs
    exact .expire
  | begin i children =>
    simp only [step, Option.ite_none_right_eq_some, Option.map_eq_some_iff] at hs
    obtain ⟨⟨-, hchildren⟩, c, hc, rfl⟩ := hs
    exact .begin i children c hc hchildren
  | add ok =>
    simp only [step] at hs
    split at hs
    · rename_i l a hstage
      cases hs
      exact .add ok l a hstage
    · cases hs
  | watch ok =>
    simp only [step, Option.ite_none_right_eq_some, Option.some.injEq] at hs
    obtain ⟨-, rfl⟩ := hs
    exact .watch ok

theorem session_type {connected : Bool} {c : Called} (hc : c ∈ [(⟨.session, connected, []⟩ : Called)]) :
    c.type ≠ .deleted := by
  rw [List.mem_singleton.mp hc]
  exact fun he => by cases he

theorem Inv.step (h : Inv s) {e : Event} (hs : step s e = some t) : Inv t := by
  cases moves_step hs with
  | join a ha _ => exact h.join ha
  | leave a _ => exact h.leave a
  | session connected => exact h.quiet fun c hc => session_type hc
  | expire => exact (h.quiet fun c hc => session_type hc).fewer (Finset.empty_subset _) false
  | begin i children c hc hchildren => exact h.began hc hchildren
  | add ok l a hstage => exact h.added hstage ok
  | watch ok =>
    exact { h.fewer (Finset.Subset.refl _) (s.childWatch || ok) with adding := fun l a he => by cases he }

/-! ### Detection -/

theorem Detects.join (hd : Detects s) {a : Name} (hnode : serverPath a ∉ s.nodes) : Detects (s.join a) := by
  intro b hb
  rcases hd b hb with ⟨hn, hw⟩ | hq
  · have hne : serverPath b ≠ serverPath a := fun he => hnode (he ▸ hn)
    exact .inl ⟨Finset.mem_insert_of_mem hn, Finset.mem_erase_of_ne_of_mem hne hw⟩
  · exact .inr (List.mem_append_left _ (List.mem_append_left _ hq))

theorem Detects.leave (hd : Detects s) (a : Name) : Detects (s.leave a) := by
  intro b hb
  rcases hd b hb with ⟨hn, hw⟩ | hq
  · by_cases he : b = a
    · subst he
      right
      show lost b ∈ s.queue ++ (if serverPath b ∈ s.existsWatch then [lost b] else []) ++ s.childNotice
      rw [if_pos hw]
      exact List.mem_append_left _ (List.mem_append_right _ (List.mem_singleton.mpr rfl))
    · have hne : serverPath b ≠ serverPath a := fun hp => he (serverPath_inj.mp hp)
      exact .inl ⟨Finset.mem_erase_of_ne_of_mem hne hn, Finset.mem_erase_of_ne_of_mem hne hw⟩
  · exact .inr (List.mem_append_left _ (List.mem_append_left _ hq))

/-- A report that waits still does when a callback begins with another call. -/
theorem mem_erase_of_ne {i : ℕ} {c : Called} (hc : s.queue[i]? = some c) {x : Called} (hx : x ∈ s.queue) (hne : x ≠ c) :
    x ∈ s.queue.eraseIdx i := by
  have hcount := count_erase hc x
  rw [if_neg (Ne.symm hne)] at hcount
  have hpos := List.count_pos_iff.mpr hx
  exact List.count_pos_iff.mp (by omega)

theorem Detects.began (hd : Detects s) (h : Inv s) {i : ℕ} {children : Option (List Name)} {c : Called}
    (hc : s.queue[i]? = some c) : Detects (s.began i children c) := by
  intro b hb
  -- it is one of the peers before, and `c` does not report it
  have hold : b ∈ s.member.peers ∧ lost b ≠ c := by
    have hb : b ∈ (look s.member children c).1.peers := hb
    by_cases ht : c.type = .deleted
    · obtain ⟨a, ha, rfl⟩ := h.reports c (List.mem_of_getElem? hc) ht
      rw [(look_lost children h.ok (h.peers a ha) ha).1] at hb
      exact ⟨Finset.mem_of_mem_erase hb, fun he => Finset.ne_of_mem_erase hb (lost_inj.mp he)⟩
    · rw [(look_other s.member children ht).1] at hb
      exact ⟨hb, fun he => ht (he ▸ rfl)⟩
  exact (hd b hold.1).imp id fun hq => mem_erase_of_ne hc hq hold.2

theorem detects_added (hd : Detects s) (h : Inv s) {l : Bool} {a : Name} (hs : s.stage = .adding l a) (ok : Bool) :
    Detects (s.added l a ok) ↔ ok = true ∧ serverPath a ∈ s.nodes := by
  obtain ⟨-, hnot⟩ := h.adding l a hs
  have hpeers : (s.added l a ok).member.peers = insert a s.member.peers := by
    show (connect s.member l a _).1.peers = _
    rw [(connect_member hnot l _).1]
    rfl
  have hwatch : ∀ p, p ∈ (s.added l a ok).existsWatch ↔ (ok = true ∧ p = serverPath a) ∨ p ∈ s.existsWatch := by
    intro p
    show p ∈ (if ok = true ∧ a ∉ s.member.peers then insert (serverPath a) s.existsWatch else s.existsWatch) ↔ _
    cases ok with
    | false => simp
    | true => simp [hnot]
  unfold Detects
  rw [hpeers]
  refine ⟨fun hall => ?_, fun ⟨hok, hnode⟩ b hb => ?_⟩
  · -- no report about the new peer can wait
    obtain ⟨hnode, hw⟩ := (hall a (Finset.mem_insert_self _ _)).resolve_right fun hq => hnot (h.lost_mem hq)
    refine ⟨?_, hnode⟩
    rcases (hwatch _).mp hw with ⟨hok, -⟩ | hold
    · exact hok
    · obtain ⟨b, hb, he, -⟩ := h.watches _ hold
      exact absurd (serverPath_inj.mp he ▸ hb) hnot
  · rcases Finset.mem_insert.mp hb with rfl | hb
    · exact .inl ⟨hnode, (hwatch _).mpr (.inl ⟨hok, rfl⟩)⟩
    · exact (hd b hb).imp (fun hn => ⟨hn.1, (hwatch _).mpr (.inr hn.2)⟩) id

/-- An event keeps to detection exactly when it is attended. -/
theorem detects_step (hd : Detects s) (h : Inv s) {e : Event} (hs : step s e = some t) : Detects t ↔ Attended s e := by
  have hmore : ∀ (b : Name) (connected : Bool), lost b ∈ s.queue ++ [⟨.session, connected, []⟩] ↔ lost b ∈ s.queue := by
    intro b connected
    rw [List.mem_append]
    exact or_iff_left fun hc => session_type hc rfl
  cases moves_step hs with
  | join a _ hnode => exact iff_of_true (hd.join hnode) trivial
  | leave a _ => exact iff_of_true (hd.leave a) trivial
  | session connected =>
    exact iff_of_true (fun b hb => (hd b hb).imp id (hmore b connected).mpr) trivial
  | expire =>
    refine forall₂_congr fun b _ => ?_
    rw [hmore]
    exact or_iff_right fun hn => Finset.notMem_empty _ hn.2
  | begin i children c hc _ => exact iff_of_true (hd.began h hc) trivial
  | add ok l a hstage =>
    rw [detects_added hd h hstage]
    simp only [Attended, hstage]
  | watch ok => exact iff_of_true hd trivial

/-- **No peer is lost unnoticed.** Servers join and leave at any time, also within
a callback. A client constructed with servers that are there always has each
peer's node watched or its loss reported, in every run whose events are
attended, and every other event breaks this; and the callback for a report
takes that peer out. -/
theorem losses_detected {servers : Finset Name} {addrs : List Name} {rep : ℕ} {ok : Name → Bool}
    (hv : ∀ a ∈ servers, ValidName a) (ha : ∀ a ∈ addrs, a ∈ servers ∧ ok a = true) :
    (∀ s, Trace.Reach (Trace.restrict Attended step) (start servers addrs rep ok) s →
      Detects s ∧ ∀ e t, step s e = some t → (Detects t ↔ Attended s e)) ∧
    ∀ s i children a t, Trace.Reach step (start servers addrs rep ok) s → s.queue[i]? = some (lost a) →
      step s (.begin i children) = some t → a ∈ s.member.peers ∧ t.member.peers = s.member.peers.erase a := by
  have hinv : ∀ s, Trace.Reach step (start servers addrs rep ok) s → Inv s := fun s hs =>
    hs.inv (inv_start hv fun a hm => hv a (ha a hm).1) fun _ _ _ hi hst => hi.step hst
  have hstart : Detects (start servers addrs rep ok) := by
    intro a hm
    have hmem : a ∈ addrs := by simpa [start, Member.construct_eq] using hm
    obtain ⟨hserver, hok⟩ := ha a hmem
    refine .inl ⟨Finset.mem_image_of_mem _ hserver, Finset.mem_image_of_mem _ ?_⟩
    exact List.mem_toFinset.mpr (List.mem_filter.mpr ⟨hmem, hok⟩)
  refine ⟨fun s hs => ?_, fun s i children a t hs hc hst => ?_⟩
  · have hd : Detects s := hs.inv_restrict_of (I := Detects) hinv hstart fun _ _ _ hi hd hok hst =>
      (detects_step hd hi hst).mpr hok
    exact ⟨hd, fun e t hst => detects_step hd (hinv s hs.of_restrict) hst⟩
  · have hi := hinv s hs
    have hpeer := hi.lost_mem (List.mem_of_getElem? hc)
    refine ⟨hpeer, ?_⟩
    cases moves_step hst with
    | begin _ _ c hc' _ =>
      obtain rfl : lost a = c := Option.some.inj (hc.symm.trans hc')
      show (look s.member children (lost a)).1.peers = _
      rw [(look_lost children hi.ok (hi.peers a hpeer) hpeer).1]
      rfl

/-- A server leaves and its place is taken; the old one is back before the new
one is connected, and then the new one leaves. -/
theorem losses_detected_replaced : ∃ s, Trace.Reach (Trace.restrict Attended step)
    (start {['a'], ['b'], ['c']} [['a'], ['b']] 2 fun _ => true) s ∧
      s.member.peers = {['a'], ['c']} ∧ serverPath ['c'] ∉ s.nodes ∧ lost ['c'] ∈ s.queue := by
  obtain ⟨s, hs, hpeers, hnode⟩ : ∃ s, Trace.Reach (Trace.restrict Attended step)
      (start {['a'], ['b'], ['c']} [['a'], ['b']] 2 fun _ => true) s ∧
        s.member.peers = {['a'], ['c']} ∧ serverPath ['c'] ∉ s.nodes :=
    Trace.exists_reach_of_exec
      [.session false, .leave ['b'], .session true, .begin 1 (some [['a'], ['c']]), .join ['b'], .add true,
        .leave ['c']]
      (by decide)
  have hdetect := ((losses_detected (by decide) (by decide)).1 s hs).1 ['c'] (by rw [hpeers]; decide)
  exact ⟨s, hs, hpeers, hnode, hdetect.resolve_left fun hn => hnode hn.1⟩

end Detection
end ComputeSideLog
