/-
# The client watcher

`ClientWatcher` is the callback by which a client learns from ZooKeeper that
a peer is gone or that the set of servers has changed
(`src/rdma/client.cc`). It replaces the peer, or adds one, through
`replacePeer` and `AddPeer`; if that fails it may suspend writes by taking
`recover_lock` and always asks to be told of the next join, and a peer that
joins may end the suspension.

`clientWatcher` is one callback as a function: the membership after it and
the calls it makes, in order. What ZooKeeper answers is an argument. An
address is taken from an arbitrary type, and no address is the empty
string.

Key definitions: `Member`, `Member.addPeer`, `Member.replacePeer`,
`Member.clientWatcher`, `Member.Replaces`, `Member.finds`,
`Member.construct`.
Key theorems: `Member.deleted_cases`, `Member.child_cases`,
`Member.construct_eq`.
-/
import Mathlib.Data.Finset.Card

namespace ComputeSideLog

/-- What `ClientWatcher` is called for: the node of a peer is deleted or
created, or the children of the server root have changed. -/
inductive Notice (α : Type*) where
  | deleted (peer : α)
  | created (peer : α)
  | child
  deriving DecidableEq, Repr

/-- What ZooKeeper answers during a callback: the children of the server root,
unless `zoo_get_children` fails, and whether `zoo_wexists` succeeds. -/
structure Answers (α : Type*) where
  children : Option (List α)
  wexists : Bool
  deriving DecidableEq, Repr

/-- The calls of a callback that others can see. -/
inductive Act (α : Type*) where
  | lock
  | unlock
  | watchForPeerJoin
  | recoverPeer (peer : α)
  | updateClientZKNode (peers : Finset α)
  deriving DecidableEq

/-- The membership of a client: `peers`, the keys of `remote_props`,
`rep_factor` and `in_use`. -/
structure Member (α : Type*) where
  peers : Finset α
  props : Finset α
  repFactor : ℕ
  inUse : Bool
  deriving DecidableEq

namespace Member

variable {α : Type*} [DecidableEq α]

/-- `AddPeer`: the peer is connected before the watch is set. -/
def addPeer (m : Member α) (a : α) (wexists : Bool) : Member α × Bool :=
  if a ∈ m.peers then (m, false)
  else ({ m with props := insert a m.props, peers := insert a m.peers }, wexists)

/-- The removal in `replacePeer`; `none` if the old peer is not connected. -/
def removeOld (m : Member α) : Option α → Option (Member α)
  | none => some m
  | some a => if a ∈ m.props then some { m with props := m.props.erase a, peers := m.peers.erase a } else none

/-- `replacePeer` for an old peer, if any: the membership after it and the new
peer, `none` if the replacement failed. -/
def replacePeer (m : Member α) (old : Option α) (ans : Answers α) : Member α × Option α :=
  match m.removeOld old with
  | none => (m, none)
  | some m =>
    match ans.children.bind fun cs => cs.find? fun a => a ∉ m.peers with
    | none => (m, none)
    | some a =>
      let (m, ok) := m.addPeer a ans.wexists
      (m, if ok then some a else none)

/-- The members after a failed replacement decide whether writes are suspended. -/
def suspends (m : Member α) : List (Act α) :=
  (if m.peers.card ≤ m.repFactor / 2 then [.lock] else []) ++ [.watchForPeerJoin]

/-- What a new member after a join leads to. -/
def joined (m : Member α) (a : α) : List (Act α) :=
  (if m.inUse then [.recoverPeer a] else []) ++
    (if m.repFactor / 2 < m.peers.card then [.unlock] else []) ++
    (if m.peers.card < m.repFactor then [.watchForPeerJoin] else [])

/-- `ClientWatcher` in the connected state. -/
def clientWatcher (m : Member α) (ans : Answers α) : Notice α → Member α × List (Act α)
  | .deleted peer =>
    match m.replacePeer (some peer) ans with
    | (m, none) => (m, m.suspends)
    | (m, some a) => (m, [.recoverPeer a, .updateClientZKNode m.peers])
  | .child =>
    match m.replacePeer none ans with
    | (m, none) => (m, [])
    | (m, some a) => (m, m.joined a)
  | .created _ => (m, [])

/-! ### What a callback can do -/

/-- The server that `replacePeer` would take: the first child that is not
among `peers`. -/
def finds (ans : Answers α) (peers : Finset α) : Option α :=
  ans.children.bind fun cs => cs.find? fun a => a ∉ peers

/-- The peer that a callback connects, if any. -/
def connects (m : Member α) (ans : Answers α) : Notice α → Option α
  | .deleted peer => if peer ∈ m.props then finds ans (m.peers.erase peer) else none
  | .child => finds ans m.peers
  | .created _ => none

/-- The replacement of a lost peer succeeds: it is connected, there is a server
to take its place, and the watch can be set. -/
def Replaces (m : Member α) (peer : α) (ans : Answers α) : Prop :=
  peer ∈ m.props ∧ (finds ans (m.peers.erase peer)).isSome ∧ ans.wexists = true

instance (m : Member α) (peer : α) (ans : Answers α) : Decidable (m.Replaces peer ans) :=
  inferInstanceAs (Decidable (_ ∧ _ ∧ _))

/-- `remote_props` has an entry for each of the peers, and no other. -/
def Ok (m : Member α) : Prop := m.props = m.peers

theorem finds_notMem {ans : Answers α} {peers : Finset α} {a : α} (h : finds ans peers = some a) :
    a ∉ peers := by
  unfold finds at h
  rw [Option.bind_eq_some_iff] at h
  obtain ⟨cs, -, hfind⟩ := h
  simpa using List.find?_some hfind

theorem addPeer_of_notMem {m : Member α} {a : α} (h : a ∉ m.peers) (wexists : Bool) :
    m.addPeer a wexists = ({ m with props := insert a m.props, peers := insert a m.peers }, wexists) := by
  unfold addPeer
  rw [if_neg h]

/-- The membership with `a` added. -/
def add (m : Member α) (a : α) : Member α := { m with props := insert a m.props, peers := insert a m.peers }

/-- The membership without `a`. -/
def remove (m : Member α) (a : α) : Member α := { m with props := m.props.erase a, peers := m.peers.erase a }

variable {m : Member α}

theorem Ok.add (h : m.Ok) (a : α) : (m.add a).Ok := congrArg (insert a) h

theorem Ok.remove (h : m.Ok) (a : α) : (m.remove a).Ok := congrArg (Finset.erase · a) h

theorem add_card {a : α} (h : a ∉ m.peers) : (m.add a).peers.card = m.peers.card + 1 :=
  Finset.card_insert_of_notMem h

theorem remove_card {a : α} (h : a ∈ m.peers) : (m.remove a).peers.card = m.peers.card - 1 :=
  Finset.card_erase_of_mem h

/-- `replacePeer` once the old peer is out: no server is found, or one is
added, and the watch decides. -/
theorem replacePeer_cases (m : Member α) (ans : Answers α) (old : Option α) {m' : Member α}
    (h : m.removeOld old = some m') :
    (finds ans m'.peers = none ∧ m.replacePeer old ans = (m', none)) ∨
    ∃ a, finds ans m'.peers = some a ∧
      m.replacePeer old ans = (m'.add a, if ans.wexists then some a else none) := by
  unfold replacePeer
  rw [h]
  change (_ ∧ (match finds ans m'.peers with | none => _ | some a => _) = _) ∨ _
  cases hf : finds ans m'.peers with
  | none => exact .inl ⟨rfl, rfl⟩
  | some a =>
    refine .inr ⟨a, rfl, ?_⟩
    show (match finds ans m'.peers with | none => _ | some a => _) = _
    rw [hf]
    simp only [addPeer_of_notMem (finds_notMem hf)]
    rfl

/-- **What a callback for a lost peer does.** The peer is unknown and nothing
changes; or it is removed and no server is found, or one is found and
added, with or without its watch. -/
theorem deleted_cases (hm : m.Ok) (ans : Answers α) (peer : α) :
    (peer ∉ m.peers ∧ ¬ m.Replaces peer ans ∧ m.clientWatcher ans (.deleted peer) = (m, m.suspends)) ∨
    (peer ∈ m.peers ∧ ¬ m.Replaces peer ans ∧ finds ans (m.remove peer).peers = none ∧
      m.clientWatcher ans (.deleted peer) = (m.remove peer, (m.remove peer).suspends)) ∨
    ∃ a, peer ∈ m.peers ∧ finds ans (m.remove peer).peers = some a ∧ (m.Replaces peer ans ↔ ans.wexists = true) ∧
      m.clientWatcher ans (.deleted peer) = ((m.remove peer).add a,
        if ans.wexists then [.recoverPeer a, .updateClientZKNode ((m.remove peer).add a).peers]
        else ((m.remove peer).add a).suspends) := by
  unfold Replaces
  by_cases hp : peer ∈ m.peers
  · have hprops : peer ∈ m.props := by rwa [hm]
    have hold : m.removeOld (some peer) = some (m.remove peer) := if_pos hprops
    right
    rcases replacePeer_cases m ans _ hold with ⟨hf, hr⟩ | ⟨a, hf, hr⟩
    · refine .inl ⟨hp, fun hc => ?_, hf, by simp only [clientWatcher, hr]⟩
      have hsome := hc.2.1
      change (finds ans (m.remove peer).peers).isSome at hsome
      rw [hf] at hsome
      exact absurd hsome (by simp)
    · refine .inr ⟨a, hp, hf, ?_, ?_⟩
      · change _ ∧ (finds ans (m.remove peer).peers).isSome ∧ _ ↔ _
        rw [hf]
        exact ⟨fun hc => hc.2.2, fun hw => ⟨hprops, rfl, hw⟩⟩
      · cases hw : ans.wexists with
        | true => simp only [clientWatcher, hr, hw, if_true]
        | false => simp only [clientWatcher, hr, hw, Bool.false_eq_true, if_false]
  · have hprops : peer ∉ m.props := by rwa [hm]
    have hold : m.removeOld (some peer) = none := if_neg hprops
    refine .inl ⟨hp, fun hc => hprops hc.1, ?_⟩
    simp only [clientWatcher, replacePeer, hold]

/-- **What a callback for changed children does.** No new server is found and
nothing happens; or one is added, and the watch decides whether more
happens. -/
theorem child_cases (ans : Answers α) (m : Member α) :
    (finds ans m.peers = none ∧ m.clientWatcher ans .child = (m, [])) ∨
    ∃ a, finds ans m.peers = some a ∧
      m.clientWatcher ans .child = (m.add a, if ans.wexists then (m.add a).joined a else []) := by
  rcases replacePeer_cases m ans none rfl with ⟨hf, hr⟩ | ⟨a, hf, hr⟩
  · exact .inl ⟨hf, by simp only [clientWatcher, hr]⟩
  · refine .inr ⟨a, hf, ?_⟩
    cases hw : ans.wexists with
    | true => simp only [clientWatcher, hr, hw, if_true]
    | false => simp only [clientWatcher, hr, hw, Bool.false_eq_true, if_false]

/-- A callback keeps the entries in step with the peers. -/
theorem Ok.clientWatcher (hm : m.Ok) (ans : Answers α) (n : Notice α) : (m.clientWatcher ans n).1.Ok := by
  cases n with
  | deleted peer =>
    rcases deleted_cases hm ans peer with ⟨-, -, h⟩ | ⟨-, -, -, h⟩ | ⟨a, -, -, -, h⟩
    · rw [h]
      exact hm
    · rw [h]
      exact hm.remove peer
    · rw [h]
      exact (hm.remove peer).add a
  | created peer => exact hm
  | child =>
    rcases child_cases ans m with ⟨-, h⟩ | ⟨a, -, h⟩
    · rw [h]
      exact hm
    · rw [h]
      exact hm.add a

/-- `rep_factor` is set once. -/
theorem clientWatcher_repFactor (hm : m.Ok) (ans : Answers α) (n : Notice α) :
    (m.clientWatcher ans n).1.repFactor = m.repFactor := by
  cases n with
  | deleted peer =>
    rcases deleted_cases hm ans peer with ⟨-, -, h⟩ | ⟨-, -, -, h⟩ | ⟨a, -, -, -, h⟩
    · rw [h]
    · rw [h]
      rfl
    · rw [h]
      rfl
  | created peer => rfl
  | child =>
    rcases child_cases ans m with ⟨-, h⟩ | ⟨a, -, h⟩
    · rw [h]
    · rw [h]
      rfl

/-! ### Construction -/

/-- The constructor: `init` calls `AddPeer` for every address and ignores what
it returns. -/
def construct (addrs : List α) (rep : ℕ) (wexists : α → Bool) : Member α :=
  addrs.foldl (fun m a => (m.addPeer a (wexists a)).1) ⟨∅, ∅, rep, false⟩

theorem construct_eq (addrs : List α) (rep : ℕ) (wexists : α → Bool) :
    construct addrs rep wexists = ⟨addrs.toFinset, addrs.toFinset, rep, false⟩ := by
  suffices h : ∀ (as : List α) (ps : Finset α),
      as.foldl (fun m a => (m.addPeer a (wexists a)).1) (⟨ps, ps, rep, false⟩ : Member α) =
        ⟨ps ∪ as.toFinset, ps ∪ as.toFinset, rep, false⟩ by
    rw [construct, h addrs ∅, Finset.empty_union]
  intro as
  induction as with
  | nil => intro ps; simp
  | cons a as ih =>
    intro ps
    have hadd : ((⟨ps, ps, rep, false⟩ : Member α).addPeer a (wexists a)).1 =
        ⟨insert a ps, insert a ps, rep, false⟩ := by
      unfold addPeer
      by_cases ha : a ∈ ps
      · rw [if_pos ha, Finset.insert_eq_of_mem ha]
      · rw [if_neg ha]
    rw [List.foldl_cons, hadd, ih, List.toFinset_cons, Finset.insert_union, Finset.union_insert]

theorem construct_ok (addrs : List α) (rep : ℕ) (wexists : α → Bool) : (construct addrs rep wexists).Ok := by
  rw [construct_eq]
  rfl

end Member
end ComputeSideLog
