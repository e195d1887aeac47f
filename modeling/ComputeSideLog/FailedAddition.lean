/-
# Peers that were reported as not added

`AddPeer` inserts the new peer into `remote_props` and `peers` and sets the
ZooKeeper watch after that; if `zoo_wexists` fails it returns false and the
peer stays (`src/rdma/client.cc`). `replacePeer` then returns the empty
string, which `client.h` documents as "replacement failed", and
`ClientWatcher` returns without `recoverPeer`. Every other error exit comes
before the insertion.

So a failed addition changes nothing exactly if the watch is not what failed
(`addPeer_same_iff`, `replacePeer_same_iff`). Otherwise a peer without the
file's data is among those that `WriteQuorum` counts; `bare` holds these
peers, and it is empty exactly as long as no watch fails
(`failed_addition`).
-/
import Mathlib.Data.Finset.Option
import ComputeSideLog.Connections

namespace ComputeSideLog
namespace Conns

variable {α : Type*}

/-- `peers` and `remote_props` are the same. -/
def Same (s t : Conns α) : Prop := t.peers = s.peers ∧ t.props = s.props ∧ ∀ a ∈ s.props, t.con a = s.con a

variable [DecidableEq α]

/-- The server that `replacePeer` hands to `AddPeer`: the first child that is
none of the peers left, if the old peer was connected and ZooKeeper answers. -/
def offers (s : Conns α) (old : Option α) (ans : Answers α) : Option α :=
  (s.removeOld old).bind fun t => Member.finds ans t.peers

/-- `peers` and `remote_props` differ at most by the removal of the old peer. -/
def SameButOld (s : Conns α) (old : Option α) (t : Conns α) : Prop :=
  s.Same t ∨ ∃ a, old = some a ∧ (s.erase a).Same t

variable {s t : Conns α}

/-! ### One addition -/

/-- **A failed `AddPeer`** changes nothing if and only if the peer was
connected before; it is the watch that fails otherwise. -/
theorem addPeer_same_iff (s : Conns α) (a : α) (qp : QueuePair) (wexists : Bool) :
    ((s.addPeer a qp wexists).2 = false → s.Same (s.addPeer a qp wexists).1) ↔ a ∈ s.peers ∨ wexists = true := by
  constructor
  · intro h
    by_contra hno
    push Not at hno
    obtain ⟨ha, hw⟩ := hno
    rw [addPeer_of_notMem ha] at h
    have hpeers : insert a s.peers = s.peers := (h (Bool.eq_false_iff.mpr hw)).1
    exact ha (hpeers ▸ Finset.mem_insert_self a s.peers)
  · intro h hfail
    by_cases ha : a ∈ s.peers
    · rw [addPeer, if_pos ha]
      exact ⟨rfl, rfl, fun _ _ => rfl⟩
    · rw [addPeer_of_notMem ha] at hfail
      exact absurd (h.resolve_left ha) (Bool.eq_false_iff.mp hfail)

/-- A peer that is connected and reported as failed is one more than the old
peer's removal leaves, unless it is the old peer over the very connection
it had. -/
theorem sameButOld_addPeer_iff {old : Option α} (ht : s.removeOld old = some t) {a : α} (ha : a ∉ t.peers)
    (qp : QueuePair) (wexists : Bool) :
    s.SameButOld old (t.addPeer a qp wexists).1 ↔ a ∈ s.peers ∧ old = some a ∧ s.con a = .ofQp qp := by
  rw [addPeer_of_notMem ha]
  cases old with
  | none =>
    obtain rfl := Option.some.inj ht
    constructor
    · rintro (⟨hpeers, -⟩ | ⟨b, hb, -⟩)
      · exact absurd (hpeers ▸ Finset.mem_insert_self a s.peers) ha
      · cases hb
    · rintro ⟨-, hold, -⟩
      cases hold
  | some b =>
    obtain ⟨hb, ht⟩ := Option.ite_none_right_eq_some.mp ht
    obtain rfl := Option.some.inj ht
    constructor
    · rintro (⟨hpeers, -, hcon⟩ | ⟨c, hc, hpeers, -⟩)
      · -- the added peer was a peer before, so it is the old one
        have hmem : a ∈ s.peers := hpeers ▸ Finset.mem_insert_self a _
        obtain rfl : a = b := by
          by_contra hne
          exact ha (Finset.mem_erase.mpr ⟨hne, hmem⟩)
        have hnew := hcon a hb
        simp only [Function.update_self] at hnew
        exact ⟨hmem, rfl, hnew.symm⟩
      · obtain rfl := Option.some.inj hc
        exact absurd (hpeers ▸ Finset.mem_insert_self a _) ha
    · rintro ⟨hmem, hold, hcon⟩
      obtain rfl := Option.some.inj hold
      refine .inl ⟨Finset.insert_erase hmem, Finset.insert_erase hb, fun c _ => ?_⟩
      by_cases hc : c = b
      · rw [hc, hcon]
        exact Function.update_self b _ _
      · show Function.update (s.erase b).con b _ c = s.con c
        rw [Function.update_of_ne hc]
        exact Function.update_of_ne hc _ _

/-- **A failed `replacePeer`** leaves the client as it was but for the old
peer if and only if no server was handed to `AddPeer` or the watch could be
set. (The last case, the old peer again over the connection it had, needs a
queue pair that is in use.) -/
theorem replacePeer_same_iff (s : Conns α) (old : Option α) (ans : Answers α) (qp : QueuePair) :
    ((s.replacePeer old ans qp).2 = none → s.SameButOld old (s.replacePeer old ans qp).1) ↔
      s.offers old ans = none ∨ ans.wexists = true ∨
        ∃ a ∈ s.peers, s.offers old ans = some a ∧ old = some a ∧ s.con a = .ofQp qp := by
  unfold offers
  rcases replacePeer_cases s old ans qp with ⟨hu, hr⟩ | ⟨u, hu, ⟨hf, hr⟩ | ⟨a, hf, hr⟩⟩
  · refine iff_of_true (fun _ => ?_) (.inl (by rw [hu]; rfl))
    rw [hr]
    exact .inl ⟨rfl, rfl, fun _ _ => rfl⟩
  · refine iff_of_true (fun _ => ?_) (.inl (by rw [hu]; exact hf))
    rw [hr]
    cases old with
    | none => exact .inl ((Option.some.inj hu) ▸ ⟨rfl, rfl, fun _ _ => rfl⟩)
    | some a =>
      obtain ⟨-, hu⟩ := Option.ite_none_right_eq_some.mp hu
      exact .inr ⟨a, rfl, (Option.some.inj hu) ▸ ⟨rfl, rfl, fun _ _ => rfl⟩⟩
  · rw [hr, hu]
    simp only [Option.bind_some, hf, sameButOld_addPeer_iff hu (Member.finds_notMem hf)]
    cases ans.wexists with
    | true => simp
    | false => simp

/-! ### Runs -/

/-- The call of `replacePeer` in an event. -/
def Event.replaces : Event α → Option (Option α × Answers α × QueuePair)
  | .replacePeer old ans qp => some (old, ans, qp)
  | .clientWatcher (.deleted peer) ans qp => some (some peer, ans, qp)
  | .clientWatcher .child ans qp => some (none, ans, qp)
  | _ => none

/-- The peers that an event copies the file to. -/
def copied (s : Conns α) : Event α → Finset α
  | .tryRecover replies order => (order.filter fun a => some a ≠ (recoverSrc replies).1).toFinset
  | .tryLocalRecover stSize order => if 0 < stSize then order.toFinset else ∅
  | .clientWatcher (.deleted peer) ans qp => (s.replacePeer (some peer) ans qp).2.toFinset
  | .clientWatcher .child ans qp => if s.inUse then (s.replacePeer none ans qp).2.toFinset else ∅
  | _ => ∅

/-- The peers that a replacement connects and reports as failed. -/
def unreported (s : Conns α) (old : Option α) (ans : Answers α) (qp : QueuePair) : Finset α :=
  if (s.replacePeer old ans qp).2 = none then
    (s.replacePeer old ans qp).1.props \ ((s.removeOld old).getD s).props
  else ∅

/-- The client, and the peers that were connected by a replacement reported as
failed and got no copy since. -/
structure Watched (α : Type*) where
  conns : Conns α
  bare : Finset α

namespace Watched

/-- The client after the construction. -/
def start (rep : ℕ) (hosts : List (α × QueuePair × Bool)) : Watched α := ⟨construct rep hosts, ∅⟩

/-- The bare peers after an event. -/
def bareAfter (s : Watched α) (e : Event α) : Finset α :=
  match e.replaces with
  | none => s.bare \ s.conns.copied e
  | some (old, ans, qp) => (s.bare \ (s.conns.copied e ∪ old.toFinset)) ∪ s.conns.unreported old ans qp

/-- One call on the client. -/
def step (s : Watched α) (e : Event α) : Option (Watched α) :=
  (s.conns.step e).map fun t => ⟨t, s.bareAfter e⟩

/-- No bare peer has a connection, so `WriteQuorum` counts none. -/
def NoneBare (s : Watched α) : Prop := Disjoint s.bare s.conns.props

end Watched

/-- The watch on a new peer can be set. -/
def WatchSet (s : Conns α) (e : Event α) : Prop :=
  match e.replaces with
  | none => True
  | some (old, ans, _) => s.offers old ans = none ∨ ans.wexists = true

instance (s : Conns α) (e : Event α) : Decidable (s.WatchSet e) :=
  match h : e.replaces with
  | none => .isTrue (by rw [WatchSet, h]; trivial)
  | some (old, ans, qp) => decidable_of_iff (s.offers old ans = none ∨ ans.wexists = true) (by rw [WatchSet, h])

/-- The unreported peer is the one handed to `AddPeer`, if its watch fails. -/
theorem unreported_eq (s : Conns α) (hs : s.Ok) (old : Option α) (ans : Answers α) (qp : QueuePair) :
    s.unreported old ans qp = if ans.wexists then ∅ else (s.offers old ans).toFinset := by
  unfold unreported offers
  rcases replacePeer_cases s old ans qp with ⟨hu, hr⟩ | ⟨u, hu, ⟨hf, hr⟩ | ⟨a, hf, hr⟩⟩
  · simp [hr, hu]
  · simp [hr, hu, hf]
  · have ha : a ∉ u.props := by
      rw [(hs.removeOld hu).keys]
      exact Member.finds_notMem hf
    rw [hr, hu, addPeer_of_notMem (Member.finds_notMem hf)]
    cases ans.wexists with
    | true => simp
    | false => simp [hf, Finset.insert_sdiff_of_notMem u.props ha]

/-- What an event with a replacement leaves is what the replacement leaves. -/
theorem step_of_replaces {e : Event α} {old : Option α} {ans : Answers α} {qp : QueuePair}
    (he : e.replaces = some (old, ans, qp)) (hs : s.step e = some t) : t = (s.replacePeer old ans qp).1 := by
  cases e with
  | replacePeer old' ans' qp' =>
    obtain ⟨rfl, rfl, rfl⟩ : old' = old ∧ ans' = ans ∧ qp' = qp := by simpa [Event.replaces] using he
    exact (Option.some.inj hs).symm
  | clientWatcher n ans' qp' =>
    rw [← Option.some.inj hs, clientWatcher_eq]
    cases n with
    | deleted peer =>
      obtain ⟨rfl, rfl, rfl⟩ : some peer = old ∧ ans' = ans ∧ qp' = qp := by simpa [Event.replaces] using he
      rfl
    | created peer => cases he
    | child =>
      obtain ⟨rfl, rfl, rfl⟩ : none = old ∧ ans' = ans ∧ qp' = qp := by simpa [Event.replaces, eq_comm] using he
      rfl
  | _ => cases he

namespace Watched

variable {s t : Watched α}

theorem conns_step {e : Event α} (hs : s.step e = some t) :
    s.conns.step e = some t.conns ∧ t.bare = s.bareAfter e := by
  obtain ⟨u, hu, rfl⟩ := Option.map_eq_some_iff.mp hs
  exact ⟨hu, rfl⟩

/-- An event whose watch can be set adds no bare peer. -/
theorem bareAfter_of_watchSet (hok : s.conns.Ok) {e : Event α} (he : s.conns.WatchSet e) (hb : s.bare = ∅) :
    s.bareAfter e = ∅ := by
  unfold bareAfter
  unfold WatchSet at he
  cases hr : e.replaces with
  | none => simp [hb]
  | some r =>
    obtain ⟨old, ans, qp⟩ := r
    rw [hr] at he
    have hnone : s.conns.unreported old ans qp = ∅ := by
      rw [unreported_eq s.conns hok]
      rcases he with hoff | hw
      · simp [hoff]
      · simp [hw]
    simp [hb, hnone]

/-- An event whose watch fails leaves a bare peer connected. -/
theorem exists_bare_of_not_watchSet (hok : s.conns.Ok) {e : Event α} (hs : s.step e = some t)
    (he : ¬ s.conns.WatchSet e) : ∃ a ∈ t.bare, a ∈ t.conns.props := by
  obtain ⟨hc, hb⟩ := conns_step hs
  unfold WatchSet at he
  unfold bareAfter at hb
  cases hr : e.replaces with
  | none =>
    rw [hr] at he
    exact absurd trivial he
  | some r =>
    obtain ⟨old, ans, qp⟩ := r
    rw [hr] at he hb
    push Not at he
    obtain ⟨a, ha⟩ := Option.ne_none_iff_exists'.mp he.1
    have hmem : a ∈ s.conns.unreported old ans qp := by
      rw [unreported_eq s.conns hok, if_neg he.2, ha]
      simp
    refine ⟨a, hb ▸ Finset.mem_union_right _ hmem, ?_⟩
    -- an unreported peer has a connection by definition
    rw [step_of_replaces hr hc]
    unfold unreported at hmem
    split at hmem
    · exact (Finset.mem_sdiff.mp hmem).1
    · exact absurd hmem (Finset.notMem_empty a)

theorem ok_of_reach {rep : ℕ} {hosts : List (α × QueuePair × Bool)} (hs : Trace.Reach step (start rep hosts) s) :
    s.conns.Ok :=
  hs.inv (I := fun s => s.conns.Ok) (construct_ok rep hosts) fun _ _ _ h he => h.step (conns_step he).1

/-- While every watch can be set there is no bare peer. -/
theorem bare_of_reach {rep : ℕ} {hosts : List (α × QueuePair × Bool)}
    (hs : Trace.Reach (Trace.restrict (fun s e => s.conns.WatchSet e) step) (start rep hosts) s) : s.bare = ∅ :=
  hs.inv_restrict_of (I := fun s => s.bare = ∅) (fun _ h => ok_of_reach h) rfl fun _ _ _ hok hb he hs =>
    (conns_step hs).2.trans (bareAfter_of_watchSet hok he hb)

end Watched

/-- **A failed addition.** `AddPeer` that returns false changes nothing exactly
if the peer was connected before or the watch could be set; `replacePeer`
that returns the empty string changes nothing but the old peer exactly if
no server was handed to `AddPeer` or the watch could be set. In every run
whose replacements can set their watch no peer that was reported as failed
and got no copy is connected, and in such a run this is the condition on
each event. -/
theorem failed_addition :
    (∀ (s : Conns α) (a : α) (qp : QueuePair) (wexists : Bool),
      ((s.addPeer a qp wexists).2 = false → s.Same (s.addPeer a qp wexists).1) ↔ a ∈ s.peers ∨ wexists = true) ∧
    (∀ (s : Conns α) (old : Option α) (ans : Answers α) (qp : QueuePair),
      ((s.replacePeer old ans qp).2 = none → s.SameButOld old (s.replacePeer old ans qp).1) ↔
        s.offers old ans = none ∨ ans.wexists = true ∨
          ∃ a ∈ s.peers, s.offers old ans = some a ∧ old = some a ∧ s.con a = .ofQp qp) ∧
    ∀ (rep : ℕ) (hosts : List (α × QueuePair × Bool)) (s : Watched α),
      Trace.Reach (Trace.restrict (fun s e => s.conns.WatchSet e) Watched.step) (.start rep hosts) s →
        s.NoneBare ∧ ∀ e t, s.step e = some t → (s.conns.WatchSet e ↔ t.NoneBare) := by
  refine ⟨addPeer_same_iff, replacePeer_same_iff, fun rep hosts s hs => ?_⟩
  have hok := Watched.ok_of_reach hs.of_restrict
  have hbare := Watched.bare_of_reach hs
  refine ⟨?_, fun e t ht => ⟨fun he => ?_, fun hnone => ?_⟩⟩
  · rw [Watched.NoneBare, hbare]
    exact Finset.disjoint_empty_left _
  · rw [Watched.NoneBare, (Watched.conns_step ht).2, Watched.bareAfter_of_watchSet hok he hbare]
    exact Finset.disjoint_empty_left _
  · by_contra he
    obtain ⟨a, ha, hcon⟩ := Watched.exists_bare_of_not_watchSet hok ht he
    exact Finset.disjoint_left.mp hnone ha hcon

/-- Three peers. -/
def threeHosts : List (ℕ × QueuePair × Bool) :=
  [(1, ⟨11, 21, 31⟩, true), (2, ⟨12, 22, 32⟩, true), (3, ⟨13, 23, 33⟩, true)]

/-- A replacement with its watch, and an addition that is refused. -/
theorem failed_addition_three :
    ((construct 3 threeHosts).Same ((construct 3 threeHosts).addPeer 2 ⟨14, 24, 34⟩ false).1) ∧
    ∃ s : Watched ℕ, Trace.Reach (Trace.restrict (fun s e => s.conns.WatchSet e) Watched.step) (.start 3 threeHosts) s ∧
      s.conns.peers = {1, 3, 4} ∧ s.NoneBare := by
  have hrun : ∃ s : Watched ℕ,
      Trace.Reach (Trace.restrict (fun s e => s.conns.WatchSet e) Watched.step) (.start 3 threeHosts) s ∧
        s.conns.peers = {1, 3, 4} :=
    Trace.exists_reach_of_exec [.clientWatcher (.deleted 2) ⟨some [1, 3, 4], true⟩ ⟨14, 24, 34⟩] (by decide)
  obtain ⟨s, hs, hp⟩ := hrun
  exact ⟨(failed_addition.1 _ 2 _ false).mpr (.inl (by decide)) (by decide), s, hs, hp,
    (failed_addition.2.2 3 threeHosts s hs).1⟩

/-- What ZooKeeper answers when peer 2 is gone, the new server 4 is listed and
the watch on it cannot be set. -/
def unwatched : Answers ℕ := ⟨some [1, 3, 4], false⟩

/-- The failed replacement of 2 connects 4, which stays without a copy; a write
that only 1 and 4 have completed is acknowledged. -/
theorem bare_peer_counts :
    ((construct 3 threeHosts).replacePeer (some 2) unwatched ⟨14, 24, 34⟩).2 = none ∧
    ¬ (construct 3 threeHosts).SameButOld (some 2)
      ((construct 3 threeHosts).replacePeer (some 2) unwatched ⟨14, 24, 34⟩).1 ∧
    ∃ s : Watched ℕ, Trace.Reach Watched.step (.start 3 threeHosts) s ∧ 4 ∈ s.bare ∧ 4 ∈ s.conns.props ∧
      (s.conns.con 3).opQueue = 1 := by
  refine ⟨by decide, ?_, Trace.exists_reach_of_exec
    [.setInUse true, .clientWatcher (.deleted 2) unwatched ⟨14, 24, 34⟩, .writeQuorum fun a => if a = 3 then 0 else 1]
    (by decide)⟩
  rintro (⟨hpeers, -⟩ | ⟨a, ha, hpeers, -⟩)
  · exact absurd hpeers (by decide)
  · obtain rfl := Option.some.inj ha
    exact absurd hpeers (by decide)

end Conns
end ComputeSideLog
