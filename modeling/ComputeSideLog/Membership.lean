/-
# Membership under ZooKeeper's watches

Servers join and leave, and ZooKeeper tells a client about it through
one-shot watches: an exists-watch on each peer, set by `AddPeer`, and a
child watch on the server root, set by `watchForPeerJoin`. A watch that
fires is gone and leaves a notice in the queue of the watcher thread, which
runs `ClientWatcher` for it later, when the servers may have changed again.

Two things should hold whatever the order of events. The number of peers
should stay within `rep_factor`, or two quorums need not meet; but a notice
of changed children adds a server without looking at the number. And while
peers are missing, a child watch should be outstanding; but the callback
that finds no new server returns without setting one.

Key definitions: `Zk.State`, `Zk.step`, `Zk.HasRoom`, `Zk.Watched`,
`Zk.StaysInformed`.
Key theorems: `Zk.card_step_iff`, `Zk.membership_bounded`,
`Zk.Informed.step`, `Zk.redundancy_watched`.
-/
import Mathlib.Data.List.Basic
import ComputeSideLog.Lib.Trace
import ComputeSideLog.Watcher

namespace ComputeSideLog
namespace Zk

variable {α : Type*}

/-- The servers under the root, the outstanding watches of one client, the
notices that wait for its watcher thread, and its membership. -/
structure State (α : Type*) where
  servers : Finset α
  existsWatch : Finset α
  childWatch : Bool
  queue : List (Notice α)
  member : Member α

/-- A server joins or leaves, or the watcher thread runs the callback for the
notice at position `i`; `watch` says whether `watchForPeerJoin` succeeds. -/
inductive Event (α : Type*) where
  | join (a : α)
  | leave (a : α)
  | deliver (i : ℕ) (ans : Answers α) (watch : Bool)
  deriving DecidableEq

variable [DecidableEq α]

/-- A change under the root fires the child watch. -/
def State.childNotice (s : State α) : List (Notice α) := if s.childWatch then [.child] else []

/-- The exists-watches after a callback. -/
def State.watches (s : State α) (ans : Answers α) (n : Notice α) : Finset α :=
  match s.member.connects ans n with
  | some a => if ans.wexists then insert a s.existsWatch else s.existsWatch
  | none => s.existsWatch

/-- The state after the callback for `n`. -/
def State.run (s : State α) (ans : Answers α) (watch : Bool) (n : Notice α) : State α :=
  { s with
    existsWatch := s.watches ans n
    childWatch := s.childWatch || (watch && decide (.watchForPeerJoin ∈ (s.member.clientWatcher ans n).2))
    member := (s.member.clientWatcher ans n).1 }

/-- A server joins. -/
def State.join (s : State α) (a : α) : State α :=
  { s with
    servers := insert a s.servers
    queue := s.queue ++ s.childNotice
    childWatch := false }

/-- A server leaves. -/
def State.leave (s : State α) (a : α) : State α :=
  { s with
    servers := s.servers.erase a
    existsWatch := s.existsWatch.erase a
    queue := s.queue ++ (if a ∈ s.existsWatch then [.deleted a] else []) ++ s.childNotice
    childWatch := false }

/-- One event. `zoo_get_children` lists the servers there are, in some order. -/
def step (s : State α) : Event α → Option (State α)
  | .join a => if a ∈ s.servers then none else some (s.join a)
  | .leave a => if a ∈ s.servers then some (s.leave a) else none
  | .deliver i ans watch =>
    if ∀ cs ∈ ans.children, cs.toFinset = s.servers then
      s.queue[i]?.map fun n => { s with queue := s.queue.eraseIdx i }.run ans watch n
    else none

/-- The client right after its construction. -/
def init (servers : Finset α) (addrs : List α) (rep : ℕ) (wexists : α → Bool) : State α where
  servers := servers
  existsWatch := (addrs.filter wexists).toFinset
  childWatch := false
  queue := []
  member := Member.construct addrs rep wexists

/-- What a step can do. -/
theorem step_cases {s t : State α} {ev : Event α} (h : step s ev = some t) :
    (∃ a, ev = .join a ∧ t = s.join a) ∨ (∃ a, ev = .leave a ∧ t = s.leave a) ∨
    ∃ i ans watch n, ev = .deliver i ans watch ∧ s.queue[i]? = some n ∧
      t = { s with queue := s.queue.eraseIdx i }.run ans watch n := by
  cases ev with
  | join a =>
    simp only [step, Option.ite_none_left_eq_some, Option.some.injEq] at h
    exact .inl ⟨a, rfl, h.2.symm⟩
  | leave a =>
    simp only [step, Option.ite_none_right_eq_some, Option.some.injEq] at h
    exact .inr (.inl ⟨a, rfl, h.2.symm⟩)
  | deliver i ans watch =>
    simp only [step, Option.ite_none_right_eq_some, Option.map_eq_some_iff] at h
    obtain ⟨-, n, hn, rfl⟩ := h
    exact .inr (.inr ⟨i, ans, watch, n, rfl, hn, rfl⟩)

variable {s t : State α}

/-- Only callbacks change the membership, and they keep it in order. -/
theorem ok_step (hm : s.member.Ok) {ev : Event α} (h : step s ev = some t) :
    t.member.Ok ∧ t.member.repFactor = s.member.repFactor := by
  obtain ⟨a, -, rfl⟩ | ⟨a, -, rfl⟩ | ⟨i, ans, watch, n, -, -, rfl⟩ := step_cases h
  · exact ⟨hm, rfl⟩
  · exact ⟨hm, rfl⟩
  · exact ⟨hm.clientWatcher ans n, Member.clientWatcher_repFactor hm ans n⟩

/-! ### The number of peers -/

/-- A callback for changed children that finds a new server has room for it. -/
def HasRoom (s : State α) : Event α → Prop
  | .deliver i ans _ => s.queue[i]? = some .child → (Member.finds ans s.member.peers).isSome →
      s.member.peers.card < s.member.repFactor
  | _ => True

instance (s : State α) : ∀ ev, Decidable (HasRoom s ev)
  | .deliver i ans _ => inferInstanceAs (Decidable (s.queue[i]? = some .child →
      (Member.finds ans s.member.peers).isSome → s.member.peers.card < s.member.repFactor))
  | .join _ | .leave _ => instDecidableTrue

/-- A callback for a lost peer does not add to the number of peers. -/
theorem deleted_card_le {m : Member α} (hm : m.Ok) (ans : Answers α) (peer : α) :
    (m.clientWatcher ans (.deleted peer)).1.peers.card ≤ m.peers.card := by
  rcases Member.deleted_cases hm ans peer with ⟨-, -, h⟩ | ⟨hp, -, -, h⟩ | ⟨a, hp, hf, -, h⟩
  · rw [h]
  · rw [h, Member.remove_card hp]
    exact Nat.sub_le _ _
  · have hpos := Finset.card_pos.mpr ⟨peer, hp⟩
    rw [h, Member.add_card (Member.finds_notMem hf), Member.remove_card hp]
    omega

/-- The bound survives a step exactly when the step has room. -/
theorem card_step_iff (hm : s.member.Ok) (h : s.member.peers.card ≤ s.member.repFactor) {ev : Event α}
    (hs : step s ev = some t) : t.member.peers.card ≤ s.member.repFactor ↔ HasRoom s ev := by
  obtain ⟨a, rfl, rfl⟩ | ⟨a, rfl, rfl⟩ | ⟨i, ans, watch, n, rfl, hn, rfl⟩ := step_cases hs
  · exact iff_of_true h trivial
  · exact iff_of_true h trivial
  · show (s.member.clientWatcher ans n).1.peers.card ≤ _ ↔ (s.queue[i]? = some .child → _)
    rw [hn]
    cases n with
    | deleted peer => exact iff_of_true ((deleted_card_le hm ans peer).trans h) (fun hc => by simp at hc)
    | created peer => exact iff_of_true h (fun hc => by simp at hc)
    | child =>
      rcases Member.child_cases ans s.member with ⟨hf, hw⟩ | ⟨a, hf, hw⟩
      · rw [hw, hf]
        exact iff_of_true h (fun _ hc => by simp at hc)
      · rw [hw, hf, Member.add_card (Member.finds_notMem hf)]
        simp only [Option.isSome_some, forall_const]
        omega

/-- **When the membership stays within the replication factor.** A client
constructed with at most `rep_factor` peers keeps to it, and any two quorums
of its peers meet, in every run in which a callback for changed children
finds a new server only while peers are missing. A callback that finds one
otherwise exceeds the factor. -/
theorem membership_bounded (servers : Finset α) (addrs : List α) (rep : ℕ) (wexists : α → Bool)
    (hstart : addrs.toFinset.card ≤ rep) :
    (∀ s, Trace.Reach (Trace.restrict HasRoom step) (init servers addrs rep wexists) s →
      s.member.peers.card ≤ rep ∧ ∀ A ⊆ s.member.peers, ∀ B ⊆ s.member.peers,
        rep / 2 < A.card → rep / 2 < B.card → (A ∩ B).Nonempty) ∧
    ∀ s ev t, Trace.Reach (Trace.restrict HasRoom step) (init servers addrs rep wexists) s →
      step s ev = some t → ¬ HasRoom s ev → rep < t.member.peers.card := by
  have hall : ∀ s, Trace.Reach (Trace.restrict HasRoom step) (init servers addrs rep wexists) s →
      s.member.Ok ∧ s.member.repFactor = rep ∧ s.member.peers.card ≤ s.member.repFactor := by
    intro s hs
    refine hs.inv_restrict (I := fun s => s.member.Ok ∧ s.member.repFactor = rep ∧
      s.member.peers.card ≤ s.member.repFactor) ?_ ?_
    · have hm := Member.construct_ok addrs rep wexists
      refine ⟨hm, ?_, ?_⟩
      · simp [init, Member.construct_eq]
      · simpa [init, Member.construct_eq] using hstart
    · rintro s ev t ⟨hm, hrep, hle⟩ hok hst
      obtain ⟨hm', hrep'⟩ := ok_step hm hst
      exact ⟨hm', hrep'.trans hrep, hrep' ▸ (card_step_iff hm hle hst).mpr hok⟩
  refine ⟨fun s hs => ?_, fun s ev t hs hst hno => ?_⟩
  · obtain ⟨-, hrep, hle⟩ := hall s hs
    refine ⟨hrep ▸ hle, fun A hA B hB hcA hcB => ?_⟩
    refine Finset.inter_nonempty_of_card_lt_card_add_card hA hB ?_
    omega
  · obtain ⟨hm, hrep, hle⟩ := hall s hs
    rw [← hrep]
    exact not_le.mp fun hc => hno ((card_step_iff hm hle hst).mp hc)

/-- One of two peers leaves and is replaced. -/
theorem membership_bounded_replaced : ∃ s : State ℕ,
    Trace.Reach (Trace.restrict HasRoom step) (init {1, 2, 3} [1, 2] 2 fun _ => true) s ∧
      s.member.peers = {1, 3} ∧ s.member.peers.card ≤ 2 := by
  obtain ⟨s, hs, hp⟩ : ∃ s : State ℕ,
      Trace.Reach (Trace.restrict HasRoom step) (init {1, 2, 3} [1, 2] 2 fun _ => true) s ∧
        s.member.peers = {1, 3} :=
    Trace.exists_reach_of_exec [.leave 2, .deliver 0 ⟨some [1, 3], true⟩ true] (by decide)
  have hbound := membership_bounded {1, 2, 3} [1, 2] 2 (fun _ => true) (by decide)
  exact ⟨s, hs, hp, (hbound.1 s hs).1⟩

/-- The only peer leaves; its successor is connected, but the watch on it cannot
be set, so the replacement counts as failed and the next join is added. -/
theorem membership_exceeds : ¬ ∀ s : State ℕ, Trace.Reach step (init {1, 2} [1] 1 fun _ => true) s →
    s.member.peers.card ≤ 1 := by
  intro h
  obtain ⟨s, hs, hbad⟩ : ∃ s : State ℕ, Trace.Reach step (init {1, 2} [1] 1 fun _ => true) s ∧
      ¬ s.member.peers.card ≤ 1 :=
    Trace.exists_reach_of_exec [.leave 1, .deliver 0 ⟨some [2], false⟩ true, .join 3,
      .deliver 0 ⟨some [2, 3], true⟩ true] (by decide)
  exact hbad (h s hs)

/-! ### The watch for joins -/

/-- If nothing is pending and peers are missing, a child watch is outstanding. -/
def Watched (s : State α) : Prop :=
  s.queue = [] → s.member.peers.card < s.member.repFactor → s.childWatch = true

instance (s : State α) : Decidable (Watched s) := inferInstanceAs (Decidable (_ → _ → _))

/-- Every call to ZooKeeper during a callback succeeds. -/
def Successful (_ : State α) : Event α → Prop
  | .deliver _ ans watch => ans.children.isSome ∧ ans.wexists = true ∧ watch = true
  | _ => True

instance (s : State α) : ∀ ev, Decidable (Successful s ev)
  | .deliver _ ans watch => inferInstanceAs (Decidable (ans.children.isSome ∧ ans.wexists = true ∧ watch = true))
  | .join _ | .leave _ => instDecidableTrue

/-- A callback for changed children that finds no new server runs only while a
child watch is outstanding, another such notice waits, or no peer is
missing. -/
def StaysInformed (s : State α) : Event α → Prop
  | .deliver i ans _ => s.queue[i]? = some .child → Member.finds ans s.member.peers = none →
      s.childWatch = true ∨ .child ∈ s.queue.eraseIdx i ∨ s.member.repFactor ≤ s.member.peers.card
  | _ => True

instance (s : State α) : ∀ ev, Decidable (StaysInformed s ev)
  | .deliver i ans _ => inferInstanceAs (Decidable (s.queue[i]? = some .child →
      Member.finds ans s.member.peers = none →
      s.childWatch = true ∨ .child ∈ s.queue.eraseIdx i ∨ s.member.repFactor ≤ s.member.peers.card))
  | .join _ | .leave _ => instDecidableTrue

/-- The invariant: while peers are missing, a child watch is outstanding or its
notice waits. -/
def Informed (s : State α) : Prop :=
  s.member.peers.card < s.member.repFactor → s.childWatch = true ∨ .child ∈ s.queue

omit [DecidableEq α] in
theorem Informed.watched (h : Informed s) : Watched s := by
  intro hq hlt
  rcases h hlt with hw | hc
  · exact hw
  · rw [hq] at hc
    exact absurd hc (by simp)

omit [DecidableEq α] in
/-- A change under the root turns an outstanding child watch into its notice. -/
theorem mem_childNotice (h : s.childWatch = true ∨ .child ∈ s.queue) (l : List (Notice α)) :
    .child ∈ s.queue ++ l ++ s.childNotice := by
  unfold State.childNotice
  rcases h with hw | hc
  · simp [hw]
  · exact List.mem_append_left _ (List.mem_append_left _ hc)

omit [DecidableEq α] in
/-- A failed replacement sets the child watch. -/
theorem watch_mem_suspends (m : Member α) : .watchForPeerJoin ∈ m.suspends :=
  List.mem_append_right _ (List.mem_singleton.mpr rfl)

omit [DecidableEq α] in
/-- A join that leaves peers missing sets it too. -/
theorem watch_mem_joined {m : Member α} (a : α) (h : m.peers.card < m.repFactor) :
    .watchForPeerJoin ∈ m.joined a := by
  unfold Member.joined
  rw [if_pos h]
  exact List.mem_append_right _ (List.mem_singleton.mpr rfl)

omit [DecidableEq α] in
/-- Removing a notice that is not of changed children keeps those that are. -/
theorem child_mem_eraseIdx {q : List (Notice α)} {i : ℕ} {n : Notice α} (hn : q[i]? = some n) (hne : n ≠ .child)
    (h : .child ∈ q) : .child ∈ q.eraseIdx i := by
  obtain ⟨j, hj⟩ := List.mem_iff_getElem?.mp h
  refine List.mem_eraseIdx_iff_getElem?.mpr ⟨j, ?_, hj⟩
  rintro rfl
  rw [hn] at hj
  exact hne (Option.some.inj hj)

theorem Informed.step (h : Informed s) (hm : s.member.Ok) {ev : Event α} (hok : Successful s ev)
    (hcond : StaysInformed s ev) (hs : Zk.step s ev = some t) : Informed t := by
  obtain ⟨a, rfl, rfl⟩ | ⟨a, rfl, rfl⟩ | ⟨i, ans, watch, n, rfl, hn, rfl⟩ := step_cases hs
  · intro hlt
    have hmem := mem_childNotice (h hlt) []
    rw [List.append_nil] at hmem
    exact .inr hmem
  · exact fun hlt => .inr (mem_childNotice (h hlt) _)
  · obtain ⟨-, hwe, rfl⟩ := hok
    intro hlt
    show (s.childWatch || (true && decide _)) = true ∨ .child ∈ s.queue.eraseIdx i
    change (s.member.clientWatcher ans n).1.peers.card < (s.member.clientWatcher ans n).1.repFactor at hlt
    cases n with
    | created peer =>
      rcases h hlt with hw | hc
      · exact .inl (by rw [hw]; rfl)
      · exact .inr (child_mem_eraseIdx hn (by simp) hc)
    | deleted peer =>
      rcases Member.deleted_cases hm ans peer with ⟨-, -, hw⟩ | ⟨-, -, -, hw⟩ | ⟨a, hp, hf, -, hw⟩
      · refine .inl ?_
        rw [hw, decide_eq_true (watch_mem_suspends _)]
        simp
      · refine .inl ?_
        rw [hw, decide_eq_true (watch_mem_suspends _)]
        simp
      · -- the number of peers is what it was
        have hpos := Finset.card_pos.mpr ⟨peer, hp⟩
        rw [hw, Member.add_card (Member.finds_notMem hf), Member.remove_card hp, Nat.sub_add_cancel hpos] at hlt
        rcases h hlt with hcw | hc
        · exact .inl (by rw [hcw]; rfl)
        · exact .inr (child_mem_eraseIdx hn (by simp) hc)
    | child =>
      rcases Member.child_cases ans s.member with ⟨hf, hw⟩ | ⟨a, hf, hw⟩
      · rw [hw] at hlt
        rcases hcond hn hf with hcw | hc | hge
        · exact .inl (by rw [hcw]; rfl)
        · exact .inr hc
        · exact absurd hlt (not_lt.mpr hge)
      · refine .inl ?_
        rw [hw] at hlt ⊢
        rw [if_pos hwe, decide_eq_true (watch_mem_joined a hlt)]
        simp

/-- **When reduced redundancy is always being watched.** With successful calls,
a client constructed with `rep_factor` peers has a child watch outstanding
whenever peers are missing and nothing is pending, in every run in which a
callback finds no new server only while it is still informed; a callback
that does otherwise and ends the queue leaves it uninformed. -/
theorem redundancy_watched (servers : Finset α) (addrs : List α) (rep : ℕ) (wexists : α → Bool)
    (hstart : addrs.toFinset.card = rep) :
    (∀ s, Trace.Reach (Trace.restrict StaysInformed (Trace.restrict Successful step))
      (init servers addrs rep wexists) s → Watched s) ∧
    ∀ s ev t, Trace.Reach (Trace.restrict StaysInformed (Trace.restrict Successful step))
      (init servers addrs rep wexists) s → Trace.restrict Successful step s ev = some t →
      ¬ StaysInformed s ev → t.queue = [] → ¬ Watched t := by
  have hall : ∀ s, Trace.Reach (Trace.restrict StaysInformed (Trace.restrict Successful step))
      (init servers addrs rep wexists) s → s.member.Ok ∧ Informed s := by
    intro s hs
    refine hs.inv_restrict (I := fun s => s.member.Ok ∧ Informed s) ⟨Member.construct_ok addrs rep wexists, ?_⟩ ?_
    · intro hlt
      simp only [init, Member.construct_eq, hstart, lt_irrefl] at hlt
    · rintro s ev t ⟨hm, hinf⟩ hcond hst
      obtain ⟨hok, hst⟩ := Trace.restrict_eq_some.mp hst
      exact ⟨(ok_step hm hst).1, hinf.step hm hok hcond hst⟩
  refine ⟨fun s hs => (hall s hs).2.watched, fun s ev t hs hst hno hq hw => ?_⟩
  obtain ⟨-, hst⟩ := Trace.restrict_eq_some.mp hst
  obtain ⟨a, rfl, -⟩ | ⟨a, rfl, -⟩ | ⟨i, ans, watch, n, rfl, hn, rfl⟩ := step_cases hst
  · exact hno trivial
  · exact hno trivial
  · simp only [StaysInformed, Classical.not_imp, not_or, not_le] at hno
    obtain ⟨hchild, hf, hcw, hmem, hlt⟩ := hno
    rw [hn] at hchild
    cases Option.some.inj hchild
    rcases Member.child_cases ans s.member with ⟨-, hcb⟩ | ⟨a, hf', -⟩
    · have hset := hw hq (by
        show (s.member.clientWatcher ans .child).1.peers.card < (s.member.clientWatcher ans .child).1.repFactor
        rwa [hcb])
      change (s.childWatch || (watch && decide (_ ∈ (s.member.clientWatcher ans .child).2))) = true at hset
      rw [hcb] at hset
      simp [hcw] at hset
    · rw [hf] at hf'
      cases hf'

/-- A peer leaves without replacement, and the client waits for the next join. -/
theorem redundancy_watched_reduced : ∃ s : State ℕ,
    Trace.Reach (Trace.restrict StaysInformed (Trace.restrict Successful step))
      (init {1, 2} [1, 2] 2 fun _ => true) s ∧ (s.queue = [] ∧ s.member.peers = {1}) ∧ Watched s := by
  obtain ⟨s, hs, hp⟩ : ∃ s : State ℕ,
      Trace.Reach (Trace.restrict StaysInformed (Trace.restrict Successful step))
        (init {1, 2} [1, 2] 2 fun _ => true) s ∧ (s.queue = [] ∧ s.member.peers = {1}) :=
    Trace.exists_reach_of_exec [.leave 2, .deliver 0 ⟨some [1], true⟩ true] (by decide)
  have hwatched := redundancy_watched {1, 2} [1, 2] 2 (fun _ => true) (by decide)
  exact ⟨s, hs, hp, hwatched.1 s hs⟩

/-- A peer leaves without replacement; a server joins and leaves again before the
callback for it runs, and no later join is noticed. -/
theorem redundancy_unwatched : ¬ ∀ s : State ℕ,
    Trace.Reach (Trace.restrict Successful step) (init {1, 2} [1, 2] 2 fun _ => true) s → Watched s := by
  intro h
  obtain ⟨s, hs, hbad⟩ : ∃ s : State ℕ,
      Trace.Reach (Trace.restrict Successful step) (init {1, 2} [1, 2] 2 fun _ => true) s ∧ ¬ Watched s :=
    Trace.exists_reach_of_exec [.leave 2, .deliver 0 ⟨some [1], true⟩ true, .join 3, .leave 3,
      .deliver 0 ⟨some [1], true⟩ true] (by decide)
  exact hbad (h s hs)

end Zk
end ComputeSideLog
