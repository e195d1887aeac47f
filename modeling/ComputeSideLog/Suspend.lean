/-
# Suspending writes

With at most `rep_factor / 2` peers no write can gather a quorum, and the
watcher then keeps `recover_lock`, which every `WriteQuorum` needs. It takes
the lock in the branch for a lost peer and gives it back in the branch for a
join, each time by the number of peers alone: nothing records whether it
holds the lock.

`step` is the callbacks of one client with the watcher's hold on the lock,
and `misuse` remembers a `lock` while it held it or an `unlock` while it did
not. The protocol (`Protocol`) is kept exactly as long as losses without
replacement come while writes run, and joins while they are suspended
(`InTurn`).

Key definitions: `Suspend.State`, `Suspend.step`, `Suspend.Protocol`,
`Suspend.InTurn`.
Key theorems: `Suspend.protocol_step_iff`, `Suspend.protocol_kept`.
-/
import ComputeSideLog.Lib.Trace
import ComputeSideLog.Watcher

namespace ComputeSideLog
namespace Suspend

variable {α : Type*}

/-- The membership, whether the watcher holds `recover_lock`, and whether it
ever called `lock` while holding it or `unlock` without. -/
structure State (α : Type*) where
  member : Member α
  held : Bool
  misuse : Bool

/-- A callback, or a change of `in_use` between callbacks by the application. -/
inductive Event (α : Type*) where
  | callback (ans : Answers α) (n : Notice α)
  | setInUse (b : Bool)
  deriving DecidableEq

/-- What a call of the callback does to the lock. -/
def State.act (s : State α) : Act α → State α
  | .lock => { s with held := true, misuse := s.misuse || s.held }
  | .unlock => { s with held := false, misuse := s.misuse || !s.held }
  | _ => s

/-- The client right after its construction. -/
def init (m : Member α) : State α := ⟨m, false, false⟩

/-- `recover_lock` is used as a lock, and the watcher holds it exactly while
there are too few peers for a quorum. -/
def Protocol (s : State α) : Prop :=
  s.misuse = false ∧ (s.held = true ↔ s.member.peers.card ≤ s.member.repFactor / 2)

instance (s : State α) : Decidable (Protocol s) := inferInstanceAs (Decidable (_ ∧ _))

variable [DecidableEq α]

/-- One event. -/
def step (s : State α) : Event α → Option (State α)
  | .callback ans n =>
    some ((s.member.clientWatcher ans n).2.foldl State.act { s with member := (s.member.clientWatcher ans n).1 })
  | .setInUse b => some { s with member := { s.member with inUse := b } }

/-- A peer is lost without replacement only while writes run; a server that
joins is found only while they are suspended, and its watch can be set if it
ends the suspension. -/
def InTurn (s : State α) : Event α → Prop
  | .callback ans (.deleted peer) =>
    s.member.Replaces peer ans ∨ s.member.repFactor / 2 < s.member.peers.card
  | .callback ans .child => (Member.finds ans s.member.peers).isSome →
      if ans.wexists then s.member.peers.card ≤ s.member.repFactor / 2
      else s.member.peers.card ≠ s.member.repFactor / 2
  | _ => True

instance (s : State α) : ∀ ev, Decidable (InTurn s ev)
  | .callback ans (.deleted peer) =>
    inferInstanceAs (Decidable (s.member.Replaces peer ans ∨ s.member.repFactor / 2 < s.member.peers.card))
  | .callback ans .child => inferInstanceAs (Decidable ((Member.finds ans s.member.peers).isSome →
      if ans.wexists then s.member.peers.card ≤ s.member.repFactor / 2
      else s.member.peers.card ≠ s.member.repFactor / 2))
  | .callback _ (.created _) => instDecidableTrue
  | .setInUse _ => instDecidableTrue

variable {s t : State α}

omit [DecidableEq α] in
/-- After a failed replacement the lock is taken if too few peers are left. -/
theorem foldl_suspends (m : Member α) (s : State α) : m.suspends.foldl State.act s =
    if m.peers.card ≤ m.repFactor / 2 then { s with held := true, misuse := s.misuse || s.held } else s := by
  unfold Member.suspends
  split
  · rfl
  · rfl

omit [DecidableEq α] in
/-- After a join it is given back if enough are. -/
theorem foldl_joined (m : Member α) (a : α) (s : State α) : (m.joined a).foldl State.act s =
    if m.repFactor / 2 < m.peers.card then { s with held := false, misuse := s.misuse || !s.held } else s := by
  unfold Member.joined
  cases m.inUse <;> by_cases h1 : m.repFactor / 2 < m.peers.card <;>
    by_cases h2 : m.peers.card < m.repFactor <;> simp [h1, h2, State.act]

omit [DecidableEq α] in
/-- The protocol after a failed replacement that leaves `m`, no larger than
before. -/
theorem protocol_suspends_iff (h : Protocol s) {m : Member α} (hrep : m.repFactor = s.member.repFactor)
    (hle : m.peers.card ≤ s.member.peers.card) :
    Protocol (m.suspends.foldl State.act { s with member := m }) ↔
      (m.peers.card ≤ m.repFactor / 2 → s.member.repFactor / 2 < s.member.peers.card) := by
  obtain ⟨hmis, hheld⟩ := h
  rw [foldl_suspends]
  unfold Protocol
  by_cases hfew : m.peers.card ≤ m.repFactor / 2
  · rw [if_pos hfew]
    have hnot : s.held = false ↔ s.member.repFactor / 2 < s.member.peers.card := by
      rw [← not_le, ← hheld, Bool.not_eq_true]
    simp [hmis, hnot, hfew]
  · rw [if_neg hfew]
    have hfree : ¬ s.held = true := by
      rw [hheld, ← hrep]
      omega
    simp [hmis, hfree, hfew]

/-- The callback for a lost peer. -/
theorem protocol_deleted_iff (hm : s.member.Ok) (h : Protocol s) {ans : Answers α} {peer : α}
    (hs : step s (.callback ans (.deleted peer)) = some t) :
    Protocol t ↔ InTurn s (.callback ans (.deleted peer)) := by
  simp only [step, Option.some.injEq] at hs
  subst hs
  rcases Member.deleted_cases hm ans peer with ⟨hp, hno, hw⟩ | ⟨hp, hno, -, hw⟩ | ⟨a, hp, hf, hiff, hw⟩
  · rw [hw, protocol_suspends_iff h rfl le_rfl]
    simp only [InTurn, hno, false_or]
    omega
  · have hcard := Member.remove_card hp
    have hrep : (s.member.remove peer).repFactor = s.member.repFactor := rfl
    rw [hw, protocol_suspends_iff (m := s.member.remove peer) h rfl (by omega)]
    simp only [InTurn, hno, false_or]
    omega
  · have hcard := Member.add_card (Member.finds_notMem hf)
    have hcard' := Member.remove_card hp
    have hpos := Finset.card_pos.mpr ⟨peer, hp⟩
    have hrep : ((s.member.remove peer).add a).repFactor = s.member.repFactor := rfl
    rw [hw]
    cases hwe : ans.wexists with
    | true =>
      -- the number of peers is what it was, and nothing touches the lock
      refine iff_of_true ⟨h.1, ?_⟩ (.inl (hiff.mpr hwe))
      show s.held = true ↔ ((s.member.remove peer).add a).peers.card ≤ s.member.repFactor / 2
      rw [hcard, hcard', Nat.sub_add_cancel hpos]
      exact h.2
    | false =>
      have hno : ¬ s.member.Replaces peer ans := by
        rw [hiff, hwe]
        decide
      simp only [Bool.false_eq_true, if_false]
      rw [protocol_suspends_iff (m := (s.member.remove peer).add a) h rfl (by omega)]
      simp only [InTurn, hno, false_or]
      omega

/-- The callback for changed children. -/
theorem protocol_child_iff (h : Protocol s) {ans : Answers α} (hs : step s (.callback ans .child) = some t) :
    Protocol t ↔ InTurn s (.callback ans .child) := by
  simp only [step, Option.some.injEq] at hs
  subst hs
  rcases Member.child_cases ans s.member with ⟨hf, hw⟩ | ⟨a, hf, hw⟩
  · rw [hw]
    refine iff_of_true h ?_
    simp [InTurn, hf]
  · have hcard := Member.add_card (Member.finds_notMem hf)
    have hrep : (s.member.add a).repFactor = s.member.repFactor := rfl
    obtain ⟨hmis, hheld⟩ := h
    rw [hw]
    simp only [InTurn, hf, Option.isSome_some, forall_const]
    cases hwe : ans.wexists with
    | true =>
      simp only [if_true]
      rw [foldl_joined]
      by_cases hmany : s.member.repFactor / 2 < (s.member.add a).peers.card
      · rw [if_pos (by rwa [hrep])]
        unfold Protocol
        simp only [hmis, Bool.false_or, Bool.not_eq_eq_eq_not, Bool.not_false, hheld, Bool.false_eq_true,
          false_iff, not_le, and_iff_left_iff_imp]
        exact fun _ => hmany
      · rw [if_neg (by rwa [hrep])]
        unfold Protocol
        simp only [hmis, hheld, true_and]
        show _ ↔ _
        rw [hrep]
        omega
    | false =>
      simp only [Bool.false_eq_true, if_false, List.foldl_nil]
      unfold Protocol
      simp only [hmis, hheld, true_and]
      rw [hrep]
      omega

/-- A step that is in turn keeps the protocol, and one that is not breaks it. -/
theorem protocol_step_iff (hm : s.member.Ok) (h : Protocol s) {ev : Event α} (hs : step s ev = some t) :
    Protocol t ↔ InTurn s ev := by
  cases ev with
  | setInUse b =>
    cases hs
    exact iff_of_true h trivial
  | callback ans n =>
    cases n with
    | created peer =>
      cases hs
      exact iff_of_true h trivial
    | deleted peer => exact protocol_deleted_iff hm h hs
    | child => exact protocol_child_iff h hs

theorem ok_step (hm : s.member.Ok) {ev : Event α} (hs : step s ev = some t) : t.member.Ok := by
  cases ev with
  | setInUse b =>
    cases hs
    exact hm
  | callback ans n =>
    simp only [step, Option.some.injEq] at hs
    subst hs
    have hfold : ∀ (acts : List (Act α)) (u : State α), (acts.foldl State.act u).member = u.member := by
      intro acts
      induction acts with
      | nil => exact fun _ => rfl
      | cons a acts ih =>
        intro u
        rw [List.foldl_cons, ih]
        cases a <;> rfl
    rw [hfold]
    exact hm.clientWatcher ans n

/-- **When the suspension protocol is kept.** A client constructed with more
than `rep_factor / 2` peers keeps the protocol in every run whose callbacks
are in turn; a callback that is not in turn breaks it at once, and a client
constructed with fewer peers breaks it from the start. -/
theorem protocol_kept (addrs : List α) (rep : ℕ) (wexists : α → Bool) :
    (rep / 2 < addrs.toFinset.card → ∀ s,
      Trace.Reach (Trace.restrict InTurn step) (init (Member.construct addrs rep wexists)) s → Protocol s) ∧
    (∀ s ev t, Trace.Reach (Trace.restrict InTurn step) (init (Member.construct addrs rep wexists)) s →
      rep / 2 < addrs.toFinset.card → step s ev = some t → ¬ InTurn s ev → ¬ Protocol t) ∧
    (¬ rep / 2 < addrs.toFinset.card → ¬ Protocol (init (Member.construct addrs rep wexists))) := by
  have hinit : Protocol (init (Member.construct addrs rep wexists)) ↔ rep / 2 < addrs.toFinset.card := by
    rw [Member.construct_eq]
    simp [Protocol, init]
  have hall : rep / 2 < addrs.toFinset.card → ∀ s,
      Trace.Reach (Trace.restrict InTurn step) (init (Member.construct addrs rep wexists)) s →
      s.member.Ok ∧ Protocol s := by
    intro hstart s hs
    refine hs.inv_restrict (I := fun s => s.member.Ok ∧ Protocol s)
      ⟨Member.construct_ok addrs rep wexists, hinit.mpr hstart⟩ ?_
    rintro s ev t ⟨hm, hp⟩ hok hst
    exact ⟨ok_step hm hst, (protocol_step_iff hm hp hst).mpr hok⟩
  refine ⟨fun hstart s hs => (hall hstart s hs).2, fun s ev t hs hstart hst hno hp => ?_, fun hno hp => ?_⟩
  · obtain ⟨hm, hps⟩ := hall hstart s hs
    exact hno ((protocol_step_iff hm hps hst).mp hp)
  · exact hno (hinit.mp hp)

/-- Two of three peers are lost, which suspends writes, and a join resumes them. -/
theorem protocol_kept_threePeers : ∃ s : State ℕ,
    Trace.Reach (Trace.restrict InTurn step) (init (Member.construct [1, 2, 3] 3 fun _ => true)) s ∧
      s.member.peers = {3, 4} ∧ Protocol s := by
  obtain ⟨s, hs, hp⟩ : ∃ s : State ℕ,
      Trace.Reach (Trace.restrict InTurn step) (init (Member.construct [1, 2, 3] 3 fun _ => true)) s ∧
        s.member.peers = {3, 4} :=
    Trace.exists_reach_of_exec [.callback ⟨some [2, 3], true⟩ (.deleted 1), .callback ⟨some [3], true⟩ (.deleted 2),
      .setInUse true, .callback ⟨some [3, 4], true⟩ .child] (by decide)
  exact ⟨s, hs, hp, (protocol_kept [1, 2, 3] 3 fun _ => true).1 (by decide) s hs⟩

/-- One of three peers is lost and a server joins: the watcher gives back a lock
that it does not hold. Three peers are lost: it takes the lock twice. -/
theorem protocol_broken :
    (¬ ∀ s : State ℕ, Trace.Reach step (init (Member.construct [1, 2, 3] 3 fun _ => true)) s → Protocol s) ∧
    ∃ s : State ℕ, Trace.Reach step (init (Member.construct [1, 2, 3] 3 fun _ => true)) s ∧
      s.member.peers = ∅ ∧ s.misuse = true := by
  constructor
  · intro h
    obtain ⟨s, hs, hbad⟩ : ∃ s : State ℕ,
        Trace.Reach step (init (Member.construct [1, 2, 3] 3 fun _ => true)) s ∧ ¬ Protocol s :=
      Trace.exists_reach_of_exec [.callback ⟨some [2, 3], true⟩ (.deleted 1),
        .callback ⟨some [2, 3, 4], true⟩ .child] (by decide)
    exact hbad (h s hs)
  · exact Trace.exists_reach_of_exec [.callback ⟨some [2, 3], true⟩ (.deleted 1),
      .callback ⟨some [3], true⟩ (.deleted 2), .callback ⟨some [], true⟩ (.deleted 3)] (by decide)

end Suspend
end ComputeSideLog
