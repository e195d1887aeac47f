/-
# Writes that no completion can end

The tokens of a `WriteQuorum` are made when it posts; the watcher erases and
adds entries of `remote_props` while it waits. A poll only reaches tokens in
the `op_queue` of a current entry, so a token whose entry is gone before its
flag was set is lost for good, and new entries bring no token of this write.
The loop also gives up when `peers.size()` is at most `rep_factor / 2`, but
replacements keep that number up: the case of the comment in `WriteQuorum`.

`Stuck` is a wait that can end neither way. It is reached exactly by a step
of the watcher that leaves enough peers and too few tokens (`Spares`): the
erasure of one more peer, or an addition that ends the shortage of peers.

Key definitions: `Quorum.Stuck`, `Quorum.State.lost`, `Quorum.Spares`.
Key theorems: `Quorum.Members.step`, `Quorum.Popped.step`,
`Quorum.stuck_iff`, `Quorum.never_stuck`.
-/
import Mathlib.Data.List.Perm.Lattice
import ComputeSideLog.Quorum

namespace ComputeSideLog
namespace Quorum

variable {α : Type*}

/-- The token is flagged, or a poll of a current entry can still reach it. -/
def State.hopeful (s : State α) (t : ℕ × ℕ) : Bool :=
  s.flag t || (decide (t.1 ∈ s.props) && decide (t.2 ∈ (s.entry t.1).queue))

/-- The write waits, enough peers are connected, and too few of its tokens can
ever be flagged. -/
def Stuck (rep : ℕ) (s : State α) : Prop :=
  ∃ tokens ∈ s.waiting, rep / 2 < s.peers.length ∧ (tokens.filter s.hopeful).length ≤ rep / 2

instance (rep : ℕ) (s : State α) : Decidable (Stuck rep s) :=
  inferInstanceAs (Decidable (∃ tokens ∈ s.waiting, _ ∧ _))

section

variable [DecidableEq α]

/-- The token is not flagged, and its entry is gone or is the one of `a`. -/
def State.lost (s : State α) (a : Option α) (t : ℕ × ℕ) : Bool :=
  !s.flag t && (decide (t.1 ∉ s.props) || decide (a = some (s.entry t.1).addr))

/-- With `n` peers connected and without the peer `a`, a waiting write can
still end: through the shortage of peers, or because so few of its tokens
are lost that more than half of the replication factor remain. -/
def CanEnd (rep : ℕ) (s : State α) (n : ℕ) (a : Option α) : Prop :=
  ∀ tokens ∈ s.waiting, n ≤ rep / 2 ∨ rep / 2 + (tokens.filter (s.lost a)).length < tokens.length

instance (rep : ℕ) (s : State α) (n : ℕ) (a : Option α) : Decidable (CanEnd rep s n a) :=
  inferInstanceAs (Decidable (∀ tokens ∈ s.waiting, _ ∨ _))

/-- The step leaves a waiting write a way to end. -/
def Spares (rep : ℕ) (s : State α) : Event α → Prop
  | .erase a => CanEnd rep s (s.peers.length - 1) (some a)
  | .add _ => CanEnd rep s (s.peers.length + 1) none
  | _ => True

instance (rep : ℕ) (s : State α) : ∀ ev, Decidable (Spares rep s ev)
  | .erase a => inferInstanceAs (Decidable (CanEnd rep s (s.peers.length - 1) (some a)))
  | .add _ => inferInstanceAs (Decidable (CanEnd rep s (s.peers.length + 1) none))
  | .post | .complete _ _ _ | .poll _ | .ret | .suspend | .resume => instDecidableTrue

end

/-! ### `peers` and `remote_props` -/

/-- The live entries are those of the peers. -/
def Members (s : State α) : Prop := s.peers.Perm (s.props.map fun e => (s.entry e).addr)

section

variable {s t : State α} {rep : ℕ}

theorem Members.length (h : Members s) : s.peers.length = s.props.length := by
  rw [List.Perm.length_eq h, List.length_map]

theorem Members.modify (h : Members s) {f : Entry α → Entry α} (hf : ∀ n, (f n).addr = n.addr) (e : ℕ) :
    Members (s.modify e f) := by
  unfold Members
  simp only [modify_addr hf]
  exact h

variable [DecidableEq α]

theorem Members.erase (h : Members s) (hI : Inv s) (a : α) : Members (s.erase a) := by
  have hn : s.peers.Nodup := (List.Perm.nodup_iff h).mpr hI.addrs
  show (s.peers.erase a).Perm ((s.props.filter fun e => (s.entry e).addr ≠ a).map fun e => (s.entry e).addr)
  rw [hn.erase_eq_filter]
  refine (List.Perm.filter _ h).trans ?_
  rw [List.filter_map]
  refine List.Perm.of_eq (congrArg _ (List.filter_congr fun e _ => ?_))
  simp only [Function.comp_apply, bne, ne_eq, decide_not]
  rfl

theorem Members.add (h : Members s) (hI : Inv s) {a : α} (ha : a ∉ s.peers) : Members (s.add a) := by
  have hkeep : s.props.filter (fun e => (s.entry e).addr ≠ a) = s.props := by
    refine List.filter_eq_self.mpr fun e he => ?_
    have hne : (s.entry e).addr ≠ a := fun hc => ha ((List.Perm.mem_iff h).mpr (hc ▸ List.mem_map_of_mem he))
    simpa using hne
  show (s.peers ++ [a]).Perm (((s.props.filter fun e => (s.entry e).addr ≠ a) ++ [s.made]).map
    fun e => ((s.add a).entry e).addr)
  rw [hkeep, List.map_append, List.map_singleton, add_entry_made,
    List.map_congr_left fun e he => by rw [add_entry_of_lt (hI.lt_made e he)]]
  exact List.Perm.append_right _ h

theorem Members.step (h : Members s) (hI : Inv s) {ev : Event α} (hs : step rep s ev = some t) : Members t := by
  obtain ⟨-, -, -, rfl⟩ | ⟨e, i, half, -, -, -, rfl⟩ | ⟨e, -, -, rfl⟩ | ⟨tokens, -, -, -, rfl⟩ |
    ⟨a, -, -, rfl⟩ | ⟨a, -, ha, rfl⟩ | ⟨-, b, rfl⟩ := step_cases hs
  · unfold Members
    simp only [post_addr]
    exact h
  · exact h.modify (fun n => n.complete_addr i half) e
  · exact h.modify Entry.poll_addr e
  · exact h
  · exact h.erase hI a
  · exact h.add hI ha
  · exact h

theorem members_init [Inhabited α] (addrs : List α) : Members (init addrs) := by
  suffices h : ∀ (as : List α) (s : State α), Inv s → Members s → Members (as.foldl State.addPeer s) by
    exact h addrs _ (inv_init []) List.Perm.nil
  intro as
  induction as with
  | nil => exact fun s _ hs => hs
  | cons a as ih =>
    intro s hI hs
    rw [List.foldl_cons]
    unfold State.addPeer
    by_cases ha : a ∈ s.peers
    · rw [if_pos ha]
      exact ih s hI hs
    · rw [if_neg ha]
      exact ih _ (hI.add a) (hs.add hI ha)

end

/-! ### Tokens that left the queue -/

/-- A token that is no longer in `op_queue` is flagged. -/
def Entry.Popped (n : Entry α) : Prop := ∀ i, i < n.posted → i ∉ n.queue → (n.token i).allPrev = true

namespace Entry

variable {n : Entry α}

theorem popped_new (a : α) : (new a).Popped := fun _ h => absurd h (Nat.not_lt_zero _)

theorem Popped.push (h : n.Popped) : n.push.Popped := by
  intro i hi hq
  simp only [Entry.push, List.mem_append, List.mem_singleton, not_or] at hi hq ⊢
  rw [Function.update_of_ne hq.2]
  exact h i (by omega) hq.1

theorem Popped.complete (h : n.Popped) (i : ℕ) (half : Half) : (n.complete i half).Popped := by
  intro j hj hq
  have hf := h j hj hq
  simp only [Entry.complete, Function.update_apply]
  split
  · rename_i hji
    rw [Token.complete_allPrev, ← hji]
    exact hf
  · exact hf

theorem Popped.poll (h : n.Popped) : n.poll.Popped := by
  obtain hp | ⟨i, q, hqueue, -, hp⟩ := n.poll_cases
  · rwa [hp]
  · rw [hp]
    intro j hj hq
    show (Function.update n.token i (n.token i).setAllPrev j).allPrev = true
    by_cases hji : j = i
    · rw [hji, Function.update_self]
      rfl
    · rw [Function.update_of_ne hji]
      refine h j hj ?_
      rw [hqueue, List.mem_cons, not_or]
      exact ⟨hji, hq⟩

/-- A poll and a completion keep the flags that are set. -/
theorem poll_keeps (n : Entry α) (i : ℕ) (h : (n.token i).allPrev = true) :
    (n.poll.token i).allPrev = true := by
  obtain hp | ⟨j, q, -, -, hp⟩ := n.poll_cases
  · rwa [hp]
  · rw [hp]
    show (Function.update n.token j (n.token j).setAllPrev i).allPrev = true
    simp only [Function.update_apply]
    split
    · rfl
    · exact h

theorem complete_keeps (i₀ : ℕ) (half : Half) (n : Entry α) (i : ℕ) (h : (n.token i).allPrev = true) :
    ((n.complete i₀ half).token i).allPrev = true := by
  simp only [Entry.complete, Function.update_apply]
  split
  · rename_i hi
    rw [Token.complete_allPrev, ← hi]
    exact h
  · exact h

end Entry

/-- Every entry has flagged what it popped. -/
def Popped (s : State α) : Prop := ∀ e, (s.entry e).Popped

section

variable {s t : State α} {rep : ℕ}

theorem Popped.modify (h : Popped s) {f : Entry α → Entry α} (hf : ∀ n : Entry α, n.Popped → (f n).Popped)
    (e : ℕ) : Popped (s.modify e f) := by
  intro e'
  simp only [State.modify, Function.update_apply]
  split
  · exact hf _ (h e)
  · exact h e'

variable [DecidableEq α]

theorem Popped.step (h : Popped s) {ev : Event α} (hs : Quorum.step rep s ev = some t) : Popped t := by
  obtain ⟨-, -, -, rfl⟩ | ⟨e, i, half, -, -, -, rfl⟩ | ⟨e, -, -, rfl⟩ | ⟨tokens, -, -, -, rfl⟩ |
    ⟨a, -, -, rfl⟩ | ⟨a, -, -, rfl⟩ | ⟨-, b, rfl⟩ := step_cases hs
  · intro e
    simp only [State.post]
    split
    · exact (h e).push
    · exact h e
  · exact h.modify (fun n hn => hn.complete i half) e
  · exact h.modify (fun n hn => hn.poll) e
  · exact h
  · exact h
  · intro e
    simp only [State.add, Function.update_apply]
    split
    · exact Entry.popped_new a
    · exact h e
  · exact h

theorem popped_init [Inhabited α] (addrs : List α) : Popped (init addrs) := by
  intro e
  obtain ⟨a, he⟩ := (blank_init addrs).entries e
  rw [he]
  exact Entry.popped_new a

end

/-! ### The tokens that remain -/

section

variable [DecidableEq α] {s t : State α} {rep : ℕ}

/-- What is not lost can be flagged, and what is lost cannot. -/
theorem Popped.hopeful_eq (h : Popped s) {tk : ℕ × ℕ} (hp : tk.2 < (s.entry tk.1).posted) :
    s.hopeful tk = !s.lost none tk := by
  unfold State.hopeful State.lost
  by_cases hf : s.flag tk = true
  · simp [hf]
  · have hq : tk.2 ∈ (s.entry tk.1).queue := by
      by_contra hc
      exact hf (h tk.1 tk.2 hp hc)
    simp [hf, hq]

/-- Stuck is: enough peers, and too many tokens lost. -/
theorem stuck_iff (hI : Inv s) (h : Popped s) : Stuck rep s ↔ ¬ CanEnd rep s s.peers.length none := by
  unfold Stuck CanEnd
  rw [not_forall₂]
  refine exists_congr fun tokens => ?_
  rw [exists_prop]
  refine and_congr_right fun hw => ?_
  have hhope : tokens.filter s.hopeful = tokens.filter fun tk => !s.lost none tk :=
    List.filter_congr fun tk htk => h.hopeful_eq ((hI.waiting tokens hw).2 tk htk).2
  have hlen := List.length_eq_length_filter_add (l := tokens) (s.lost none)
  rw [hhope]
  omega

/-- A token is lost after an erasure if it was lost, or went with the peer. -/
theorem lost_erase (a : α) (tk : ℕ × ℕ) : (s.erase a).lost none tk = s.lost (some a) tk := by
  have hmem : tk.1 ∉ (s.erase a).props ↔ tk.1 ∉ s.props ∨ a = (s.entry tk.1).addr := by
    simp only [State.erase, List.mem_filter, decide_eq_true_eq, not_and_or, ne_eq, not_not,
      eq_comm (a := a)]
  show (!s.flag tk && (decide (tk.1 ∉ (s.erase a).props) || decide (none = some (s.entry tk.1).addr))) = _
  unfold State.lost
  simp only [hmem, Bool.decide_or, reduceCtorEq, decide_false, Bool.or_false, Option.some.injEq]

/-- An addition loses and saves nothing. -/
theorem Members.lost_add (h : Members s) {a : α} (ha : a ∉ s.peers) {tk : ℕ × ℕ}
    (hlt : tk.1 < s.made) : (s.add a).lost none tk = s.lost none tk := by
  have hmem : tk.1 ∉ (s.add a).props ↔ tk.1 ∉ s.props := by
    have hne : tk.1 ∈ s.props → (s.entry tk.1).addr ≠ a :=
      fun he hc => ha ((List.Perm.mem_iff h).mpr (hc ▸ List.mem_map_of_mem he))
    have hnew : tk.1 ≠ s.made := Nat.ne_of_lt hlt
    simp only [State.add, List.mem_append, List.mem_filter, List.mem_singleton, decide_eq_true_eq]
    tauto
  unfold State.lost State.flag
  rw [add_entry_of_lt hlt]
  simp only [hmem, reduceCtorEq, decide_false]

/-- A completion or a poll loses no token. -/
theorem lost_modify {f : Entry α → Entry α}
    (hf : ∀ (n : Entry α) i, (n.token i).allPrev = true → ((f n).token i).allPrev = true) (e : ℕ)
    {tk : ℕ × ℕ} (h : (s.modify e f).lost none tk = true) : s.lost none tk = true := by
  unfold State.lost at h ⊢
  simp only [Bool.and_eq_true, Bool.not_eq_true'] at h ⊢
  refine ⟨?_, h.2⟩
  by_contra hflag
  have hset : s.flag tk = true := by simpa using hflag
  have hkeep : (s.modify e f).flag tk = true := by
    unfold State.flag State.modify
    simp only [Function.update_apply]
    split
    · rename_i he
      refine hf _ _ ?_
      rw [← he]
      exact hset
    · exact hset
  rw [hkeep] at h
  exact absurd h.1 (by simp)

theorem CanEnd.modify {n : ℕ} (h : CanEnd rep s n none) {f : Entry α → Entry α}
    (hf : ∀ (n : Entry α) i, (n.token i).allPrev = true → ((f n).token i).allPrev = true) (e : ℕ) :
    CanEnd rep (s.modify e f) n none := by
  intro tokens hw
  refine (h tokens hw).imp id fun hlt => ?_
  have hle : (tokens.filter ((s.modify e f).lost none)).length ≤ (tokens.filter (s.lost none)).length :=
    (List.monotone_filter_right tokens fun _ => lost_modify hf e).length_le
  omega

/-- A write that was just posted has a token at every peer. -/
theorem Members.canEnd_post (h : Members s) : CanEnd rep s.post s.post.peers.length none := by
  intro tokens hw
  simp only [State.post, Option.mem_def, Option.some.injEq] at hw
  subst hw
  have hnone : (s.props.map fun e => (e, (s.entry e).posted)).filter (s.post.lost none) = [] := by
    refine List.filter_eq_nil_iff.mpr fun tk htk => ?_
    obtain ⟨e, he, rfl⟩ := List.mem_map.mp htk
    have hin : e ∈ s.post.props := he
    simp [State.lost, hin]
  rw [hnone, List.length_map, List.length_nil]
  have hlen := h.length
  show s.peers.length ≤ _ ∨ _
  omega

/-- Whether a write can end after a step of the watcher is what `Spares` asks
before it. -/
theorem canEnd_erase_iff (a : α) (hmem : ∃ e ∈ s.props, (s.entry e).addr = a) (h : Members s) :
    CanEnd rep (s.erase a) (s.erase a).peers.length none ↔ Spares rep s (.erase a) := by
  have hin : a ∈ s.peers := by
    obtain ⟨e, he, rfl⟩ := hmem
    exact (List.Perm.mem_iff h).mpr (List.mem_map_of_mem he)
  show CanEnd rep (s.erase a) (s.peers.erase a).length none ↔ CanEnd rep s (s.peers.length - 1) (some a)
  unfold CanEnd
  rw [List.length_erase_of_mem hin]
  refine forall₂_congr fun tokens _ => ?_
  rw [List.filter_congr fun tk _ => lost_erase a tk]

theorem canEnd_add_iff (hI : Inv s) (h : Members s) {a : α} (ha : a ∉ s.peers) :
    CanEnd rep (s.add a) (s.add a).peers.length none ↔ Spares rep s (.add a) := by
  show CanEnd rep (s.add a) (s.peers ++ [a]).length none ↔ CanEnd rep s (s.peers.length + 1) none
  unfold CanEnd
  rw [List.length_append, List.length_singleton]
  refine forall₂_congr fun tokens hw => ?_
  rw [List.filter_congr fun tk htk => h.lost_add ha ((hI.waiting tokens hw).2 tk htk).1]

/-- A step that spares the write leaves it a way to end, and one that does not
leaves none. -/
theorem canEnd_step_iff (hI : Inv s) (h : Members s) (hc : CanEnd rep s s.peers.length none) {ev : Event α}
    (hs : step rep s ev = some t) : CanEnd rep t t.peers.length none ↔ Spares rep s ev := by
  obtain ⟨rfl, -, -, rfl⟩ | ⟨e, i, half, rfl, -, -, rfl⟩ | ⟨e, rfl, -, rfl⟩ | ⟨tokens, rfl, -, -, rfl⟩ |
    ⟨a, rfl, ha, rfl⟩ | ⟨a, rfl, ha, rfl⟩ | ⟨hev, b, rfl⟩ := step_cases hs
  · exact iff_of_true h.canEnd_post trivial
  · exact iff_of_true (hc.modify (Entry.complete_keeps i half) e) trivial
  · exact iff_of_true (hc.modify Entry.poll_keeps e) trivial
  · exact iff_of_true (fun _ hw => absurd hw (by simp)) trivial
  · exact canEnd_erase_iff a ha h
  · exact canEnd_add_iff hI h ha
  · refine iff_of_true hc ?_
    rcases hev with rfl | rfl <;> trivial

end

/-- **When a write is never stranded.** In every run in which the watcher, while
a write waits, erases or adds a peer only if that leaves at most
`rep_factor / 2` peers or fewer lost tokens than the quorum can spare, no
write is ever stuck; a step that does otherwise strands it at once. -/
theorem never_stuck [DecidableEq α] [Inhabited α] (rep : ℕ) (addrs : List α) :
    (∀ s, Trace.Reach (Trace.restrict (Spares rep) (step rep)) (init addrs) s → ¬ Stuck rep s) ∧
    ∀ s ev t, Trace.Reach (Trace.restrict (Spares rep) (step rep)) (init addrs) s → step rep s ev = some t →
      ¬ Spares rep s ev → Stuck rep t := by
  have hall : ∀ s, Trace.Reach (Trace.restrict (Spares rep) (step rep)) (init addrs) s →
      Members s ∧ Popped s ∧ CanEnd rep s s.peers.length none := by
    intro s hs
    refine hs.inv_restrict_of (J := Inv) (I := fun s => Members s ∧ Popped s ∧ CanEnd rep s s.peers.length none)
      (fun s hs => inv_of_reach hs) ⟨members_init addrs, popped_init addrs, ?_⟩ ?_
    · intro tokens hw
      rw [(blank_init addrs).waiting] at hw
      exact absurd hw (by simp)
    · rintro s ev t hI ⟨hM, hP, hC⟩ hok hst
      exact ⟨hM.step hI hst, hP.step hst, (canEnd_step_iff hI hM hC hst).mpr hok⟩
  refine ⟨fun s hs => ?_, fun s ev t hs hst hno => ?_⟩
  · have hI := inv_of_reach hs.of_restrict
    exact fun hst => (stuck_iff hI (hall s hs).2.1).mp hst (hall s hs).2.2
  · have hI := inv_of_reach hs.of_restrict
    obtain ⟨hM, hP, hC⟩ := hall s hs
    refine (stuck_iff (hI.step hst) (hP.step hst)).mpr fun hc => hno ?_
    exact (canEnd_step_iff hI hM hC hst).mp hc

/-- One of three peers fails during a write and is replaced. -/
theorem never_stuck_oneReplaced : ∃ s : State ℕ,
    Trace.Reach (Trace.restrict (Spares 3) (step 3)) (init [1, 2, 3]) s ∧
      (s.waiting = some [(0, 0), (1, 0), (2, 0)] ∧ s.peers = [2, 3, 4]) ∧ ¬ Stuck 3 s := by
  obtain ⟨s, hs, hp⟩ : ∃ s : State ℕ, Trace.Reach (Trace.restrict (Spares 3) (step 3)) (init [1, 2, 3]) s ∧
      (s.waiting = some [(0, 0), (1, 0), (2, 0)] ∧ s.peers = [2, 3, 4]) :=
    Trace.exists_reach_of_exec [.post, .erase 1, .add 4] (by decide)
  exact ⟨s, hs, hp, (never_stuck 3 [1, 2, 3]).1 s hs⟩

/-- Three peers are written to; two of them fail and are replaced. -/
def twoReplaced : List (Event ℕ) := [.post, .erase 1, .add 4, .erase 2, .add 5]

theorem replaced_strands : ¬ ∀ s : State ℕ, Trace.Reach (step 3) (init [1, 2, 3]) s → ¬ Stuck 3 s := by
  intro h
  obtain ⟨s, hs, hstuck⟩ : ∃ s : State ℕ, Trace.Reach (step 3) (init [1, 2, 3]) s ∧ Stuck 3 s :=
    Trace.exists_reach_of_exec twoReplaced (by decide)
  exact h s hs hstuck

end Quorum
end ComputeSideLog
