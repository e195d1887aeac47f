/-
# Quorum counting

`WriteQuorum` posts a write through every entry of `remote_props`, with one
`CombinedRequestToken` for its data and its trailer, and polls until
`quorumCompleted`. A poll looks only at the front of an entry's `op_queue`:
once both halves of the front token are completed it sets
`all_prev_completed_` and pops it. `quorumCompleted` counts the set flags of
the tokens of this write, and gives up when too few peers are left
(`src/rdma/client.cc`, `src/rdma/client.h`).

This file is the bookkeeping of that protocol as a machine: posts, the
completions of single halves in any order, polls, returns, and the erasure
and creation of entries by the client watcher, which runs concurrently and
takes `recover_lock` only to suspend writes. An entry is identified by the
number of its `AddPeer`, a token by its entry and its position there.

The invariant is that an `op_queue` is the suffix of the entry's tokens
whose flags are not set, in posting order, and that everything before it is
completed (`Entry.Ok`). So a set flag speaks for all earlier writes through
the same entry (`count_prefix_closed`).

Key definitions: `Quorum.step`, `Quorum.quorumCompleted`, `Quorum.Inv`.
Key theorems: `Quorum.inv_of_reach`, `Quorum.count_prefix_closed`.
-/
import Mathlib.Data.List.Nodup
import Mathlib.Data.List.Range
import Mathlib.Logic.Function.Basic
import ComputeSideLog.Lib.Trace

namespace ComputeSideLog
namespace Quorum

/-- The two RDMA writes of a `CombinedRequestToken`. -/
inductive Half where
  | data
  | seq
  deriving DecidableEq, Repr

/-- `CombinedRequestToken`: the completion of either write, and
`all_prev_completed_`. -/
structure Token where
  data : Bool
  seq : Bool
  allPrev : Bool
  deriving DecidableEq, Repr

namespace Token

/-- A token just made. -/
def new : Token := ⟨false, false, false⟩

/-- The completion of one write. -/
def complete (t : Token) : Half → Token
  | .data => { t with data := true }
  | .seq => { t with seq := true }

/-- One write is completed. -/
def half (t : Token) : Half → Bool
  | .data => t.data
  | .seq => t.seq

/-- `CheckIfBothCompleted`. -/
def both (t : Token) : Bool := t.data && t.seq

/-- `SetAllPrevCompleted`. -/
def setAllPrev (t : Token) : Token := { t with allPrev := true }

@[simp] theorem complete_allPrev (t : Token) (h : Half) : (t.complete h).allPrev = t.allPrev := by
  cases h <;> rfl

@[simp] theorem both_setAllPrev (t : Token) : t.setAllPrev.both = t.both := rfl
@[simp] theorem setAllPrev_allPrev (t : Token) : t.setAllPrev.allPrev = true := rfl

theorem both_complete {t : Token} (hb : t.both = true) (h : Half) : (t.complete h).both = true := by
  simp only [both, Bool.and_eq_true] at hb ⊢
  cases h with
  | data => exact ⟨rfl, hb.2⟩
  | seq => exact ⟨hb.1, rfl⟩

@[simp] theorem new_half (h : Half) : new.half h = false := by cases h <;> rfl
@[simp] theorem setAllPrev_half (t : Token) (h : Half) : t.setAllPrev.half h = t.half h := by cases h <;> rfl

theorem complete_half {t : Token} {h h' : Half} (hc : (t.complete h).half h' = true) :
    t.half h' = true ∨ h = h' := by
  cases h <;> cases h' <;> simp_all [complete, half]

theorem half_of_both {t : Token} (hb : t.both = true) (h : Half) : t.half h = true := by
  simp only [both, Bool.and_eq_true] at hb
  cases h with
  | data => exact hb.1
  | seq => exact hb.2

end Token

variable {α : Type*}

/-- An entry of `remote_props`: the peer, the tokens of the writes posted
through it so far, and `op_queue` as positions of these. -/
structure Entry (α : Type*) where
  addr : α
  posted : ℕ
  token : ℕ → Token
  queue : List ℕ

namespace Entry

/-- A new entry, as `AddPeer` makes it. -/
def new (a : α) : Entry α := ⟨a, 0, fun _ => .new, []⟩

/-- `op_queue.push` of the token of a new write. -/
def push (n : Entry α) : Entry α :=
  { n with posted := n.posted + 1, token := Function.update n.token n.posted .new, queue := n.queue ++ [n.posted] }

/-- The completion of one half of a token. -/
def complete (n : Entry α) (i : ℕ) (h : Half) : Entry α :=
  { n with token := Function.update n.token i ((n.token i).complete h) }

/-- The body of the polling loop for one entry. -/
def poll (n : Entry α) : Entry α :=
  match n.queue with
  | [] => n
  | i :: q =>
    if (n.token i).both then { n with token := Function.update n.token i (n.token i).setAllPrev, queue := q }
    else n

end Entry

/-- The entries made so far, `remote_props` (the live ones) and `peers`, the
tokens the running `WriteQuorum` waits for, and whether the watcher holds
`recover_lock`. -/
structure State (α : Type*) where
  entry : ℕ → Entry α
  made : ℕ
  props : List ℕ
  peers : List α
  waiting : Option (List (ℕ × ℕ))
  suspended : Bool

/-- One step of the writer, of the RDMA library or of the watcher. -/
inductive Event (α : Type*) where
  | post
  | complete (e i : ℕ) (h : Half)
  | poll (e : ℕ)
  | ret
  | erase (a : α)
  | add (a : α)
  | suspend
  | resume
  deriving DecidableEq, Repr

/-- The flag of a token. -/
def State.flag (s : State α) (t : ℕ × ℕ) : Bool := ((s.entry t.1).token t.2).allPrev

/-- One half of a token is completed. -/
def State.completed (s : State α) (e i : ℕ) (h : Half) : Bool := ((s.entry e).token i).half h

/-- The loop of `quorumCompleted`, from a count on. -/
def countLoop (rep : ℕ) (s : State α) : List (ℕ × ℕ) → ℕ → Bool
  | [], _ => false
  | t :: ts, n =>
    let n := if s.flag t then n + 1 else n
    if n > rep / 2 then true else countLoop rep s ts n

/-- `quorumCompleted`. -/
def quorumCompleted (rep : ℕ) (s : State α) (tokens : List (ℕ × ℕ)) : Bool :=
  if s.peers.length ≤ rep / 2 then true else countLoop rep s tokens 0

/-- The first half of `WriteQuorum`: a token for every entry. -/
def State.post (s : State α) : State α :=
  { s with
    entry := fun e => if e ∈ s.props then (s.entry e).push else s.entry e
    waiting := some (s.props.map fun e => (e, (s.entry e).posted)) }

/-- The entry `e` changed by `f`. -/
def State.modify (s : State α) (e : ℕ) (f : Entry α → Entry α) : State α :=
  { s with entry := Function.update s.entry e (f (s.entry e)) }

variable [DecidableEq α]

/-- The erasure of `replacePeer`. -/
def State.erase (s : State α) (a : α) : State α :=
  { s with props := s.props.filter fun e => (s.entry e).addr ≠ a, peers := s.peers.erase a }

/-- The insertion of `AddPeer`: the new entry takes the place of one under
the same key. -/
def State.add (s : State α) (a : α) : State α :=
  { s with
    entry := Function.update s.entry s.made (.new a)
    made := s.made + 1
    props := (s.props.filter fun e => (s.entry e).addr ≠ a) ++ [s.made]
    peers := s.peers ++ [a] }

/-- The machine. A write needs `recover_lock`, and `AddPeer` refuses a peer
that is connected. -/
def step (rep : ℕ) (s : State α) : Event α → Option (State α)
  | .post => if s.waiting = none ∧ s.suspended = false then some s.post else none
  | .complete e i h =>
    if e < s.made ∧ i < (s.entry e).posted then some (s.modify e fun n => n.complete i h) else none
  | .poll e => if e ∈ s.props then some (s.modify e Entry.poll) else none
  | .ret =>
    match s.waiting with
    | some tokens => if quorumCompleted rep s tokens then some { s with waiting := none } else none
    | none => none
  | .erase a => if ∃ e ∈ s.props, (s.entry e).addr = a then some (s.erase a) else none
  | .add a => if a ∈ s.peers then none else some (s.add a)
  | .suspend =>
    if s.waiting = none ∧ s.suspended = false ∧ s.peers.length ≤ rep / 2 then some { s with suspended := true }
    else none
  | .resume =>
    if s.suspended = true ∧ rep / 2 < s.peers.length then some { s with suspended := false } else none

/-- A client before `init`. -/
def State.empty (a : α) : State α := ⟨fun _ => .new a, 0, [], [], none, false⟩

/-- `AddPeer`. -/
def State.addPeer (s : State α) (a : α) : State α := if a ∈ s.peers then s else s.add a

/-- The client after `init`: `AddPeer` for every address. -/
def init [Inhabited α] (addrs : List α) : State α := addrs.foldl State.addPeer (.empty default)

/-! ### One entry -/

/-- `op_queue` is the suffix of the entry's tokens from `k` on. Every token
before it is completed, and only those have their flag set. -/
structure Entry.Ok (n : Entry α) (k : ℕ) : Prop where
  len : k + n.queue.length = n.posted
  queue : n.queue = List.range' k n.queue.length
  done : ∀ i, i < k → (n.token i).both = true
  flagged : ∀ i, (n.token i).allPrev = true → i < k

namespace Entry

omit [DecidableEq α]

variable {n : Entry α} {k : ℕ}

@[simp] theorem push_addr (n : Entry α) : n.push.addr = n.addr := rfl
@[simp] theorem push_posted (n : Entry α) : n.push.posted = n.posted + 1 := rfl
@[simp] theorem complete_addr (n : Entry α) (i : ℕ) (h : Half) : (n.complete i h).addr = n.addr := rfl
@[simp] theorem complete_posted (n : Entry α) (i : ℕ) (h : Half) : (n.complete i h).posted = n.posted := rfl

/-- What a poll can do: nothing, or flag and pop a front whose halves are
completed. -/
theorem poll_cases (n : Entry α) : n.poll = n ∨ ∃ i q, n.queue = i :: q ∧ (n.token i).both = true ∧
    n.poll = { n with token := Function.update n.token i (n.token i).setAllPrev, queue := q } := by
  unfold poll
  split
  · exact .inl rfl
  · rename_i i q hq
    split
    · rename_i hb
      exact .inr ⟨i, q, hq, hb, rfl⟩
    · exact .inl rfl

@[simp] theorem poll_addr (n : Entry α) : n.poll.addr = n.addr := by
  obtain h | ⟨i, q, -, -, h⟩ := n.poll_cases <;> rw [h]

@[simp] theorem poll_posted (n : Entry α) : n.poll.posted = n.posted := by
  obtain h | ⟨i, q, -, -, h⟩ := n.poll_cases <;> rw [h]

theorem ok_new (a : α) : (new a).Ok 0 :=
  ⟨rfl, rfl, fun _ h => absurd h (Nat.not_lt_zero _), fun _ h => absurd h (by simp [new, Token.new])⟩

theorem Ok.push (h : n.Ok k) : n.push.Ok k where
  len := by
    have := h.len
    simp only [Entry.push, List.length_append, List.length_cons, List.length_nil]
    omega
  queue := by
    have hlen := h.len
    simp only [Entry.push, List.length_append, List.length_cons, List.length_nil, List.range'_1_concat]
    rw [← h.queue, hlen]
  done i hi := by
    have := h.len
    simp only [Entry.push]
    rw [Function.update_of_ne (by omega)]
    exact h.done i hi
  flagged i hi := by
    simp only [Entry.push] at hi
    by_cases hip : i = n.posted
    · rw [hip, Function.update_self] at hi
      exact absurd hi (by simp [Token.new])
    · rw [Function.update_of_ne hip] at hi
      exact h.flagged i hi

theorem Ok.complete (h : n.Ok k) (i : ℕ) (half : Half) : (n.complete i half).Ok k where
  len := h.len
  queue := h.queue
  done j hj := by
    simp only [Entry.complete, Function.update_apply]
    split
    · rename_i hji
      exact Token.both_complete (hji ▸ h.done j hj) half
    · exact h.done j hj
  flagged j hj := by
    simp only [Entry.complete, Function.update_apply] at hj
    split at hj
    · rename_i hji
      rw [Token.complete_allPrev, ← hji] at hj
      exact h.flagged j hj
    · exact h.flagged j hj

/-- A poll moves the front over, so one more token is before the queue. -/
theorem Ok.poll (h : n.Ok k) : ∃ k', n.poll.Ok k' := by
  obtain hp | ⟨i, q, hq, hb, hp⟩ := n.poll_cases
  · exact ⟨k, by rwa [hp]⟩
  · have hlen := h.len
    have hqueue := h.queue
    rw [hq, List.length_cons] at hlen
    rw [hq, List.length_cons, List.range'_succ, List.cons.injEq] at hqueue
    obtain ⟨rfl, hrest⟩ := hqueue
    refine ⟨i + 1, ?_⟩
    rw [hp]
    refine ⟨?_, hrest, fun j hj => ?_, fun j hj => ?_⟩
    · show i + 1 + q.length = n.posted
      omega
    · simp only [Function.update_apply]
      split
      · exact hb
      · exact h.done j (by omega)
    · simp only [Function.update_apply] at hj
      split at hj
      · omega
      · have := h.flagged j hj
        omega

/-- A set flag speaks for the token and all before it. -/
theorem Ok.both_of_flag (h : n.Ok k) {i j : ℕ} (hf : (n.token i).allPrev = true) (hj : j ≤ i) :
    (n.token j).both = true :=
  h.done j (hj.trans_lt (h.flagged i hf))

end Entry

/-! ### The machine -/

/-- The invariant of the machine. -/
structure Inv (s : State α) : Prop where
  entries : ∀ e, ∃ k, (s.entry e).Ok k
  lt_made : ∀ e ∈ s.props, e < s.made
  addrs : (s.props.map fun e => (s.entry e).addr).Nodup
  newest : ∀ e ∈ s.props, ∀ e', e < e' → e' < s.made → (s.entry e').addr ≠ (s.entry e).addr
  waiting : ∀ tokens, s.waiting = some tokens → (tokens.map fun t => (s.entry t.1).addr).Nodup ∧
    ∀ t ∈ tokens, t.1 < s.made ∧ t.2 < (s.entry t.1).posted

variable {s t : State α} {rep : ℕ}

/-- What a step can do, with its guard. -/
theorem step_cases {ev : Event α} (h : step rep s ev = some t) :
    (ev = .post ∧ s.waiting = none ∧ s.suspended = false ∧ t = s.post) ∨
    (∃ e i half, ev = .complete e i half ∧ e < s.made ∧ i < (s.entry e).posted ∧
      t = s.modify e fun n => n.complete i half) ∨
    (∃ e, ev = .poll e ∧ e ∈ s.props ∧ t = s.modify e Entry.poll) ∨
    (∃ tokens, ev = .ret ∧ s.waiting = some tokens ∧ quorumCompleted rep s tokens = true ∧
      t = { s with waiting := none }) ∨
    (∃ a, ev = .erase a ∧ (∃ e ∈ s.props, (s.entry e).addr = a) ∧ t = s.erase a) ∨
    (∃ a, ev = .add a ∧ a ∉ s.peers ∧ t = s.add a) ∨
    ((ev = .suspend ∨ ev = .resume) ∧ ∃ b, t = { s with suspended := b }) := by
  cases ev with
  | post =>
    simp only [step, Option.ite_none_right_eq_some, Option.some.injEq] at h
    exact .inl ⟨rfl, h.1.1, h.1.2, h.2.symm⟩
  | complete e i half =>
    simp only [step, Option.ite_none_right_eq_some, Option.some.injEq] at h
    exact .inr (.inl ⟨e, i, half, rfl, h.1.1, h.1.2, h.2.symm⟩)
  | poll e =>
    simp only [step, Option.ite_none_right_eq_some, Option.some.injEq] at h
    exact .inr (.inr (.inl ⟨e, rfl, h.1, h.2.symm⟩))
  | ret =>
    simp only [step] at h
    split at h
    · rename_i tokens hw
      simp only [Option.ite_none_right_eq_some, Option.some.injEq] at h
      exact .inr (.inr (.inr (.inl ⟨tokens, rfl, hw, h.1, h.2.symm⟩)))
    · cases h
  | erase a =>
    simp only [step, Option.ite_none_right_eq_some, Option.some.injEq] at h
    exact .inr (.inr (.inr (.inr (.inl ⟨a, rfl, h.1, h.2.symm⟩))))
  | add a =>
    simp only [step, Option.ite_none_left_eq_some, Option.some.injEq] at h
    exact .inr (.inr (.inr (.inr (.inr (.inl ⟨a, rfl, h.1, h.2.symm⟩)))))
  | suspend =>
    simp only [step, Option.ite_none_right_eq_some, Option.some.injEq] at h
    exact .inr (.inr (.inr (.inr (.inr (.inr ⟨.inl rfl, true, h.2.symm⟩)))))
  | resume =>
    simp only [step, Option.ite_none_right_eq_some, Option.some.injEq] at h
    exact .inr (.inr (.inr (.inr (.inr (.inr ⟨.inr rfl, false, h.2.symm⟩)))))

/-- A return ends a wait. -/
theorem ret_waiting (h : step rep s .ret = some t) :
    ∃ tokens, s.waiting = some tokens ∧ t.waiting = none := by
  simp only [step] at h
  split at h
  · rename_i tokens hw
    simp only [Option.ite_none_right_eq_some, Option.some.injEq] at h
    exact ⟨tokens, hw, h.2 ▸ rfl⟩
  · cases h

section State

omit [DecidableEq α]

@[simp] theorem modify_addr {f : Entry α → Entry α} (hf : ∀ n, (f n).addr = n.addr) (e e' : ℕ) :
    ((s.modify e f).entry e').addr = (s.entry e').addr := by
  simp only [State.modify, Function.update_apply]
  split
  · rename_i he
    rw [hf, he]
  · rfl

theorem modify_posted {f : Entry α → Entry α} (hf : ∀ n, (f n).posted = n.posted) (e e' : ℕ) :
    ((s.modify e f).entry e').posted = (s.entry e').posted := by
  simp only [State.modify, Function.update_apply]
  split
  · rename_i he
    rw [hf, he]
  · rfl

@[simp] theorem post_addr (s : State α) (e : ℕ) : (s.post.entry e).addr = (s.entry e).addr := by
  simp only [State.post]
  split <;> rfl

theorem Inv.modify (h : Inv s) {f : Entry α → Entry α} (ha : ∀ n, (f n).addr = n.addr)
    (hp : ∀ n, (f n).posted = n.posted) (hok : ∀ n k, Entry.Ok n k → ∃ k', (f n).Ok k') (e : ℕ) :
    Inv (s.modify e f) where
  entries e' := by
    simp only [State.modify, Function.update_apply]
    split
    · obtain ⟨k, hk⟩ := h.entries e
      exact hok _ k hk
    · exact h.entries e'
  lt_made := h.lt_made
  addrs := by
    simp only [modify_addr ha]
    exact h.addrs
  newest := by
    simp only [modify_addr ha]
    exact h.newest
  waiting tokens hw := by
    obtain ⟨hn, hlt⟩ := h.waiting tokens hw
    simp only [modify_addr ha, modify_posted hp]
    exact ⟨hn, hlt⟩

theorem Inv.post (h : Inv s) : Inv s.post where
  entries e := by
    obtain ⟨k, hk⟩ := h.entries e
    simp only [State.post]
    split
    · exact ⟨k, hk.push⟩
    · exact ⟨k, hk⟩
  lt_made := h.lt_made
  addrs := by
    simp only [post_addr]
    exact h.addrs
  newest := by
    simp only [post_addr]
    exact h.newest
  waiting tokens hw := by
    simp only [State.post, Option.some.injEq] at hw
    subst hw
    refine ⟨?_, ?_⟩
    · simp only [post_addr, List.map_map]
      exact h.addrs
    · intro t ht
      obtain ⟨e, he, rfl⟩ := List.mem_map.mp ht
      refine ⟨h.lt_made e he, ?_⟩
      simp only [State.post, if_pos he, Entry.push_posted]
      omega

end State

theorem Inv.erase (h : Inv s) (a : α) : Inv (s.erase a) where
  entries := h.entries
  lt_made e he := h.lt_made e (List.mem_filter.mp he).1
  addrs := h.addrs.sublist (List.filter_sublist.map _)
  newest e he := h.newest e (List.mem_filter.mp he).1
  waiting := h.waiting

/-- The entries there were are not touched by an `AddPeer`. -/
theorem add_entry_of_ne {e : ℕ} (he : e ≠ s.made) (a : α) : (s.add a).entry e = s.entry e :=
  Function.update_of_ne he _ _

theorem add_entry_of_lt {e : ℕ} (he : e < s.made) (a : α) : (s.add a).entry e = s.entry e :=
  add_entry_of_ne (Nat.ne_of_lt he) a

@[simp] theorem add_entry_made (s : State α) (a : α) : (s.add a).entry s.made = .new a :=
  Function.update_self _ _ _

theorem Inv.add (h : Inv s) (a : α) : Inv (s.add a) where
  entries e := by
    simp only [State.add, Function.update_apply]
    split
    · exact ⟨0, Entry.ok_new a⟩
    · exact h.entries e
  lt_made e he := by
    rcases List.mem_append.mp he with he | he
    · exact (h.lt_made e (List.mem_filter.mp he).1).trans (Nat.lt_succ_self _)
    · rw [List.mem_singleton.mp he]
      exact Nat.lt_succ_self _
  addrs := by
    have hold : ∀ e ∈ s.props.filter (fun e => (s.entry e).addr ≠ a),
        ((s.add a).entry e).addr = (s.entry e).addr := fun e he => by
      rw [add_entry_of_lt (h.lt_made e (List.mem_filter.mp he).1)]
    have hnew : ((s.add a).entry s.made).addr = a := by rw [add_entry_made]; rfl
    show (((s.props.filter fun e => (s.entry e).addr ≠ a) ++ [s.made]).map
      fun e => ((s.add a).entry e).addr).Nodup
    rw [List.map_append, List.map_congr_left hold, List.map_singleton, hnew]
    refine List.nodup_append.mpr ⟨h.addrs.sublist (List.filter_sublist.map _), List.nodup_singleton a, ?_⟩
    rintro b hb c hc rfl
    obtain ⟨e, he, rfl⟩ := List.mem_map.mp hb
    exact absurd (List.mem_singleton.mp hc) (by simpa using (List.mem_filter.mp he).2)
  newest e he e' hlt hmade := by
    rcases List.mem_append.mp he with he | he
    · obtain ⟨he, hne⟩ := List.mem_filter.mp he
      rw [add_entry_of_lt (h.lt_made e he)]
      rcases Nat.lt_succ_iff_lt_or_eq.mp hmade with hmade | rfl
      · rw [add_entry_of_lt hmade]
        exact h.newest e he e' hlt hmade
      · rw [add_entry_made]
        exact fun hc => absurd hc.symm (by simpa [Entry.new] using hne)
    · rw [List.mem_singleton.mp he] at hlt
      exact absurd hmade (by simp only [State.add]; omega)
  waiting tokens hw := by
    obtain ⟨hn, hlt⟩ := h.waiting tokens hw
    have hold : ∀ t ∈ tokens, (s.add a).entry t.1 = s.entry t.1 :=
      fun t ht => add_entry_of_lt (hlt t ht).1 a
    refine ⟨?_, fun t ht => ?_⟩
    · rw [List.map_congr_left fun t ht => by rw [hold t ht]]
      exact hn
    · rw [hold t ht]
      exact ⟨(hlt t ht).1.trans (Nat.lt_succ_self _), (hlt t ht).2⟩

/-- Every step keeps the invariant. -/
theorem Inv.step (h : Inv s) {ev : Event α} (hs : step rep s ev = some t) : Inv t := by
  obtain ⟨-, -, -, rfl⟩ | ⟨e, i, half, -, -, -, rfl⟩ | ⟨e, -, -, rfl⟩ | ⟨tokens, -, -, -, rfl⟩ |
    ⟨a, -, -, rfl⟩ | ⟨a, -, -, rfl⟩ | ⟨-, b, rfl⟩ := step_cases hs
  · exact h.post
  · exact h.modify (f := fun n => n.complete i half) (fun _ => rfl) (fun _ => rfl)
      (fun _ k hk => ⟨k, hk.complete i half⟩) e
  · exact h.modify Entry.poll_addr Entry.poll_posted (fun n k hk => hk.poll) e
  · exact ⟨h.entries, h.lt_made, h.addrs, h.newest, fun _ hw => absurd hw (by simp)⟩
  · exact h.erase a
  · exact h.add a
  · exact ⟨h.entries, h.lt_made, h.addrs, h.newest, h.waiting⟩

theorem inv_init [Inhabited α] (addrs : List α) : Inv (init addrs) := by
  suffices h : ∀ (as : List α) (s : State α), Inv s →
      Inv (as.foldl State.addPeer s) by
    refine h addrs _ ⟨fun _ => ⟨0, Entry.ok_new _⟩, ?_, ?_, ?_, ?_⟩
    · simp [State.empty]
    · simp [State.empty]
    · simp [State.empty]
    · simp [State.empty]
  intro as
  induction as with
  | nil => exact fun s hs => hs
  | cons a as ih =>
    intro s hs
    refine ih _ ?_
    unfold State.addPeer
    split
    · exact hs
    · exact hs.add a

/-- After `init` nothing is posted, and all entries are of different peers. -/
structure Blank (s : State α) : Prop where
  entries : ∀ e, ∃ a, s.entry e = .new a
  waiting : s.waiting = none
  known : ∀ e, e < s.made → (s.entry e).addr ∈ s.peers
  live : ∀ e, e < s.made → e ∈ s.props
  inj : ∀ e e', e < s.made → e' < s.made → (s.entry e).addr = (s.entry e').addr → e = e'

theorem Blank.add (h : Blank s) {a : α} (ha : a ∉ s.peers) : Blank (s.add a) where
  entries e := by
    simp only [State.add, Function.update_apply]
    split
    · exact ⟨a, rfl⟩
    · exact h.entries e
  waiting := h.waiting
  known e he := by
    rcases Nat.lt_succ_iff_lt_or_eq.mp he with he | rfl
    · rw [add_entry_of_lt he]
      exact List.mem_append_left _ (h.known e he)
    · rw [add_entry_made]
      exact List.mem_append_right _ (List.mem_singleton.mpr rfl)
  live e he := by
    rcases Nat.lt_succ_iff_lt_or_eq.mp he with he | rfl
    · refine List.mem_append_left _ (List.mem_filter.mpr ⟨h.live e he, ?_⟩)
      have hne : (s.entry e).addr ≠ a := fun hc => ha (hc ▸ h.known e he)
      simpa using hne
    · exact List.mem_append_right _ (List.mem_singleton.mpr rfl)
  inj e e' he he' := by
    -- the new peer is none of the known ones
    have hnew : ∀ e, e < s.made → (s.entry e).addr ≠ a := fun e he hc => ha (hc ▸ h.known e he)
    rcases Nat.lt_succ_iff_lt_or_eq.mp he with he | rfl <;>
      rcases Nat.lt_succ_iff_lt_or_eq.mp he' with he' | rfl
    · rw [add_entry_of_lt he, add_entry_of_lt he']
      exact h.inj e e' he he'
    · rw [add_entry_of_lt he, add_entry_made]
      exact fun hc => absurd hc (hnew e he)
    · rw [add_entry_of_lt he', add_entry_made]
      exact fun hc => absurd hc.symm (hnew e' he')
    · exact fun _ => rfl

theorem blank_init [Inhabited α] (addrs : List α) : Blank (init addrs) := by
  suffices h : ∀ (as : List α) (s : State α), Blank s → Blank (as.foldl State.addPeer s) by
    refine h addrs _ ⟨fun _ => ⟨default, rfl⟩, rfl, ?_, ?_, ?_⟩
    · simp [State.empty]
    · simp [State.empty]
    · simp [State.empty]
  intro as
  induction as with
  | nil => exact fun s hs => hs
  | cons a as ih =>
    intro s hs
    refine ih _ ?_
    unfold State.addPeer
    split
    · exact hs
    · exact hs.add ‹_›

theorem inv_of_reach [Inhabited α] {addrs : List α} (h : Trace.Reach (step rep) (init addrs) s) : Inv s :=
  h.inv (inv_init addrs) fun _ _ _ hs he => hs.step he

/-! ### What a step leaves alone -/

/-- A step that makes no entry and no token, and removes at most entries. -/
structure Calm (s t : State α) : Prop where
  made : t.made = s.made
  addr : ∀ e, (t.entry e).addr = (s.entry e).addr
  posted : ∀ e, (t.entry e).posted = (s.entry e).posted
  props : ∀ e ∈ t.props, e ∈ s.props
  waiting : ∀ tokens, t.waiting = some tokens → s.waiting = some tokens

/-- Every step but a post and an `AddPeer` is calm. -/
theorem calm_step {ev : Event α} (h : step rep s ev = some t) (hp : ev ≠ .post) (ha : ∀ a, ev ≠ .add a) :
    Calm s t := by
  obtain ⟨rfl, -⟩ | ⟨e, i, half, -, -, -, rfl⟩ | ⟨e, -, -, rfl⟩ | ⟨tokens, -, -, -, rfl⟩ |
    ⟨a, -, -, rfl⟩ | ⟨a, rfl, -⟩ | ⟨-, b, rfl⟩ := step_cases h
  · exact absurd rfl hp
  · exact ⟨rfl, modify_addr (fun n => n.complete_addr i half) e,
      modify_posted (fun n => n.complete_posted i half) e, fun _ he => he, fun _ hw => hw⟩
  · exact ⟨rfl, modify_addr Entry.poll_addr e, modify_posted Entry.poll_posted e, fun _ he => he, fun _ hw => hw⟩
  · exact ⟨rfl, fun _ => rfl, fun _ => rfl, fun _ he => he, fun _ hw => absurd hw (by simp)⟩
  · exact ⟨rfl, fun _ => rfl, fun _ => rfl, fun _ he => (List.mem_filter.mp he).1, fun _ hw => hw⟩
  · exact absurd rfl (ha a)
  · exact ⟨rfl, fun _ => rfl, fun _ => rfl, fun _ he => he, fun _ hw => hw⟩

theorem eq_post (h : step rep s .post = some t) : t = s.post := by
  simp only [step, Option.ite_none_right_eq_some, Option.some.injEq] at h
  exact h.2.symm

theorem eq_add {a : α} (h : step rep s (.add a) = some t) : t = s.add a := by
  simp only [step, Option.ite_none_left_eq_some, Option.some.injEq] at h
  exact h.2.symm

/-- Only the watcher changes `remote_props`. -/
theorem props_step {ev : Event α} (h : step rep s ev = some t) (he : ∀ a, ev ≠ .erase a)
    (ha : ∀ a, ev ≠ .add a) : t.props = s.props := by
  obtain ⟨-, -, -, rfl⟩ | ⟨e, i, half, -, -, -, rfl⟩ | ⟨e, -, -, rfl⟩ | ⟨tokens, -, -, -, rfl⟩ |
    ⟨a, rfl, -⟩ | ⟨a, rfl, -⟩ | ⟨-, b, rfl⟩ := step_cases h
  · rfl
  · rfl
  · rfl
  · rfl
  · exact absurd rfl (he a)
  · exact absurd rfl (ha a)
  · rfl

/-- Entries are never unmade. -/
theorem made_le_step {ev : Event α} (h : step rep s ev = some t) : s.made ≤ t.made := by
  obtain ⟨-, -, -, rfl⟩ | ⟨e, i, half, -, -, -, rfl⟩ | ⟨e, -, -, rfl⟩ | ⟨tokens, -, -, -, rfl⟩ |
    ⟨a, -, -, rfl⟩ | ⟨a, -, -, rfl⟩ | ⟨-, b, rfl⟩ := step_cases h
  all_goals first | exact le_rfl | exact Nat.le_succ _

/-- Halves complete only by their own step. -/
theorem completed_step {ev : Event α} (h : step rep s ev = some t) {e i : ℕ} {half : Half}
    (hc : t.completed e i half = true) : s.completed e i half = true ∨ ev = .complete e i half := by
  obtain ⟨rfl, -, -, rfl⟩ | ⟨e', i', half', rfl, -, -, rfl⟩ | ⟨e', -, -, rfl⟩ | ⟨tokens, -, -, -, rfl⟩ |
    ⟨a, -, -, rfl⟩ | ⟨a, rfl, -, rfl⟩ | ⟨-, b, rfl⟩ := step_cases h
  · simp only [State.completed, State.post] at hc ⊢
    split at hc
    · simp only [Entry.push, Function.update_apply] at hc
      split at hc
      · simp at hc
      · exact .inl hc
    · exact .inl hc
  · simp only [State.completed, State.modify, Function.update_apply] at hc ⊢
    split at hc
    · rename_i he
      simp only [Entry.complete, Function.update_apply] at hc
      subst he
      split at hc
      · rename_i hi
        subst hi
        rcases Token.complete_half hc with hc | rfl
        · exact .inl hc
        · exact .inr rfl
      · exact .inl hc
    · exact .inl hc
  · simp only [State.completed, State.modify, Function.update_apply] at hc ⊢
    split at hc
    · rename_i he
      subst he
      obtain hp | ⟨k, q, -, -, hp⟩ := (s.entry e).poll_cases
      · rw [hp] at hc
        exact .inl hc
      · rw [hp] at hc
        simp only [Function.update_apply] at hc
        split at hc
        · rename_i hi
          subst hi
          exact .inl (by simpa using hc)
        · exact .inl hc
    · exact .inl hc
  · exact .inl hc
  · exact .inl hc
  · simp only [State.completed, State.add, Function.update_apply] at hc ⊢
    split at hc
    · simp [Entry.new] at hc
    · exact .inl hc
  · exact .inl hc

omit [DecidableEq α] in
/-- A set flag speaks for both halves of the token and of all before it. -/
theorem Inv.completed_of_flag (h : Inv s) {e i j : ℕ} (hf : s.flag (e, i) = true) (hj : j ≤ i) (half : Half) :
    s.completed e j half = true := by
  obtain ⟨k, hk⟩ := h.entries e
  exact Token.half_of_both (hk.both_of_flag hf hj) half

/-! ### The count -/

omit [DecidableEq α] in
/-- The loop finds more than half of the replication factor among the flags. -/
theorem countLoop_flags : ∀ {tokens : List (ℕ × ℕ)} {n : ℕ}, countLoop rep s tokens n = true →
    rep / 2 < n + (tokens.filter s.flag).length := by
  intro tokens
  induction tokens with
  | nil =>
    intro _ h
    simp [countLoop] at h
  | cons t ts ih =>
    intro n h
    simp only [countLoop] at h
    by_cases hf : s.flag t = true
    · rw [if_pos hf] at h
      rw [List.filter_cons_of_pos hf, List.length_cons]
      split at h
      · omega
      · have := ih h
        omega
    · rw [if_neg hf] at h
      rw [List.filter_cons_of_neg hf]
      split at h
      · omega
      · exact ih h

/-- A return through the count has flags of distinct peers behind it. -/
theorem flags_of_count (hI : Inv s) {tokens : List (ℕ × ℕ)} (hw : s.waiting = some tokens)
    (hret : (step rep s .ret).isSome) (hcount : rep / 2 < s.peers.length) :
    ∃ q : List (ℕ × ℕ), q.Sublist tokens ∧ rep / 2 < q.length ∧
      (q.map fun t => (s.entry t.1).addr).Nodup ∧ ∀ t ∈ q, s.flag t = true := by
  have hq : quorumCompleted rep s tokens = true := by
    simp only [step, hw] at hret
    by_contra hne
    rw [if_neg hne] at hret
    exact absurd hret (by simp)
  rw [quorumCompleted, if_neg (not_le.mpr hcount)] at hq
  have hlen := countLoop_flags hq
  rw [Nat.zero_add] at hlen
  exact ⟨tokens.filter s.flag, List.filter_sublist, hlen,
    (hI.waiting tokens hw).1.sublist (List.filter_sublist.map _), fun t ht => (List.mem_filter.mp ht).2⟩

/-- **Quorum counting is prefix-closed per peer.** When `WriteQuorum` returns
through the count, the tokens of this write at more than half of the
replication factor of distinct peers are completed, together with those of
every earlier write through the same entry. -/
theorem count_prefix_closed [Inhabited α] {addrs : List α} (h : Trace.Reach (step rep) (init addrs) s)
    {tokens : List (ℕ × ℕ)} (hw : s.waiting = some tokens) (hret : (step rep s .ret).isSome)
    (hcount : rep / 2 < s.peers.length) :
    ∃ q : List (ℕ × ℕ), q.Sublist tokens ∧ rep / 2 < q.length ∧ (q.map fun t => (s.entry t.1).addr).Nodup ∧
      ∀ t ∈ q, ∀ j ≤ t.2, ((s.entry t.1).token j).data = true ∧ ((s.entry t.1).token j).seq = true := by
  have hI := inv_of_reach h
  obtain ⟨q, hsub, hlen, hnodup, hflag⟩ := flags_of_count hI hw hret hcount
  refine ⟨q, hsub, hlen, hnodup, fun t ht j hj => ?_⟩
  have hdone := fun half => hI.completed_of_flag (hflag t ht) hj half
  exact ⟨hdone .data, hdone .seq⟩

/-- Three peers, one of them slow, and the second write. -/
def twoWrites : List (Event ℕ) :=
  [.post, .complete 0 0 .data, .complete 0 0 .seq, .complete 2 0 .seq, .complete 2 0 .data, .poll 0, .poll 2, .ret,
    .post, .complete 0 1 .seq, .complete 2 1 .data, .complete 2 1 .seq, .complete 0 1 .data, .poll 0, .poll 2]

theorem count_prefix_closed_twoWrites : ∃ s : State ℕ, Trace.Reach (step 3) (init [10, 11, 12]) s ∧
    s.waiting = some [(0, 1), (1, 1), (2, 1)] ∧ (step 3 s .ret).isSome ∧ 3 / 2 < s.peers.length ∧
    ∃ q : List (ℕ × ℕ), q.Sublist [(0, 1), (1, 1), (2, 1)] ∧ 3 / 2 < q.length ∧
      (q.map fun t => (s.entry t.1).addr).Nodup ∧
      ∀ t ∈ q, ∀ j ≤ t.2, ((s.entry t.1).token j).data = true ∧ ((s.entry t.1).token j).seq = true := by
  have hrun : ∃ s : State ℕ, Trace.Reach (step 3) (init [10, 11, 12]) s ∧
      s.waiting = some [(0, 1), (1, 1), (2, 1)] ∧ (step 3 s .ret).isSome ∧ 3 / 2 < s.peers.length :=
    Trace.exists_reach_of_exec twoWrites (by decide)
  obtain ⟨s, hs, hw, hret, hcount⟩ := hrun
  exact ⟨s, hs, hw, hret, hcount, count_prefix_closed hs hw hret hcount⟩

end Quorum
end ComputeSideLog
