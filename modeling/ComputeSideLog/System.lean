/-
# The client, its connections and its peers

This file puts the pieces together: the writer (`Append` / `WritePos` down to
the return of `WriteQuorum`), the RDMA connections to the peers, the memories
of the peers, and the client watcher (`replacePeer`, `AddPeer`,
`recoverPeer`), as one machine.

* The writer updates the local buffer, posts to every entry of
  `remote_props`, polls and returns. The bytes of `memcpy` and of the store
  to `seq_addr` become visible in any order (`put`).
* A connection carries the posted writes in order. The network card reads the
  source bytes of a write at any time after the post (`fetch`, unless
  `Reads.atPost`), and the write is applied at the peer once all are read.
* A half of a token can complete, always with success, when its write is
  applied. The bookkeeping of tokens is the machine of `Quorum.lean`.
* The watcher erases an entry, adds one, posts the bulk write of `recoverPeer`
  to it and waits for that. `AddPeer` may fail after the insertion, and then
  nothing is copied. A server that is connected to again keeps the region and
  drops the old connection.
* A server may crash, which loses its memory.

`log`, `landed`, `acked`, the `born` of a write and the `first` of a
connection are bookkeeping: nothing reads them.

Key definitions: `Sys`, `Sys.step`, `Sys.init`.
Key theorems: `Sys.Step.of_step` (what a step can do), `Sys.quorum_reach`.
-/
import ComputeSideLog.Lib.Dma
import ComputeSideLog.Image
import ComputeSideLog.Quorum

namespace ComputeSideLog

open Quorum (Half)

/-- When the source bytes of a posted write are read. -/
inductive Reads where
  | atPost
  | anyTime
  deriving DecidableEq, Repr

/-- What a posted write is: one half of a token, or of the bulk copy of
`recoverPeer`. -/
inductive Role where
  | token (i : ℕ) (h : Half)
  | bulk (h : Half)
  deriving DecidableEq, Repr

/-- The two writes of a `writeTwoPlace`, posted at time `born`. -/
def postPair (r : Reads) (ws : List RdmaWrite) (role : Half → Role) (born : ℕ) : List (Dma.Op Role) :=
  ws.zipWith (fun w h => ⟨w.off, w.len, role h, born, fun x => if r = .atPost then some (w.src x) else none⟩)
    [.data, .seq]

/-- A connection: the writes posted to it, how many of them are applied,
whether it still works, whether its server has crashed since, the number of
calls posted before it was made, and whether it needs no bulk copy any more. -/
structure Conn where
  ops : List (Dma.Op Role)
  applied : ℕ
  working : Bool
  lost : Bool
  first : ℕ
  copied : Bool

namespace Conn

/-- A new connection after `first` posted calls. -/
def new (first : ℕ) (copied : Bool) : Conn := ⟨[], 0, true, false, first, copied⟩

/-- More writes posted. -/
def push (c : Conn) (os : List (Dma.Op Role)) : Conn := { c with ops := c.ops ++ os }

/-- The card reads source bytes of write `k`. -/
def fetch (c : Conn) (k : ℕ) (src : Mem) (off len : ℕ) : Conn :=
  { c with ops := c.ops.modify k fun o => o.fetch src off len }

/-- A write with this role is applied. -/
def Done (c : Conn) (role : Role) : Prop := ∃ o ∈ c.ops.take c.applied, o.tag = role

instance (c : Conn) (role : Role) : Decidable (c.Done role) :=
  inferInstanceAs (Decidable (∃ o ∈ c.ops.take c.applied, o.tag = role))

/-- After one connection changed: the changed one, or one as before. -/
theorem of_update {P : Conn → Prop} {conn : ℕ → Conn} {e e' : ℕ} {c : Conn} (hold : P (conn e'))
    (hnew : e' = e → P c) : P (Function.update conn e c e') := by
  by_cases he : e' = e
  · rw [he, Function.update_self]
    exact hnew he
  · rw [Function.update_of_ne he]
    exact hold

end Conn

/-- Where the writer is: between calls, storing `size` bytes at `off` such
that the buffer becomes `target`, or waiting in `WriteQuorum`. -/
inductive Pc where
  | idle
  | storing (off size : ℕ) (target : Mem)
  | posted (off size : ℕ)

instance (pc : Pc) (off size : ℕ) : Decidable (pc = .posted off size) :=
  match pc with
  | .idle => isFalse (by simp)
  | .storing _ _ _ => isFalse (by simp)
  | .posted off' size' => decidable_of_iff (off' = off ∧ size' = size) (by simp)

/-- Where the watcher is: idle, between `AddPeer` and the bulk write for an
entry, or waiting for the bulk write. -/
inductive Watcher where
  | idle
  | added (e : ℕ)
  | copying (e : ℕ)
  deriving DecidableEq, Repr

/-- The whole state. -/
structure Sys (α : Type*) where
  q : Quorum.State α
  conn : ℕ → Conn
  mem : α → Mem
  cli : Client
  pc : Pc
  watcher : Watcher
  log : List Call
  landed : α → List (Dma.Op Role)
  acked : List ℕ

/-- The client with other buffer contents. -/
def Client.withMem (c : Client) (m : Mem) : Client := { c with buffer := { c.buffer with mem := m } }

namespace Sys

variable {α : Type*}

/-- One step of the writer, the network card, a peer or the watcher. -/
inductive Event (α : Type*) where
  | begin (w : Call)
  | put (off len : ℕ)
  | post
  | fetch (e k off len : ℕ)
  | apply (e : ℕ)
  | complete (e i : ℕ) (h : Half)
  | poll (e : ℕ)
  | ret
  | erase (a : α)
  | add (a : α) (ok : Bool)
  | bulk
  | bulkDone
  | suspend
  | resume
  | crash (a : α)
  deriving DecidableEq, Repr

/-- The number of calls posted. -/
def postedCalls (s : Sys α) : ℕ :=
  match s.pc with
  | .storing _ _ _ => s.log.length - 1
  | _ => s.log.length

/-- The start of `Append` or `WritePos`, before any byte is stored. -/
def begin (s : Sys α) (w : Call) : Sys α :=
  { s with
    cli := (s.cli.call w).withMem s.cli.buffer.mem
    pc := .storing (w.off s.cli) (w.size s.cli) (s.cli.call w).buffer.mem
    log := s.log ++ [w] }

/-- Some of the bytes being stored become visible. -/
def put (s : Sys α) (target : Mem) (off len : ℕ) : Sys α :=
  { s with cli := s.cli.withMem (s.cli.buffer.mem.copy target off len) }

/-- All bytes being stored are visible. -/
def Stored (s : Sys α) (off size : ℕ) (target : Mem) : Prop :=
  (∀ x, off ≤ x → x < off + size → s.cli.buffer.mem x = target x) ∧
    ∀ x, s.cli.seqAddr ≤ x → x < s.cli.seqAddr + seqWidth → s.cli.buffer.mem x = target x

instance (s : Sys α) (off size : ℕ) (target : Mem) : Decidable (s.Stored off size target) :=
  inferInstanceAs (Decidable (_ ∧ _))

/-- The posts of `WriteQuorum`, `q` being the tokens after them. -/
def post (r : Reads) (s : Sys α) (q : Quorum.State α) (off size : ℕ) : Sys α :=
  { s with
    q := q
    conn := fun e =>
      if e ∈ s.q.props then
        (s.conn e).push (postPair r (s.cli.writeTwoPlace off size) (.token (s.q.entry e).posted) s.log.length)
      else s.conn e
    pc := .posted off size }

/-- The next write of connection `e` lands at its peer. -/
def land [DecidableEq α] (s : Sys α) (e : ℕ) (o : Dma.Op Role) : Sys α :=
  let a := (s.q.entry e).addr
  { s with
    conn := Function.update s.conn e { s.conn e with applied := (s.conn e).applied + 1 }
    mem := Function.update s.mem a (o.land (s.mem a))
    landed := Function.update s.landed a (o :: s.landed a) }

/-- The return of `WriteQuorum`; a return through the count is recorded. -/
def ret (rep : ℕ) (s : Sys α) (q : Quorum.State α) : Sys α :=
  { s with
    q := q
    pc := .idle
    acked := if rep / 2 < s.q.peers.length then s.acked ++ [s.log.length] else s.acked }

/-- `AddPeer`: the server keeps its region and drops older connections. -/
def add [DecidableEq α] (s : Sys α) (q : Quorum.State α) (a : α) (ok : Bool) : Sys α :=
  { s with
    q := q
    conn := fun e =>
      if e = s.q.made then .new s.postedCalls false
      else if (s.q.entry e).addr = a then { s.conn e with working := false }
      else s.conn e
    watcher := if ok then .added s.q.made else .idle }

/-- The bulk write of `recoverPeer` through entry `e`. -/
def bulk (r : Reads) (s : Sys α) (e : ℕ) : Sys α :=
  { s with
    conn := Function.update s.conn e
      { (s.conn e).push (postPair r s.cli.syncWrites .bulk s.postedCalls) with copied := true }
    watcher := .copying e }

/-- A server crashes. -/
def crash [DecidableEq α] (s : Sys α) (a : α) : Sys α :=
  { s with
    conn := fun e =>
      if (s.q.entry e).addr = a then { s.conn e with working := false, lost := true } else s.conn e
    mem := Function.update s.mem a Mem.zero
    landed := Function.update s.landed a [] }

/-- A step of the bookkeeping alone. -/
def withQ (s : Sys α) (q : Quorum.State α) : Sys α := { s with q := q }

variable [DecidableEq α]

/-- The machine. -/
def step (rep : ℕ) (r : Reads) (s : Sys α) : Event α → Option (Sys α)
  | .begin w =>
    match s.pc with
    | .idle => some (s.begin w)
    | _ => none
  | .put off len =>
    match s.pc with
    | .storing _ _ target => some (s.put target off len)
    | _ => none
  | .post =>
    match s.pc with
    | .storing off size target =>
      if s.Stored off size target then
        (Quorum.step rep s.q .post).map fun q => s.post r q off size
      else none
    | _ => none
  | .fetch e k off len =>
    if e < s.q.made ∧ (s.conn e).applied ≤ k then
      some { s with conn := Function.update s.conn e ((s.conn e).fetch k s.cli.buffer.mem off len) }
    else none
  | .apply e =>
    match (s.conn e).ops[(s.conn e).applied]? with
    | some o => if e < s.q.made ∧ (s.conn e).working ∧ o.Ready then some (s.land e o) else none
    | none => none
  | .complete e i h =>
    if (s.conn e).Done (.token i h) then (Quorum.step rep s.q (.complete e i h)).map s.withQ else none
  | .poll e => (Quorum.step rep s.q (.poll e)).map s.withQ
  | .ret => (Quorum.step rep s.q .ret).map fun q => s.ret rep q
  | .erase a => if s.watcher = .idle then (Quorum.step rep s.q (.erase a)).map s.withQ else none
  | .add a ok =>
    if s.watcher = .idle then (Quorum.step rep s.q (.add a)).map fun q => s.add q a ok else none
  | .bulk =>
    match s.watcher with
    | .added e => some (s.bulk r e)
    | _ => none
  | .bulkDone =>
    match s.watcher with
    | .copying e =>
      if (s.conn e).Done (.bulk .data) ∧ (s.conn e).Done (.bulk .seq) then some { s with watcher := .idle }
      else none
    | _ => none
  | .suspend => if s.watcher = .idle then (Quorum.step rep s.q .suspend).map s.withQ else none
  | .resume => if s.watcher = .idle then (Quorum.step rep s.q .resume).map s.withQ else none
  | .crash a => some (s.crash a)

/-- A fresh client after `init`, with zeroed regions on the peers. -/
def init [Inhabited α] (L : Layout) (addrs : List α) : Sys α where
  q := Quorum.init addrs
  conn := fun _ => .new 0 true
  mem := fun _ => Mem.zero
  cli := Client.fresh L
  pc := .idle
  watcher := .idle
  log := []
  landed := fun _ => []
  acked := []

/-! ### What a step can do -/

/-- The events that are a step of the bookkeeping and nothing else. -/
def Event.bookkeeping : Event α → Option (Quorum.Event α)
  | .poll e => some (.poll e)
  | .erase a => some (.erase a)
  | .suspend => some .suspend
  | .resume => some .resume
  | _ => none

/-- The steps with their guards. -/
inductive Step (rep : ℕ) (r : Reads) (s : Sys α) : Event α → Sys α → Prop
  | begin (w : Call) : s.pc = .idle → Step rep r s (.begin w) (s.begin w)
  | put {off size : ℕ} {target : Mem} (o l : ℕ) : s.pc = .storing off size target →
      Step rep r s (.put o l) (s.put target o l)
  | post {off size : ℕ} {target : Mem} {q : Quorum.State α} : s.pc = .storing off size target →
      s.Stored off size target → Quorum.step rep s.q .post = some q → Step rep r s .post (s.post r q off size)
  | fetch (e k off len : ℕ) : e < s.q.made → (s.conn e).applied ≤ k → Step rep r s (.fetch e k off len)
      { s with conn := Function.update s.conn e ((s.conn e).fetch k s.cli.buffer.mem off len) }
  | apply (e : ℕ) {o : Dma.Op Role} : (s.conn e).ops[(s.conn e).applied]? = some o → e < s.q.made →
      (s.conn e).working = true → o.Ready → Step rep r s (.apply e) (s.land e o)
  | complete (e i : ℕ) (h : Half) {q : Quorum.State α} : (s.conn e).Done (.token i h) →
      Quorum.step rep s.q (.complete e i h) = some q → Step rep r s (.complete e i h) (s.withQ q)
  | quiet {ev : Event α} {qev : Quorum.Event α} {q : Quorum.State α} : ev.bookkeeping = some qev →
      Quorum.step rep s.q qev = some q → Step rep r s ev (s.withQ q)
  | ret {q : Quorum.State α} : Quorum.step rep s.q .ret = some q → Step rep r s .ret (s.ret rep q)
  | add (a : α) (ok : Bool) {q : Quorum.State α} : s.watcher = .idle →
      Quorum.step rep s.q (.add a) = some q → Step rep r s (.add a ok) (s.add q a ok)
  | bulk {e : ℕ} : s.watcher = .added e → Step rep r s .bulk (s.bulk r e)
  | bulkDone : Step rep r s .bulkDone { s with watcher := .idle }
  | crash (a : α) : Step rep r s (.crash a) (s.crash a)

theorem Step.of_step {rep : ℕ} {r : Reads} {s t : Sys α} {ev : Event α} (h : step rep r s ev = some t) :
    Step rep r s ev t := by
  cases ev with
  | begin w =>
    simp only [step] at h
    split at h
    · rename_i hpc
      obtain rfl := Option.some.inj h
      exact .begin w hpc
    · cases h
  | put off len =>
    simp only [step] at h
    split at h
    · rename_i hpc
      obtain rfl := Option.some.inj h
      exact .put off len hpc
    · cases h
  | post =>
    simp only [step] at h
    split at h
    · rename_i hpc
      simp only [Option.ite_none_right_eq_some, Option.map_eq_some_iff] at h
      obtain ⟨hst, q, hq, rfl⟩ := h
      exact .post hpc hst hq
    · cases h
  | fetch e k off len =>
    simp only [step, Option.ite_none_right_eq_some, Option.some.injEq] at h
    obtain ⟨⟨he, hk⟩, rfl⟩ := h
    exact .fetch e k off len he hk
  | apply e =>
    simp only [step] at h
    split at h
    · rename_i o ho
      simp only [Option.ite_none_right_eq_some, Option.some.injEq] at h
      obtain ⟨⟨he, hw, hr⟩, rfl⟩ := h
      exact .apply e ho he hw hr
    · cases h
  | complete e i half =>
    simp only [step, Option.ite_none_right_eq_some, Option.map_eq_some_iff] at h
    obtain ⟨hd, q, hq, rfl⟩ := h
    exact .complete e i half hd hq
  | poll e =>
    simp only [step, Option.map_eq_some_iff] at h
    obtain ⟨q, hq, rfl⟩ := h
    exact .quiet rfl hq
  | ret =>
    simp only [step, Option.map_eq_some_iff] at h
    obtain ⟨q, hq, rfl⟩ := h
    exact .ret hq
  | erase a =>
    simp only [step, Option.ite_none_right_eq_some, Option.map_eq_some_iff] at h
    obtain ⟨-, q, hq, rfl⟩ := h
    exact .quiet rfl hq
  | add a ok =>
    simp only [step, Option.ite_none_right_eq_some, Option.map_eq_some_iff] at h
    obtain ⟨hw, q, hq, rfl⟩ := h
    exact .add a ok hw hq
  | bulk =>
    simp only [step] at h
    split at h
    · rename_i hw
      obtain rfl := Option.some.inj h
      exact .bulk hw
    · cases h
  | bulkDone =>
    simp only [step] at h
    split at h
    · simp only [Option.ite_none_right_eq_some, Option.some.injEq] at h
      obtain ⟨-, rfl⟩ := h
      exact .bulkDone
    · cases h
  | suspend =>
    simp only [step, Option.ite_none_right_eq_some, Option.map_eq_some_iff] at h
    obtain ⟨-, q, hq, rfl⟩ := h
    exact .quiet rfl hq
  | resume =>
    simp only [step, Option.ite_none_right_eq_some, Option.map_eq_some_iff] at h
    obtain ⟨-, q, hq, rfl⟩ := h
    exact .quiet rfl hq
  | crash a =>
    simp only [step, Option.some.injEq] at h
    subst h
    exact .crash a

section Bookkeeping

variable {rep : ℕ} {s : Quorum.State α} {q : Quorum.State α} {ev : Event α} {qev : Quorum.Event α}
  (hev : ev.bookkeeping = some qev) (hq : Quorum.step rep s qev = some q)
include hev hq

theorem bookkeeping_calm : Quorum.Calm s q := by
  refine Quorum.calm_step hq ?_ ?_
  · rintro rfl
    cases ev <;> simp [Event.bookkeeping] at hev
  · rintro a rfl
    cases ev <;> simp [Event.bookkeeping] at hev

theorem bookkeeping_completed {e i : ℕ} {h : Half} (hc : q.completed e i h = true) :
    s.completed e i h = true := by
  refine (Quorum.completed_step hq hc).resolve_right ?_
  rintro rfl
  cases ev <;> simp [Event.bookkeeping] at hev

end Bookkeeping

/-- The bookkeeping evolves by its own steps. -/
theorem q_step {rep : ℕ} {r : Reads} {s t : Sys α} {ev : Event α} (h : step rep r s ev = some t) :
    t.q = s.q ∨ ∃ qev, Quorum.step rep s.q qev = some t.q := by
  cases Step.of_step h with
  | post _ _ hq => exact .inr ⟨_, hq⟩
  | complete e i half _ hq => exact .inr ⟨_, hq⟩
  | quiet _ hq => exact .inr ⟨_, hq⟩
  | ret hq => exact .inr ⟨_, hq⟩
  | add a ok _ hq => exact .inr ⟨_, hq⟩
  | _ => exact .inl rfl

/-- **The machine refines the bookkeeping of tokens**: every run of it is, seen
through `q`, a run of the machine of `Quorum.lean`. -/
theorem quorum_reach [Inhabited α] {rep : ℕ} {r : Reads} {L : Layout} {addrs : List α} {s : Sys α}
    (h : Trace.Reach (step rep r) (init L addrs) s) : Trace.Reach (Quorum.step rep) (Quorum.init addrs) s.q :=
  h.project Sys.q fun _ _ _ he => q_step he

end Sys
end ComputeSideLog
