/-
# Threads that write one log

`write` and `pwrite` of the interposed library release `csl_lock` before they
call `Append` and `WritePos` (`src/csl.cc`), so any number of threads write one
log at a time. `recover_lock` serialises only `WriteQuorum`, the last part of a
call (`src/rdma/client.cc`): the clamp, the range, `file_size`, the `memcpy`,
`seq.fetch_add` and the store of its result to the trailer are steps that
interleave with those of other calls, with the posts, and with the network
card, which reads the source bytes of a posted write at any time until it
lands.

Whatever the order, what a call has changed in the buffer stays unsent from
its change to its post only (`Unsent`). So a server that has nothing left to
apply holds the client's buffer byte for byte, except for such bytes
(`replicas_agree`): the replicas agree, and a call that returns leaves its
bytes on a majority, though the posts come in another order than the ranges
and the numbers.

The servers stay the same, and the store to the trailer, like every other step,
is taken as atomic. A call that no other interrupts is `Client.call`
(`exec_call`).

The numbers are the weak point. The trailer holds the one that was stored
last, which need not be the last that was taken; after a crash the log comes
back if and only if that one is neither 0 nor `seqMax` (`crash_recovers_iff`).
The call with number 0 may be the last to store it, and then all calls are
lost, however many were acknowledged (`crash_recovers_iff_raced`).

Key definitions: `Threads.At`, `Threads.step`, `Threads.Unsent`,
`Threads.Below`.
Key theorems: `exec_call`, `Sends.step`, `replicas_agree`, `crash_recovers_iff`.
-/
import ComputeSideLog.Lib.Dma
import ComputeSideLog.Lib.Trace
import ComputeSideLog.Lossy
import ComputeSideLog.System

namespace ComputeSideLog
namespace Threads

/-- Where a call is, named after what it has done; `placed` has its range, `sized`
the value for `file_size`, `numbered` the number for the trailer, and `posted` is
in `WriteQuorum`. -/
inductive At where
  | clamped (size : ℕ)
  | placed (off size : ℕ)
  | sized (off size fileSize : ℕ)
  | entered (off size : ℕ)
  | copied (off size : ℕ)
  | numbered (off size n : ℕ)
  | stored (off size : ℕ)
  | posted
  deriving DecidableEq, Repr

/-- A call of one of the threads. -/
structure Thread where
  call : Call
  pos : At
  deriving DecidableEq, Repr

/-- The client, the calls on it, the servers, the writes to each that have not
landed, in the order of their posts, what each holds, and the numbers stored
in the trailer so far, the latest first. -/
structure State (α : Type*) where
  cli : Client
  threads : List Thread
  peers : List α
  conn : α → List (Dma.Op Unit)
  mem : α → Mem
  numbers : List ℕ

/-- A thread makes a call, the call at position `i` takes its next step, the card
reads source bytes of a posted write, or the oldest one to a server lands. -/
inductive Event (α : Type*) where
  | call (w : Call)
  | next (i : ℕ)
  | fetch (a : α) (k off len : ℕ)
  | land (a : α)

variable {α : Type*}

/-- The writes that a call posts to each server. -/
def posted (c : Client) (off size : ℕ) : List (Dma.Op Unit) :=
  (c.writeTwoPlace off size).map fun w => ⟨w.off, w.len, (), 0, fun _ => none⟩

namespace State

/-- The call at position `i` gets to `p`. -/
def move (s : State α) (i : ℕ) (w : Call) (p : At) : State α := { s with threads := s.threads.set i ⟨w, p⟩ }

/-- The buffer gets other contents. -/
def store (s : State α) (m : Mem) : State α := { s with cli := s.cli.withMem m }

/-- The servers that have nothing left to apply. -/
def drained (s : State α) : List α := s.peers.filter fun a => (s.conn a).isEmpty

end State

/-- What `file_size` becomes: `Append` takes the value that `buf_offset` has by then. -/
def newSize (c : Client) (off size : ℕ) : Call → ℕ
  | .append _ => max c.fileSize c.bufOffset
  | .writePos _ _ => max ((off + size) % 2 ^ 64) c.fileSize

/-- A new call has its clamped size, and `WritePos` its range. -/
def enter (c : Client) : Call → At
  | .append buf => .clamped (c.clamp buf.length c.bufOffset)
  | .writePos buf pos => .placed pos (c.clamp buf.length pos)

variable [DecidableEq α]

/-- The next step of a call. A copy past the end of the region is undefined and no
step; `WriteQuorum` posts under `recover_lock` and returns when more than half
of the servers, or too few to matter, have applied all. -/
def next (rep : ℕ) (s : State α) (i : ℕ) : Thread → Option (State α)
  | ⟨w, .clamped size⟩ => some
    { s.move i w (.placed s.cli.bufOffset size) with
      cli := { s.cli with bufOffset := (s.cli.bufOffset + size) % 2 ^ 64 } }
  | ⟨w, .placed off size⟩ => some (s.move i w (.sized off size (newSize s.cli off size w)))
  | ⟨w, .sized off size fileSize⟩ => some
    { s.move i w (.entered off size) with cli := { s.cli with fileSize := fileSize } }
  | ⟨w, .entered off size⟩ =>
    if off + size ≤ s.cli.buffer.size then
      some ((s.move i w (.copied off size)).store (s.cli.buffer.mem.write off (w.buf.take size)))
    else none
  | ⟨w, .copied off size⟩ => some
    { s.move i w (.numbered off size s.cli.seq) with cli := { s.cli with seq := (s.cli.seq + 1) % 2 ^ 64 } }
  | ⟨w, .numbered off size n⟩ => some
    { (s.move i w (.stored off size)).store (s.cli.buffer.mem.putLE s.cli.seqAddr seqWidth n) with
      numbers := n :: s.numbers }
  | ⟨w, .stored off size⟩ =>
    if ∀ t ∈ s.threads, t.pos ≠ .posted then some
      { s.move i w .posted with
        conn := fun a => if a ∈ s.peers then s.conn a ++ posted s.cli off size else s.conn a }
    else none
  | ⟨_, .posted⟩ =>
    -- no call posts before this one returns, and a server that counts has applied what was
    -- posted before (`Quorum.count_prefix_closed`): it has nothing left
    if s.peers.length ≤ rep / 2 ∨ rep / 2 < s.drained.length then some { s with threads := s.threads.eraseIdx i }
    else none

/-- One event. -/
def step (rep : ℕ) (s : State α) : Event α → Option (State α)
  | .call w => some { s with threads := s.threads ++ [⟨w, enter s.cli w⟩] }
  | .next i => s.threads[i]?.bind (next rep s i)
  | .fetch a k off len => some
    { s with conn := Function.update s.conn a ((s.conn a).modify k fun o => o.fetch s.cli.buffer.mem off len) }
  | .land a =>
    match s.conn a with
    | [] => none
    | o :: os =>
      if o.Ready then some
        { s with conn := Function.update s.conn a os, mem := Function.update s.mem a (o.land (s.mem a)) }
      else none

/-- A new client on servers without data. -/
def init (L : Layout) (addrs : List α) : State α :=
  ⟨Client.fresh L, [], addrs, fun _ => [], fun _ => Mem.zero, []⟩

/-- The range that the call has copied and not posted. -/
def At.carries : At → Option (ℕ × ℕ)
  | .copied off size | .numbered off size _ | .stored off size => some (off, size)
  | _ => none

/-- The call has changed position `x` and not posted it. -/
def At.Unsent (seqOffset x : ℕ) : At → Prop
  | .copied off size | .numbered off size _ => off ≤ x ∧ x < off + size
  | .stored off size => (off ≤ x ∧ x < off + size) ∨ (seqOffset ≤ x ∧ x < seqOffset + seqWidth)
  | _ => False

instance (seqOffset x : ℕ) : ∀ p : At, Decidable (p.Unsent seqOffset x)
  | .copied _ _ | .numbered _ _ _ => instDecidableAnd
  | .stored _ _ => instDecidableOr
  | .clamped _ | .placed _ _ | .sized _ _ _ | .entered _ _ | .posted => instDecidableFalse

/-- One of the calls has. -/
def Unsent (seqOffset : ℕ) (threads : List Thread) (x : ℕ) : Prop := ∃ t ∈ threads, t.pos.Unsent seqOffset x

instance (seqOffset : ℕ) (threads : List Thread) (x : ℕ) : Decidable (Unsent seqOffset threads x) :=
  inferInstanceAs (Decidable (∃ t ∈ threads, _))

/-- The range that the call copies next. -/
def At.copies : At → Option (ℕ × ℕ)
  | .entered off size => some (off, size)
  | _ => none

/-- What is copied has a length that a post can say. -/
def Short (s : State α) : Event α → Prop
  | .next i => ∀ t ∈ s.threads[i]?, ∀ r ∈ t.pos.copies, r.2 < 2 ^ 32
  | _ => True

instance (s : State α) : ∀ e, Decidable (Short s e)
  | .next i => inferInstanceAs (Decidable (∀ t ∈ s.threads[i]?, ∀ r ∈ t.pos.copies, r.2 < 2 ^ 32))
  | .call _ | .fetch _ _ _ _ | .land _ => instDecidableTrue

/-- The steps of a call up to its posts. -/
def alone (s : State α) (w : Call) : List (Event α) :=
  match w with
  | .append _ => .call w :: List.replicate 6 (.next s.threads.length)
  | .writePos _ _ => .call w :: List.replicate 5 (.next s.threads.length)

section Alone

variable (rep : ℕ) (s : State α) (w : Call)

/-- One call more, at `p`, with its client and numbers. -/
def State.pending (c : Client) (p : At) (ns : List ℕ) : State α :=
  { s with cli := c, threads := s.threads ++ [⟨w, p⟩], numbers := ns }

/-- A step of that call to which the other calls do not matter. -/
theorem step_pending {c c' : Client} {p p' : At} {ns ns' : List ℕ}
    (h : next rep (s.pending w c p ns) s.threads.length ⟨w, p⟩ = some
      { (s.pending w c p ns).move s.threads.length w p' with cli := c', numbers := ns' }) :
    step rep (s.pending w c p ns) (.next s.threads.length) = some (s.pending w c' p' ns') := by
  have hget : (s.pending w c p ns).threads[s.threads.length]? = some ⟨w, p⟩ := List.getElem?_concat_length
  have hset : (s.threads ++ [(⟨w, p⟩ : Thread)]).set s.threads.length ⟨w, p'⟩ = s.threads ++ [⟨w, p'⟩] := by
    rw [List.set_append_right _ _ le_rfl, Nat.sub_self]
    rfl
  calc step rep (s.pending w c p ns) (.next s.threads.length)
      = (s.pending w c p ns).threads[s.threads.length]?.bind (next rep (s.pending w c p ns) s.threads.length) := rfl
    _ = some { (s.pending w c p ns).move s.threads.length w p' with cli := c', numbers := ns' } := by
        rw [hget, Option.bind_some, h]
    _ = some (s.pending w c' p' ns') := by
        unfold State.move State.pending
        dsimp only
        rw [hset]

/-- From its range on a call stores its bytes and its number. -/
theorem exec_placed {c : Client} {off size : ℕ} (ns : List ℕ) (hfit : off + size ≤ c.buffer.size) :
    Trace.exec (step rep) (s.pending w c (.placed off size) ns) (List.replicate 5 (.next s.threads.length)) = some
      (s.pending w { c.store w.buf off size with fileSize := newSize c off size w } (.stored off size)
        (c.seq :: ns)) := by
  let c₁ : Client := { c with fileSize := newSize c off size w }
  let c₂ : Client := c₁.withMem (c.buffer.mem.write off (w.buf.take size))
  let c₃ : Client := { c₂ with seq := (c.seq + 1) % 2 ^ 64 }
  have hsized : step rep (s.pending w c (.placed off size) ns) (.next s.threads.length) =
      some (s.pending w c (.sized off size (newSize c off size w)) ns) := step_pending rep s w rfl
  have hentered : step rep (s.pending w c (.sized off size (newSize c off size w)) ns) (.next s.threads.length) =
      some (s.pending w c₁ (.entered off size) ns) := step_pending rep s w rfl
  have hcopied : step rep (s.pending w c₁ (.entered off size) ns) (.next s.threads.length) =
      some (s.pending w c₂ (.copied off size) ns) := step_pending rep s w (if_pos hfit)
  have hnumbered : step rep (s.pending w c₂ (.copied off size) ns) (.next s.threads.length) =
      some (s.pending w c₃ (.numbered off size c.seq) ns) := step_pending rep s w rfl
  have hstored : step rep (s.pending w c₃ (.numbered off size c.seq) ns) (.next s.threads.length) =
      some (s.pending w (c₃.withMem (c₂.buffer.mem.putLE c.seqAddr seqWidth c.seq)) (.stored off size) (c.seq :: ns)) :=
    step_pending rep s w rfl
  simp only [List.replicate, Trace.exec, hsized, hentered, hcopied, hnumbered, hstored, Option.bind_some]
  rfl

/-- A call whose steps follow each other is the sequential one. -/
theorem exec_call (h : w.off s.cli + w.size s.cli ≤ s.cli.buffer.size) :
    Trace.exec (step rep) s (alone s w) = some
      { s with
        cli := s.cli.call w
        threads := s.threads ++ [⟨w, .stored (w.off s.cli) (w.size s.cli)⟩]
        numbers := s.cli.seq :: s.numbers } := by
  cases w with
  | append buf =>
    let size := s.cli.clamp buf.length s.cli.bufOffset
    let c : Client := { s.cli with bufOffset := (s.cli.bufOffset + size) % 2 ^ 64 }
    have hplaced : step rep (s.pending (.append buf) s.cli (.clamped size) s.numbers) (.next s.threads.length) =
        some (s.pending (.append buf) c (.placed s.cli.bufOffset size) s.numbers) := step_pending rep s _ rfl
    calc Trace.exec (step rep) s (alone s (.append buf))
        = (step rep (s.pending (.append buf) s.cli (.clamped size) s.numbers) (.next s.threads.length)).bind
            fun t => Trace.exec (step rep) t (List.replicate 5 (.next s.threads.length)) := rfl
      _ = Trace.exec (step rep) (s.pending (.append buf) c (.placed s.cli.bufOffset size) s.numbers)
            (List.replicate 5 (.next s.threads.length)) := by rw [hplaced, Option.bind_some]
      _ = _ := exec_placed rep s _ s.numbers h
  | writePos buf pos =>
    have hfit : pos + s.cli.clamp buf.length pos ≤ s.cli.buffer.size := h
    -- `WritePos` compares the two sizes the other way round
    have hfile : s.cli.writePos buf pos =
        { s.cli.store buf pos (s.cli.clamp buf.length pos) with
          fileSize := newSize s.cli pos (s.cli.clamp buf.length pos) (.writePos buf pos) } := by
      unfold Client.writePos Client.store newSize
      rw [max_comm]
    calc Trace.exec (step rep) s (alone s (.writePos buf pos))
        = Trace.exec (step rep)
            (s.pending (.writePos buf pos) s.cli (.placed pos (s.cli.clamp buf.length pos)) s.numbers)
            (List.replicate 5 (.next s.threads.length)) := rfl
      _ = some (s.pending (.writePos buf pos) (s.cli.writePos buf pos) (.stored pos (s.cli.clamp buf.length pos))
            (s.cli.seq :: s.numbers)) := by
          rw [hfile]
          exact exec_placed rep s _ s.numbers hfit
      _ = _ := rfl

end Alone

/-! ### What is sent -/

section Unsent

variable {seqOffset x i : ℕ} {threads : List Thread} {t t' : Thread}

theorem mem_set_of_ne (hi : threads[i]? = some t) {u : Thread} (hu : u ∈ threads) :
    u = t ∨ u ∈ threads.set i t' := by
  obtain ⟨j, hj⟩ := List.mem_iff_getElem?.mp hu
  by_cases hji : i = j
  · subst hji
    exact .inl (Option.some.inj (hj.symm.trans hi))
  · exact .inr (List.mem_iff_getElem?.mpr ⟨j, (List.getElem?_set_ne hji).trans hj⟩)

/-- When one call moves on, the others still have what they have not posted. -/
theorem not_unsent_set (hi : threads[i]? = some t) (h : ¬ Unsent seqOffset (threads.set i t') x) :
    ¬ t'.pos.Unsent seqOffset x ∧ (¬ t.pos.Unsent seqOffset x → ¬ Unsent seqOffset threads x) := by
  obtain ⟨hlt, -⟩ := List.getElem?_eq_some_iff.mp hi
  refine ⟨fun hx => h ⟨t', List.mem_set hlt t', hx⟩, ?_⟩
  rintro hx ⟨u, hu, hux⟩
  rcases mem_set_of_ne hi hu with rfl | hu
  · exact hx hux
  · exact h ⟨u, hu, hux⟩

theorem not_unsent_erase (hi : threads[i]? = some t) (h : ¬ Unsent seqOffset (threads.eraseIdx i) x)
    (hx : ¬ t.pos.Unsent seqOffset x) : ¬ Unsent seqOffset threads x := by
  rintro ⟨u, hu, hux⟩
  obtain ⟨j, hj⟩ := List.mem_iff_getElem?.mp hu
  by_cases hji : j = i
  · subst hji
    exact hx (Option.some.inj (hj.symm.trans hi) ▸ hux)
  · exact h ⟨u, List.mem_eraseIdx_iff_getElem?.mpr ⟨j, hji, hj⟩, hux⟩

end Unsent

/-- Each server will hold the buffer as it is, but for what is unsent, when it has
applied all that was posted. -/
structure Sends (L : Layout) (s : State α) : Prop where
  seqOffset : s.cli.seqOffset = L.seqOffset
  seqAddr : s.cli.seqAddr = L.seqOffset
  short : ∀ t ∈ s.threads, ∀ r ∈ t.pos.carries, r.2 < 2 ^ 32
  sent : ∀ a ∈ s.peers, ∀ x, ¬ Unsent L.seqOffset s.threads x →
    Dma.due s.cli.buffer.mem (s.mem a) (s.conn a) x = s.cli.buffer.mem x

section Sends

variable {L : Layout} {rep : ℕ} {s s' : State α} {i : ℕ} {t t' : Thread} {addrs : List α}

omit [DecidableEq α] in
theorem sends_init : Sends L (init L addrs) where
  seqOffset := Client.fresh_seqOffset L
  seqAddr := Client.fresh_seqOffset L
  short _ ht := absurd ht List.not_mem_nil
  sent _ _ _ _ := rfl

omit [DecidableEq α] in
/-- A call moves on. What it has not posted before, or changes now, is unsent. -/
theorem Sends.move (h : Sends L s) (hi : s.threads[i]? = some t)
    (hcli : s'.cli.seqOffset = s.cli.seqOffset ∧ s'.cli.seqAddr = s.cli.seqAddr)
    (hthreads : s'.threads = s.threads.set i t') (hpeers : s'.peers = s.peers)
    (hremote : s'.conn = s.conn ∧ s'.mem = s.mem) (hshort : ∀ r ∈ t'.pos.carries, r.2 < 2 ^ 32)
    (hstay : ∀ x, ¬ t'.pos.Unsent L.seqOffset x → ¬ t.pos.Unsent L.seqOffset x)
    (hsame : ∀ x, ¬ t'.pos.Unsent L.seqOffset x → s'.cli.buffer.mem x = s.cli.buffer.mem x) : Sends L s' where
  seqOffset := hcli.1.trans h.seqOffset
  seqAddr := hcli.2.trans h.seqAddr
  short u hu := by
    rw [hthreads] at hu
    rcases List.mem_or_eq_of_mem_set hu with hu | rfl
    · exact h.short u hu
    · exact hshort
  sent a ha x hx := by
    rw [hpeers] at ha
    rw [hthreads] at hx
    obtain ⟨hnew, hold⟩ := not_unsent_set hi hx
    have hmem := hsame x hnew
    rw [hremote.1, hremote.2, hmem]
    calc Dma.due s'.cli.buffer.mem (s.mem a) (s.conn a) x
        = Dma.due s.cli.buffer.mem (s.mem a) (s.conn a) x := Dma.due_congr hmem rfl
      _ = s.cli.buffer.mem x := h.sent a ha x (hold (hstay x hnew))

/-- What a call posts brings all that it has changed. -/
theorem due_posted {c : Client} {m : Mem} {os : List (Dma.Op Unit)} {off size x : ℕ} (hsize : size < 2 ^ 32) :
    Dma.due c.buffer.mem m (os ++ posted c off size) x =
      if At.Unsent c.seqOffset x (.stored off size) then c.buffer.mem x else Dma.due c.buffer.mem m os x := by
  have hposted : posted c off size =
      [⟨off, size, (), 0, fun _ => none⟩] ++ [⟨c.seqOffset, seqWidth, (), 0, fun _ => none⟩] := by
    unfold posted Client.writeTwoPlace
    rw [Nat.mod_eq_of_lt hsize]
    rfl
  rw [hposted, ← List.append_assoc, Dma.due_post rfl, Dma.due_post rfl]
  by_cases htrailer : c.seqOffset ≤ x ∧ x < c.seqOffset + seqWidth
  · have hun : At.Unsent c.seqOffset x (.stored off size) := .inr htrailer
    exact (if_pos htrailer).trans (if_pos hun).symm
  · refine (if_neg htrailer).trans ?_
    by_cases hdata : off ≤ x ∧ x < off + size
    · have hun : At.Unsent c.seqOffset x (.stored off size) := .inl hdata
      exact (if_pos hdata).trans (if_pos hun).symm
    · have hun : ¬ At.Unsent c.seqOffset x (.stored off size) := not_or.mpr ⟨hdata, htrailer⟩
      exact (if_neg hdata).trans (if_neg hun).symm

/-- A call posts to every server. -/
theorem Sends.post (h : Sends L s) {w : Call} {off size : ℕ} (hi : s.threads[i]? = some ⟨w, .stored off size⟩) :
    Sends L { s.move i w .posted with
      conn := fun a => if a ∈ s.peers then s.conn a ++ posted s.cli off size else s.conn a } where
  seqOffset := h.seqOffset
  seqAddr := h.seqAddr
  short u hu := by
    rcases List.mem_or_eq_of_mem_set hu with hu | rfl
    · exact h.short u hu
    · exact fun r hr => by cases hr
  sent a ha x hx := by
    have ha : a ∈ s.peers := ha
    obtain ⟨-, hold⟩ := not_unsent_set hi hx
    show Dma.due s.cli.buffer.mem (s.mem a) (if a ∈ s.peers then s.conn a ++ posted s.cli off size else s.conn a) x = _
    rw [if_pos ha, due_posted (h.short _ (List.mem_of_getElem? hi) _ rfl), h.seqOffset]
    split
    · rfl
    · rename_i hout
      exact h.sent a ha x (hold hout)

/-- The step of a call. -/
theorem Sends.next (h : Sends L s) (hi : s.threads[i]? = some t)
    (hshort : ∀ r ∈ t.pos.copies, r.2 < 2 ^ 32) (hs : next rep s i t = some s') :
    Sends L s' := by
  obtain ⟨w, pos⟩ := t
  have hnone : ∀ r ∈ (none : Option (ℕ × ℕ)), r.2 < 2 ^ 32 := fun r hr => by cases hr
  cases pos with
  | clamped size =>
    obtain rfl := Option.some.inj hs
    exact h.move hi ⟨rfl, rfl⟩ rfl rfl ⟨rfl, rfl⟩ hnone (fun _ _ => id) fun _ _ => rfl
  | placed off size =>
    obtain rfl := Option.some.inj hs
    exact h.move hi ⟨rfl, rfl⟩ rfl rfl ⟨rfl, rfl⟩ hnone (fun _ _ => id) fun _ _ => rfl
  | sized off size fileSize =>
    obtain rfl := Option.some.inj hs
    exact h.move hi ⟨rfl, rfl⟩ rfl rfl ⟨rfl, rfl⟩ hnone (fun _ _ => id) fun _ _ => rfl
  | entered off size =>
    simp only [Threads.next, Option.ite_none_right_eq_some, Option.some.injEq] at hs
    obtain ⟨-, rfl⟩ := hs
    have hsize := hshort _ rfl
    refine h.move hi ⟨rfl, rfl⟩ rfl rfl ⟨rfl, rfl⟩ (fun r hr => ?_) (fun _ _ => id) fun x hx => ?_
    · obtain rfl := Option.some.inj hr
      exact hsize
    · -- only the range is written
      have hle : (w.buf.take size).length ≤ size := List.length_take_le _ _
      have hout : ¬ (off ≤ x ∧ x < off + size) := hx
      exact Mem.write_out (by omega)
  | copied off size =>
    obtain rfl := Option.some.inj hs
    refine h.move hi ⟨rfl, rfl⟩ rfl rfl ⟨rfl, rfl⟩ (fun r hr => ?_) (fun _ hx => hx) fun _ _ => rfl
    exact h.short _ (List.mem_of_getElem? hi) r hr
  | numbered off size n =>
    obtain rfl := Option.some.inj hs
    refine h.move hi ⟨rfl, rfl⟩ rfl rfl ⟨rfl, rfl⟩ (fun r hr => ?_) (fun x hx => fun hd => hx (.inl hd)) fun x hx => ?_
    · exact h.short _ (List.mem_of_getElem? hi) r hr
    · -- only the trailer is
      have hout : ¬ (L.seqOffset ≤ x ∧ x < L.seqOffset + seqWidth) := fun ht => hx (.inr ht)
      exact Mem.putLE_out (h.seqAddr ▸ hout)
  | stored off size =>
    simp only [Threads.next, Option.ite_none_right_eq_some, Option.some.injEq] at hs
    obtain ⟨-, rfl⟩ := hs
    exact h.post hi
  | posted =>
    simp only [Threads.next, Option.ite_none_right_eq_some, Option.some.injEq] at hs
    obtain ⟨-, rfl⟩ := hs
    exact ⟨h.seqOffset, h.seqAddr, fun u hu => h.short u (List.mem_of_mem_eraseIdx hu), fun a ha x hx =>
      h.sent a ha x (not_unsent_erase hi hx id)⟩

theorem Sends.step {e : Event α} (h : Sends L s) (hok : Short s e) (hs : step rep s e = some s') : Sends L s' := by
  cases e with
  | call w =>
    obtain rfl := Option.some.inj hs
    have hnew : (enter s.cli w).carries = none := by cases w <;> rfl
    have hsent : ∀ x, ¬ (enter s.cli w).Unsent L.seqOffset x := fun x => by cases w <;> exact id
    refine ⟨h.seqOffset, h.seqAddr, fun t ht => ?_, fun a ha x hx => h.sent a ha x fun ⟨t, ht, hu⟩ => ?_⟩
    · rcases List.mem_append.mp ht with ht | ht
      · exact h.short t ht
      · rw [List.mem_singleton.mp ht]
        intro r hr
        rw [hnew] at hr
        cases hr
    · exact hx ⟨t, List.mem_append_left _ ht, hu⟩
  | next i =>
    obtain ⟨t, hi, hs⟩ := Option.bind_eq_some_iff.mp hs
    exact h.next hi (hok t hi) hs
  | fetch a k off len =>
    obtain rfl := Option.some.inj hs
    refine ⟨h.seqOffset, h.seqAddr, h.short, fun b hb x hx => ?_⟩
    by_cases he : b = a
    · subst he
      show Dma.due s.cli.buffer.mem (s.mem b) (Function.update s.conn b _ b) x = _
      rw [Function.update_self, Dma.due_fetch]
      exact h.sent b hb x hx
    · show Dma.due s.cli.buffer.mem (s.mem b) (Function.update s.conn a _ b) x = _
      rw [Function.update_of_ne he]
      exact h.sent b hb x hx
  | land a =>
    simp only [Threads.step] at hs
    split at hs
    · cases hs
    · rename_i o os hconn
      simp only [Option.ite_none_right_eq_some, Option.some.injEq] at hs
      obtain ⟨hready, rfl⟩ := hs
      refine ⟨h.seqOffset, h.seqAddr, h.short, fun b hb x hx => ?_⟩
      by_cases he : b = a
      · subst he
        show Dma.due s.cli.buffer.mem (Function.update s.mem b _ b) (Function.update s.conn b _ b) x = _
        rw [Function.update_self, Function.update_self, Dma.due_land hready, ← hconn]
        exact h.sent b hb x hx
      · show Dma.due s.cli.buffer.mem (Function.update s.mem a _ b) (Function.update s.conn a _ b) x = _
        rw [Function.update_of_ne he, Function.update_of_ne he]
        exact h.sent b hb x hx

theorem Sends.of_reach (h : Trace.Reach (Trace.restrict Short (Threads.step rep)) (init L addrs) s) : Sends L s :=
  h.inv_restrict sends_init fun _ _ _ hi hok hst => hi.step hok hst

omit [DecidableEq α] in
/-- A server that has nothing left to apply. -/
theorem Sends.mem_eq (h : Sends L s) {a : α} (ha : a ∈ s.peers) (hconn : s.conn a = []) {x : ℕ}
    (hx : ¬ Unsent L.seqOffset s.threads x) : s.mem a x = s.cli.buffer.mem x := by
  have hsent := h.sent a ha x hx
  rw [hconn] at hsent
  exact hsent

/-- **The replicas agree.** However the calls of any number of threads interleave,
a server that has nothing left to apply holds each byte of the client's
buffer that no call has changed and not posted yet; and a call returns only
when more than half of the replication factor, or too few servers to matter,
do. -/
theorem replicas_agree (h : Trace.Reach (Trace.restrict Short (Threads.step rep)) (init L addrs) s) :
    (∀ a ∈ s.peers, s.conn a = [] → ∀ x, ¬ Unsent L.seqOffset s.threads x → s.mem a x = s.cli.buffer.mem x) ∧
    ∀ i w s', s.threads[i]? = some ⟨w, .posted⟩ → Threads.step rep s (.next i) = some s' → s.peers.length ≤ rep / 2 ∨
      ∃ as : List α, as.Sublist s.peers ∧ rep / 2 < as.length ∧
        ∀ a ∈ as, ∀ x, ¬ Unsent L.seqOffset s.threads x → s.mem a x = s.cli.buffer.mem x := by
  have hsends := Sends.of_reach h
  refine ⟨fun a ha hconn x hx => hsends.mem_eq ha hconn hx, fun i w s' hi hs => ?_⟩
  simp only [Threads.step, hi, Option.bind_some, Threads.next, Option.ite_none_right_eq_some] at hs
  refine hs.1.imp id fun hmany => ⟨s.drained, List.filter_sublist, hmany, fun a ha x hx => ?_⟩
  obtain ⟨hpeer, hconn⟩ := List.mem_filter.mp ha
  exact hsends.mem_eq hpeer (List.isEmpty_iff.mp hconn) hx

end Sends

/-- Two appends of one byte each. The second one overtakes the first between its
number and the trailer, and is acknowledged. -/
def overtaken : List (Event ℕ) :=
  [.call (.append [1]), .call (.append [2])] ++ List.replicate 5 (.next 0) ++ List.replicate 7 (.next 1) ++
    [.fetch 0 0 1 1, .land 0, .fetch 0 0 8 8, .land 0, .next 1]

theorem replicas_agree_overtaken : ∃ s : State ℕ, Trace.Reach (Trace.restrict Short (step 1)) (init tiny [0]) s ∧
    s.threads.length = 1 ∧ s.cli.buffer.mem 0 = 1 ∧ s.mem 0 0 = 0 ∧ s.cli.buffer.mem 1 = 2 ∧ s.mem 0 1 = 2 := by
  obtain ⟨s, hs, ⟨hpeer, hconn, hsent⟩, hlen, h0, hm0, h1⟩ : ∃ s : State ℕ,
      Trace.Reach (Trace.restrict Short (step 1)) (init tiny [0]) s ∧
        (0 ∈ s.peers ∧ (s.conn 0).length = 0 ∧ ¬ Unsent tiny.seqOffset s.threads 1) ∧
          s.threads.length = 1 ∧ s.cli.buffer.mem 0 = 1 ∧ s.mem 0 0 = 0 ∧ s.cli.buffer.mem 1 = 2 :=
    Trace.exists_reach_of_exec overtaken (by decide)
  have hmem := (replicas_agree hs).1 0 hpeer (List.length_eq_zero_iff.mp hconn) 1 hsent
  exact ⟨s, hs, hlen, h0, hm0, h1, hmem.trans h1⟩

/-! ### The trailer -/

/-- What is copied ends below the trailer. -/
def Below (s : State α) : Event α → Prop
  | .next i => ∀ t ∈ s.threads[i]?, ∀ r ∈ t.pos.copies, r.1 + r.2 ≤ s.cli.seqOffset ∧ r.2 < 2 ^ 32
  | _ => True

instance (s : State α) : ∀ e, Decidable (Below s e)
  | .next i =>
    inferInstanceAs (Decidable (∀ t ∈ s.threads[i]?, ∀ r ∈ t.pos.copies, r.1 + r.2 ≤ s.cli.seqOffset ∧ r.2 < 2 ^ 32))
  | .call _ | .fetch _ _ _ _ | .land _ => instDecidableTrue

/-- The trailer is the number stored last, 0 before the first one. -/
structure Marked (L : Layout) (s : State α) : Prop where
  seqOffset : s.cli.seqOffset = L.seqOffset
  seqAddr : s.cli.seqAddr = L.seqOffset
  seq : s.cli.seq < 2 ^ 64
  taken : ∀ t ∈ s.threads, ∀ off size n, t.pos = .numbered off size n → n < 2 ^ 64
  last : s.cli.buffer.mem.getLE L.seqOffset seqWidth = s.numbers.headD 0

section Trailer

variable {L : Layout} {rep : ℕ} {s s' : State α} {i : ℕ} {t t' : Thread} {addrs : List α}

omit [DecidableEq α] in
theorem marked_init : Marked L (init L addrs) where
  seqOffset := Client.fresh_seqOffset L
  seqAddr := Client.fresh_seqOffset L
  seq := show 0 < 2 ^ 64 by norm_num
  taken _ ht := absurd ht List.not_mem_nil
  last := Mem.getLE_zero _ _

omit [DecidableEq α] in
/-- A call moves on and leaves the trailer. -/
theorem Marked.move (h : Marked L s)
    (hcli : s'.cli.seqOffset = s.cli.seqOffset ∧ s'.cli.seqAddr = s.cli.seqAddr) (hseq : s'.cli.seq < 2 ^ 64)
    (hthreads : ∀ u ∈ s'.threads, u ∈ s.threads ∨ ∀ off size n, u.pos = .numbered off size n → n < 2 ^ 64)
    (hnumbers : s'.numbers = s.numbers)
    (hsame : ∀ x, L.seqOffset ≤ x → s'.cli.buffer.mem x = s.cli.buffer.mem x) : Marked L s' where
  seqOffset := hcli.1.trans h.seqOffset
  seqAddr := hcli.2.trans h.seqAddr
  seq := hseq
  taken u hu := (hthreads u hu).elim (h.taken u) id
  last := by
    rw [hnumbers, ← h.last]
    exact Mem.getLE_congr fun x hx _ => hsame x hx

omit [DecidableEq α] in
/-- A call stores its number. -/
theorem Marked.store (h : Marked L s) {w : Call} {off size n : ℕ} (hn : n < 2 ^ 64) :
    Marked L { (s.move i w (.stored off size)).store (s.cli.buffer.mem.putLE s.cli.seqAddr seqWidth n) with
      numbers := n :: s.numbers } where
  seqOffset := h.seqOffset
  seqAddr := h.seqAddr
  seq := h.seq
  taken u hu := by
    rcases List.mem_or_eq_of_mem_set hu with hu | rfl
    · exact h.taken u hu
    · exact fun _ _ _ he => by cases he
  last := by
    show (s.cli.buffer.mem.putLE s.cli.seqAddr seqWidth n).getLE L.seqOffset seqWidth = n
    rw [h.seqAddr, Mem.getLE_putLE]
    exact Nat.mod_eq_of_lt hn

/-- The step of a call. -/
theorem Marked.next (h : Marked L s) (hi : s.threads[i]? = some t)
    (hbelow : ∀ r ∈ t.pos.copies, r.1 + r.2 ≤ s.cli.seqOffset) (hs : next rep s i t = some s') : Marked L s' := by
  obtain ⟨w, pos⟩ := t
  have hset : ∀ p, (∀ off size n, p = .numbered off size n → n < 2 ^ 64) →
      ∀ u ∈ s.threads.set i ⟨w, p⟩, u ∈ s.threads ∨ ∀ off size n, u.pos = .numbered off size n → n < 2 ^ 64 := by
    intro p hp u hu
    rcases List.mem_or_eq_of_mem_set hu with hu | rfl
    · exact .inl hu
    · exact .inr hp
  cases pos with
  | clamped size =>
    obtain rfl := Option.some.inj hs
    exact h.move ⟨rfl, rfl⟩ h.seq (hset _ fun _ _ _ he => by cases he) rfl fun _ _ => rfl
  | placed off size =>
    obtain rfl := Option.some.inj hs
    exact h.move ⟨rfl, rfl⟩ h.seq (hset _ fun _ _ _ he => by cases he) rfl fun _ _ => rfl
  | sized off size fileSize =>
    obtain rfl := Option.some.inj hs
    exact h.move ⟨rfl, rfl⟩ h.seq (hset _ fun _ _ _ he => by cases he) rfl fun _ _ => rfl
  | entered off size =>
    simp only [Threads.next, Option.ite_none_right_eq_some, Option.some.injEq] at hs
    obtain ⟨-, rfl⟩ := hs
    refine h.move ⟨rfl, rfl⟩ h.seq (hset _ fun _ _ _ he => by cases he) rfl fun x hx => ?_
    have hle : (w.buf.take size).length ≤ size := List.length_take_le _ _
    have hend : off + size ≤ s.cli.seqOffset := hbelow _ rfl
    rw [h.seqOffset] at hend
    exact Mem.write_out (by omega)
  | copied off size =>
    obtain rfl := Option.some.inj hs
    refine h.move ⟨rfl, rfl⟩ (Nat.mod_lt _ (by norm_num)) (hset _ fun _ _ _ he => ?_) rfl fun _ _ => rfl
    cases he
    exact h.seq
  | numbered off size n =>
    obtain rfl := Option.some.inj hs
    exact h.store (h.taken _ (List.mem_of_getElem? hi) off size n rfl)
  | stored off size =>
    simp only [Threads.next, Option.ite_none_right_eq_some, Option.some.injEq] at hs
    obtain ⟨-, rfl⟩ := hs
    exact h.move ⟨rfl, rfl⟩ h.seq (hset _ fun _ _ _ he => by cases he) rfl fun _ _ => rfl
  | posted =>
    simp only [Threads.next, Option.ite_none_right_eq_some, Option.some.injEq] at hs
    obtain ⟨-, rfl⟩ := hs
    exact h.move ⟨rfl, rfl⟩ h.seq (fun u hu => .inl (List.mem_of_mem_eraseIdx hu)) rfl fun _ _ => rfl

theorem Marked.step {e : Event α} (h : Marked L s) (hok : Below s e) (hs : step rep s e = some s') :
    Marked L s' := by
  cases e with
  | call w =>
    obtain rfl := Option.some.inj hs
    refine h.move ⟨rfl, rfl⟩ h.seq (fun u hu => ?_) rfl fun _ _ => rfl
    refine (List.mem_append.mp hu).imp id fun hu => ?_
    rw [List.mem_singleton.mp hu]
    cases w <;> exact fun _ _ _ he => by cases he
  | next i =>
    obtain ⟨t, hi, hs⟩ := Option.bind_eq_some_iff.mp hs
    exact h.next hi (fun r hr => (hok t hi r hr).1) hs
  | fetch a k off len =>
    obtain rfl := Option.some.inj hs
    exact h.move ⟨rfl, rfl⟩ h.seq (fun _ => .inl) rfl fun _ _ => rfl
  | land a =>
    simp only [Threads.step] at hs
    split at hs
    · cases hs
    · simp only [Option.ite_none_right_eq_some, Option.some.injEq] at hs
      obtain ⟨-, rfl⟩ := hs
      exact h.move ⟨rfl, rfl⟩ h.seq (fun _ => .inl) rfl fun _ _ => rfl

theorem Marked.of_reach (h : Trace.Reach (Trace.restrict Below (Threads.step rep)) (init L addrs) s) : Marked L s :=
  h.inv_restrict marked_init fun _ _ _ hi hok hst => hi.step hok hst

omit [DecidableEq α] in
theorem Below.short {e : Event α} (h : Below s e) : Short s e := by
  cases e with
  | next i => exact fun t ht r hr => (h t ht r hr).2
  | _ => trivial

theorem Sends.of_below (h : Trace.Reach (Trace.restrict Below (Threads.step rep)) (init L addrs) s) : Sends L s :=
  h.inv_restrict sends_init fun _ _ _ hi hok hst => hi.step hok.short hst

/-- The server `a` as a client that recovers sees it. -/
def State.peer (s : State α) (L : Layout) (a : α) : Peer α := ⟨a, L.region (s.mem a)⟩

/-- **What a crash leaves.** Between the copies and the posts of the calls, or
between all calls, the client crashes. One that starts then finds servers
that had nothing left to apply, at least one, and others that restarted. If
the log has a byte other than zero, it comes back if and only if the number
stored last is neither 0 nor `seqMax`. -/
theorem crash_recovers_iff (hL : L.size ≤ 2 ^ 32)
    (h : Trace.Reach (Trace.restrict Below (Threads.step rep)) (init L addrs) s)
    (hidle : ∀ x, ¬ Unsent L.seqOffset s.threads x) {qs : List (Peer α)} (hn : (qs.map Peer.addr).Nodup)
    (hfrom : ∀ q ∈ qs, q.buffer = L.region Mem.zero ∨ ∃ a ∈ s.peers, s.conn a = [] ∧ q = s.peer L a)
    (hlive : ∃ a ∈ s.peers, s.conn a = [] ∧ s.peer L a ∈ qs)
    (hdata : ∃ x, x < L.seqOffset ∧ s.cli.buffer.mem x ≠ 0) :
    (∀ x, x < L.seqOffset → ((Client.fresh L).recovered qs).buffer.mem x = s.cli.buffer.mem x) ↔
      s.numbers.headD 0 ≠ 0 ∧ s.numbers.headD 0 < seqMax := by
  have hsends := Sends.of_below h
  have hmarked := Marked.of_reach h
  have hmem : ∀ a ∈ s.peers, s.conn a = [] → s.mem a = s.cli.buffer.mem := fun a ha hconn =>
    funext fun x => hsends.mem_eq ha hconn (hidle x)
  -- every server that is left shows the number stored last
  have hseq : ∀ a ∈ s.peers, s.conn a = [] →
      ((s.peer L a).Eligible ↔ s.numbers.headD 0 ≠ 0 ∧ s.numbers.headD 0 < seqMax) := by
    intro a ha hconn
    have hread : (s.peer L a).seq = s.numbers.headD 0 := by
      rw [Peer.seq, State.peer, hmem a ha hconn, L.readSeqNum_region, hmarked.last]
    rw [Peer.Eligible, hread]
  have hfleet : Fleet L qs := by
    refine ⟨hn, fun q hq => ?_⟩
    rcases hfrom q hq with hzero | ⟨a, -, -, rfl⟩
    · rw [hzero]
      rfl
    · rfl
  obtain ⟨a, ha, hconn, hmema⟩ := hlive
  rcases getRecoverSrcPeer_cases qs with ⟨hnone, -⟩ | ⟨p, hp, -⟩
  · rw [recovered_of_none hnone]
    refine iff_of_false (fun hall => ?_) fun hnum => hnone _ hmema ((hseq a ha hconn).mpr hnum)
    obtain ⟨x, hx, hbyte⟩ := hdata
    exact hbyte (hall x hx).symm
  · rw [recovered_of_src hfleet hp]
    obtain ⟨b, hb, hconnb, rfl⟩ := (hfrom p hp.mem).resolve_left fun hzero => hp.admissible.1 (by
      rw [Peer.seq, hzero, L.readSeqNum_region]
      exact Mem.getLE_zero _ _)
    refine iff_of_true (fun x hx => ?_) ((hseq b hb hconnb).mp hp.admissible)
    rw [Lossy.restored_data hL hfleet hp.mem hx]
    exact congrFun (hmem b hb hconnb) x

/-- Then the first one stores its number, which is 0, and is acknowledged too. -/
def raced : List (Event ℕ) :=
  overtaken ++ [.next 0, .next 0, .fetch 0 0 0 1, .land 0, .fetch 0 0 8 8, .land 0, .next 0]

theorem crash_recovers_iff_raced : ∃ s : State ℕ,
    Trace.Reach (Trace.restrict Below (Threads.step 1)) (init tiny [0]) s ∧ s.threads = [] ∧ s.cli.fileSize = 2 ∧
      s.numbers = [0, 1] ∧ ¬ ∀ x, x < tiny.seqOffset →
        ((Client.fresh tiny).recovered [s.peer tiny 0]).buffer.mem x = s.cli.buffer.mem x := by
  obtain ⟨s, hs, hthreads, hsize, hnumbers, hpeer, hconn, hbyte⟩ : ∃ s : State ℕ,
      Trace.Reach (Trace.restrict Below (Threads.step 1)) (init tiny [0]) s ∧ s.threads = [] ∧ s.cli.fileSize = 2 ∧
        s.numbers = [0, 1] ∧ 0 ∈ s.peers ∧ (s.conn 0).length = 0 ∧ s.cli.buffer.mem 0 = 1 :=
    Trace.exists_reach_of_exec raced (by decide)
  have hnil : s.conn 0 = [] := List.length_eq_zero_iff.mp hconn
  have hiff := crash_recovers_iff (by decide) hs (fun x ⟨t, ht, _⟩ => by rw [hthreads] at ht; cases ht)
    (show ([s.peer tiny 0].map Peer.addr).Nodup from List.nodup_singleton _)
    (fun q hq => .inr ⟨0, hpeer, hnil, List.mem_singleton.mp hq⟩) ⟨0, hpeer, hnil, List.mem_singleton_self _⟩
    ⟨0, by decide, by rw [hbyte]; decide⟩
  refine ⟨s, hs, hthreads, hsize, hnumbers, fun hall => ?_⟩
  have hnum := hiff.mp hall
  rw [hnumbers] at hnum
  exact hnum.1 rfl

end Trailer

end Threads
end ComputeSideLog
