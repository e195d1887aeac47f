/-
# Lengths through the RDMA library

The RDMA library's lengths are 32 bits wide. `WriteQuorum` takes its size as
a `uint32_t`, `recoverPeer` and `recoverPeers` cast `file_size` to one, and
`recoverFromSrc` hands its size to `read` (`src/rdma/client.cc`, each with
a comment that longer transfers need several writes). The number that
`Append` and `WritePos` return, `file_size` and the recovered size keep all
64 bits.

Over the machine of `Reuse.lean`, in which clients of any buffer size post to
their peers, this file says when the length that is posted or read is the
one that is returned or recorded (`lengths_transferred`).

Key definitions: `Net.posted`, `Net.recoverPeers`, `Client.Loads`.
Key theorems: `Net.call_posted`, `Net.recoverPeers_posted`,
`Client.loads_iff`, `lengths_transferred`.
-/
import ComputeSideLog.Image
import ComputeSideLog.Reuse

namespace ComputeSideLog

variable {α F : Type*}

/-- `recoverFromSrc` brings over `size` bytes, whatever the source holds. -/
def Client.Loads (α : Type*) (c : Client) (size : ℕ) : Prop := ∀ src : Peer α,
  (c.recoverFromSrc src size).buffer.mem = c.buffer.mem.copy src.buffer.mem 0 size

/-- The bytes from the wrapped length on are not read. -/
theorem Client.loads_iff [Inhabited α] (c : Client) (size : ℕ) : c.Loads α size ↔ size < 2 ^ 32 := by
  constructor
  · intro h
    by_contra hlong
    have hcut : size % 2 ^ 32 < size := (Nat.mod_lt size (by norm_num)).trans_le (Nat.le_of_not_lt hlong)
    -- a source that differs from the client everywhere, looked at where the read stops
    have hread := h ⟨default, { c.buffer with mem := fun x => c.buffer.mem x + 1 }⟩
    have hsame : c.buffer.mem (size % 2 ^ 32) = c.buffer.mem (size % 2 ^ 32) + 1 := by
      calc c.buffer.mem (size % 2 ^ 32)
          = (c.buffer.mem.copy (fun x => c.buffer.mem x + 1) 0 (size % 2 ^ 32)) (size % 2 ^ 32) :=
            (Mem.copy_out (by omega)).symm
        _ = (c.buffer.mem.copy (fun x => c.buffer.mem x + 1) 0 size) (size % 2 ^ 32) := congrFun hread _
        _ = c.buffer.mem (size % 2 ^ 32) + 1 := Mem.copy_in ⟨Nat.zero_le _, by omega⟩
    exact absurd hsame (by simp)
  · intro h src
    show c.buffer.mem.copy src.buffer.mem 0 (size % 2 ^ 32) = _
    rw [Nat.mod_eq_of_lt h]

namespace Net

variable [DecidableEq α] {s t : Net α F} {c : ℕ} {w : Writer α F}

/-- The ranges of the writes that are posted to a peer between two states: where
each starts and how long it is. -/
def posted (s t : Net α F) (a : α) : List (ℕ × ℕ) :=
  ((t.flight a).drop (s.flight a).length).map fun o => (o.off, o.len)

/-- `recoverPeers`: the copy to each of the peers. -/
def recoverPeers (s : Net α F) (c : ℕ) : List α → Option (Net α F)
  | [] => some s
  | a :: as => (s.copy c a).bind fun t => t.recoverPeers c as

theorem posted_post {as : List α} {a : α} (ha : a ∈ as) (hl : w.Linked a) (call : Option ℕ) (ws : List RdmaWrite) :
    s.posted (s.post c w call ws as) a = ws.map fun x => (x.off, x.len) := by
  obtain ⟨mr, hmr⟩ := Option.isSome_iff_exists.mp hl.2
  have hflight : (s.post c w call ws as).flight a = s.flight a ++ s.ops c w call ws a := if_pos ha
  unfold posted
  rw [hflight, List.drop_left, ops, hmr, List.map_map]
  rfl

/-- What a call posts to each peer. -/
theorem call_posted (hw : s.clients c = some w) {x : Call} (hs : s.call c x = some t) {a : α} (ha : a ∈ w.peers) :
    s.posted t a = [(x.off w.cli, x.size w.cli % 2 ^ 32), (w.cli.seqOffset, seqWidth)] := by
  unfold call at hs
  rw [hw] at hs
  dsimp only at hs
  split at hs
  · rename_i hready
    obtain rfl := Option.some.inj hs
    refine (posted_post ha (hready.2 a ha) _ _).trans ?_
    rw [Client.writeTwoPlace, Client.call_seqOffset]
    rfl
  · cases hs

/-- What `recoverPeer` posts. -/
theorem copy_posted (hw : s.clients c = some w) {a : α} (hs : s.copy c a = some t) :
    s.posted t a = [(0, w.cli.fileSize % 2 ^ 32), (w.cli.seqOffset, seqWidth)] ∧ t.clients = s.clients ∧
      ∀ a', a' ≠ a → t.flight a' = s.flight a' := by
  unfold copy at hs
  rw [hw] at hs
  dsimp only at hs
  split at hs
  · rename_i hready
    obtain rfl := Option.some.inj hs
    refine ⟨posted_post (List.mem_singleton_self a) hready.2 _ _, rfl, fun a' hne => ?_⟩
    exact if_neg fun hmem => hne (List.mem_singleton.mp hmem)
  · cases hs

/-- `recoverPeers` posts to the peers of its list only. -/
theorem recoverPeers_other : ∀ (as : List α) {s : Net α F}, s.clients c = some w → s.recoverPeers c as = some t →
    ∀ a, a ∉ as → t.flight a = s.flight a := by
  intro as
  induction as with
  | nil =>
    intro _ _ hs _ _
    obtain rfl := Option.some.inj hs
    rfl
  | cons b as ih =>
    intro s hw hs a ha
    obtain ⟨u, hu, hrest⟩ := Option.bind_eq_some_iff.mp hs
    obtain ⟨-, hclients, hother⟩ := copy_posted hw hu
    have hne : a ≠ b := List.ne_of_not_mem_cons ha
    rw [ih (hclients ▸ hw) hrest a (List.not_mem_of_not_mem_cons ha), hother a hne]

/-- What `recoverPeers` posts to each of its peers; `peers` is a set, so they are
distinct. -/
theorem recoverPeers_posted : ∀ (as : List α) {s : Net α F}, s.clients c = some w → as.Nodup →
    s.recoverPeers c as = some t → ∀ a ∈ as,
      s.posted t a = [(0, w.cli.fileSize % 2 ^ 32), (w.cli.seqOffset, seqWidth)] := by
  intro as
  induction as with
  | nil => exact fun _ _ _ _ ha => absurd ha List.not_mem_nil
  | cons b as ih =>
    intro s hw hnodup hs a ha
    obtain ⟨u, hu, hrest⟩ := Option.bind_eq_some_iff.mp hs
    obtain ⟨hposted, hclients, hother⟩ := copy_posted hw hu
    obtain ⟨hb, hnodup⟩ := List.nodup_cons.mp hnodup
    have hw' : u.clients c = some w := hclients ▸ hw
    unfold posted at hposted ⊢
    by_cases hab : a = b
    · -- the later copies go to other peers
      subst hab
      rw [recoverPeers_other as hw' hrest a hb]
      exact hposted
    · have hmem : a ∈ as := (List.mem_cons.mp ha).resolve_left hab
      rw [← hother a hab]
      exact ih hw' hnodup hrest a hmem

/-! ### A client that can make a call -/

/-- A client whose peers are connected can make any call. -/
theorem call_enabled (hw : s.clients c = some w) (hready : w.writing = false ∧ ∀ a ∈ w.peers, w.Linked a)
    (x : Call) : ∃ t, s.call c x = some t := by
  unfold call
  rw [hw]
  dsimp only
  rw [if_pos hready]
  exact ⟨_, rfl⟩

/-- A client of any layout, connected to server 0. -/
theorem exists_connected (L : Layout) : ∃ (s : Net ℕ String) (w : Writer ℕ String), Trace.Reach step init s ∧
    s.clients 0 = some w ∧ (w.writing = false ∧ ∀ a ∈ w.peers, w.Linked a) ∧ 0 ∈ w.peers ∧
      w.cli = Client.fresh L := by
  have hrun : Trace.exec step (init : Net ℕ String)
      [.construct 0 "a" L 1, .addPeer 0 0, .serve 0 0 1, .recvToken 0 0, .setInUse 0] = some _ := rfl
  refine ⟨_, _, Trace.reach_of_exec .init hrun, rfl, ⟨rfl, fun a ha => ?_⟩, List.mem_singleton_self 0, rfl⟩
  obtain rfl : a = 0 := List.mem_singleton.mp ha
  exact ⟨rfl, rfl⟩

end Net

/-- A range with the wrapped length is the one meant if and only if the length
did not wrap. -/
theorem range_wrapped_iff (off n : ℕ) (r : ℕ × ℕ) : [(off, n % 2 ^ 32), r] = [(off, n), r] ↔ n < 2 ^ 32 := by
  simp

/-- **When as many bytes are transferred as are acknowledged.** In every state
of clients, network and servers: the length that an `Append` or `WritePos`
inside the buffer posts to each peer is the count it returns if and only if
it is below `2^32`; `recoverPeer` and `recoverPeers` post `file_size` bytes
if and only if `file_size` is; and `recoverFromSrc` reads the size it is
given if and only if that is. -/
theorem lengths_transferred [DecidableEq α] [Inhabited α] {s : Net α F} {c : ℕ} {w : Writer α F}
    (hw : s.clients c = some w) :
    (∀ x t, s.call c x = some t → x.off w.cli + x.buf.length ≤ w.cli.buffer.size →
      x.size w.cli = x.buf.length ∧ ∀ a ∈ w.peers,
        (s.posted t a = [(x.off w.cli, x.size w.cli), (w.cli.seqOffset, seqWidth)] ↔ x.buf.length < 2 ^ 32)) ∧
    (∀ a t, s.copy c a = some t →
      (s.posted t a = [(0, w.cli.fileSize), (w.cli.seqOffset, seqWidth)] ↔ w.cli.fileSize < 2 ^ 32)) ∧
    (∀ as t, as.Nodup → s.recoverPeers c as = some t → ∀ a ∈ as,
      (s.posted t a = [(0, w.cli.fileSize), (w.cli.seqOffset, seqWidth)] ↔ w.cli.fileSize < 2 ^ 32)) ∧
    ∀ size, w.cli.Loads α size ↔ size < 2 ^ 32 := by
  refine ⟨fun x t hs hin => ?_, fun a t hs => ?_, fun as t hnodup hs a ha => ?_, w.cli.loads_iff⟩
  · have hsize : x.size w.cli = x.buf.length := Client.size_of_end_le hin
    refine ⟨hsize, fun a ha => ?_⟩
    rw [Net.call_posted hw hs ha, hsize]
    exact range_wrapped_iff _ _ _
  · rw [(Net.copy_posted hw hs).1]
    exact range_wrapped_iff _ _ _
  · rw [Net.recoverPeers_posted as hw hnodup hs a ha]
    exact range_wrapped_iff _ _ _

/-- A client of one peer appends a byte. -/
theorem lengths_transferred_one : ∃ (s t : Net ℕ String) (w : Writer ℕ String), Trace.Reach Net.step Net.init s ∧
    s.clients 0 = some w ∧ s.call 0 (.append [7]) = some t ∧
    s.posted t 0 = [(0, Call.size w.cli (.append [7])), (w.cli.seqOffset, seqWidth)] := by
  obtain ⟨s, w, hs, hw, hready, hpeer, hcli⟩ := Net.exists_connected tiny
  obtain ⟨t, ht⟩ := Net.call_enabled hw hready (.append [7])
  have hfits : Call.off w.cli (.append [7]) + (Call.append [7]).buf.length ≤ w.cli.buffer.size := by
    rw [hcli]
    decide
  refine ⟨s, t, w, hs, hw, ht, ?_⟩
  rw [(((lengths_transferred hw).1 (.append [7]) t ht hfits).2 0 hpeer).mpr (by decide), hcli]
  rfl

/-- Of `2^32 + 1` bytes that a call accepts, one is posted. -/
theorem long_call_cut : ∃ (s t : Net ℕ String) (w : Writer ℕ String), Trace.Reach Net.step Net.init s ∧
    s.clients 0 = some w ∧ s.call 0 (filling (2 ^ 32 + 1)) = some t ∧ (filling (2 ^ 32 + 1)).InBounds w.cli ∧
    (filling (2 ^ 32 + 1)).size w.cli = 2 ^ 32 + 1 ∧ s.posted t 0 = [(0, 1), (w.cli.seqOffset, seqWidth)] := by
  obtain ⟨s, w, hs, hw, hready, hpeer, hcli⟩ := Net.exists_connected huge
  obtain ⟨t, ht⟩ := Net.call_enabled hw hready (filling (2 ^ 32 + 1))
  have hoff : w.cli.seqOffset = huge.seqOffset := by rw [hcli, Client.fresh_seqOffset]
  have hwf : w.cli.Wf := hcli ▸ Client.fresh_wf huge
  have hsize : (filling (2 ^ 32 + 1)).size w.cli = 2 ^ 32 + 1 := filling_size rfl hoff hwf
  refine ⟨s, t, w, hs, hw, ht, filling_inBounds rfl hoff, hsize, ?_⟩
  rw [Net.call_posted hw ht hpeer, hsize]
  rfl

end ComputeSideLog
