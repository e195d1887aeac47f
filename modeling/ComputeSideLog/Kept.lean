/-
# Accepted bytes

`Append` and `WritePos` accept as many bytes as the buffer has room for
(`src/rdma/client.cc`), and the trailer lies in the same buffer, at
`seq_offset`, where every call stores its sequence number. A call is sent to
the peers with a 32-bit length. So an accepted byte is what a later
`ReadPos` returns, and what a peer holds, when it lies outside of the
trailer and the accepted length fits 32 bits.

Key definitions: `Call.Covers`, `Uncovered`, `Kept`, `Call.Apart`.
Key theorems: `run_keeps_byte`, `applyAll_keeps_byte`, `accepted_kept`.
-/
import ComputeSideLog.Bounds

namespace ComputeSideLog

/-- The call stores data at position `x`. -/
def Call.Covers (c : Client) (w : Call) (x : ℕ) : Prop := w.off c ≤ x ∧ x < w.off c + w.size c

instance (c : Client) (w : Call) (x : ℕ) : Decidable (w.Covers c x) := instDecidableAnd

/-- No call of the sequence stores data at `x`. -/
def Uncovered (x : ℕ) : Client → List Call → Prop
  | _, [] => True
  | c, w :: ws => ¬ w.Covers c x ∧ Uncovered x (c.call w) ws

instance (x : ℕ) : ∀ (c : Client) (ws : List Call), Decidable (Uncovered x c ws)
  | _, [] => instDecidableTrue
  | c, w :: ws =>
    haveI := instDecidableUncovered x (c.call w) ws
    inferInstanceAs (Decidable (¬ w.Covers c x ∧ Uncovered x (c.call w) ws))

/-- Byte `i` that the call `w` accepted in state `c` is kept through the calls
`ws` after it, with `n` of their writes applied at a peer: `ReadPos` over
the accepted range returns it, and a peer that has applied the call, on
whatever it held before, holds it. -/
structure ByteKept (c : Client) (w : Call) (i : ℕ) (ws : List Call) (n : ℕ) : Prop where
  read : (((c.call w).run ws).readPos (w.size c) (w.off c))[i]? = w.buf[i]?
  peer : ∀ m, some (applyAll m ((c.call w).writeTwoPlace (w.off c) (w.size c) ++
    (posts (c.call w) ws).take n) (w.off c + i)) = w.buf[i]?

/-- Every accepted byte is kept until a later call covers it, and none lies in
the trailer. -/
def Kept (c : Client) (ws : List Call) : Prop :=
  ∀ pre w post, ws = pre ++ w :: post → ∀ i, i < w.size (c.run pre) →
    (Uncovered (w.off (c.run pre) + i) ((c.run pre).call w) post → ∀ n, ByteKept (c.run pre) w i post n) ∧
    ¬ (c.seqOffset ≤ w.off (c.run pre) + i ∧ w.off (c.run pre) + i < c.seqOffset + seqWidth)

/-- A positioned write starts in the buffer. -/
def Call.Starts (c : Client) : Call → Prop
  | .append _ => True
  | .writePos _ pos => pos ≤ c.buffer.size

instance (c : Client) : ∀ w : Call, Decidable (w.Starts c)
  | .append _ => instDecidableTrue
  | .writePos _ _ => Nat.decLe _ _

/-- The call writes nothing, or below the trailer, or from its end on. -/
def Call.OffTrailer (c : Client) (w : Call) : Prop :=
  w.buf = [] ∨ w.off c + w.buf.length ≤ c.seqOffset ∨ c.seqOffset + seqWidth ≤ w.off c

instance (c : Client) (w : Call) : Decidable (w.OffTrailer c) := instDecidableOr

/-- The call is off the trailer, and what it writes is shorter than `2^32`, by
its own length or by the room that is left. -/
def Call.Apart (c : Client) (w : Call) : Prop :=
  w.OffTrailer c ∧ (w.buf.length < 2 ^ 32 ∨ c.buffer.size < w.off c + 2 ^ 32)

instance (c : Client) (w : Call) : Decidable (w.Apart c) := instDecidableAnd

/-- Every call of the sequence is apart from the trailer when it is made. -/
def AllApart : Client → List Call → Prop
  | _, [] => True
  | c, w :: ws => w.Apart c ∧ AllApart (c.call w) ws

instance : ∀ (c : Client) (ws : List Call), Decidable (AllApart c ws)
  | _, [] => instDecidableTrue
  | c, w :: ws =>
    haveI := instDecidableAllApart (c.call w) ws
    inferInstanceAs (Decidable (w.Apart c ∧ AllApart (c.call w) ws))

/-! ### The state along the calls -/

/-- The trailer is in place and the offset and the size are in the buffer. -/
structure Placed (c : Client) : Prop where
  wf : c.Wf
  bounded : Bounded c

section

variable {c : Client}

theorem Placed.off_le (h : Placed c) {w : Call} (hs : w.Starts c) : w.off c ≤ c.buffer.size := by
  cases w with
  | append buf => exact h.bounded.1
  | writePos buf pos => exact hs

theorem Placed.end_le (h : Placed c) {w : Call} (hs : w.Starts c) : w.off c + w.size c ≤ c.buffer.size :=
  clamp_le _ (h.off_le hs)

theorem Placed.call_fileSize (h : Placed c) {w : Call} (hs : w.Starts c) :
    (c.call w).fileSize = max c.fileSize (w.off c + w.size c) := by
  have hend := h.end_le hs
  have hlt := c.buffer.size_lt
  rw [Client.call_fileSize, Nat.mod_eq_of_lt (by omega)]

theorem Placed.call (h : Placed c) {w : Call} (hs : w.Starts c) : Placed (c.call w) := by
  have hend := h.end_le hs
  have hlt := c.buffer.size_lt
  refine ⟨h.wf.call w, ?_, ?_⟩
  · rw [Client.call_size]
    cases w with
    | append buf => exact (Nat.mod_le _ _).trans hend
    | writePos buf pos => exact h.bounded.1
  · rw [Client.call_size, h.call_fileSize hs]
    exact max_le h.bounded.2 hend

/-- What a call apart from the trailer accepts: a length below `2^32`, and no
byte of the trailer. -/
theorem Placed.apart (h : Placed c) {w : Call} (hs : w.Starts c) (ha : w.Apart c) : w.size c < 2 ^ 32 ∧
    ∀ x, w.Covers c x → ¬ (c.seqOffset ≤ x ∧ x < c.seqOffset + seqWidth) := by
  have hend := h.end_le hs
  have hlen : w.size c ≤ w.buf.length := min_le_left _ _
  obtain ⟨hplace, hshort⟩ := ha
  refine ⟨by omega, fun x hx ht => ?_⟩
  unfold Call.Covers at hx
  rcases hplace with h0 | h0 | h0
  · rw [h0, List.length_nil] at hlen
    omega
  · omega
  · omega

/-- A call that is not off the trailer covers one of its bytes. -/
theorem Placed.covers_trailer (h : Placed c) {w : Call} (hs : w.Starts c) (ho : ¬ w.OffTrailer c) :
    ∃ i, i < w.size c ∧ c.seqOffset ≤ w.off c + i ∧ w.off c + i < c.seqOffset + seqWidth := by
  have hroom := h.wf.room
  unfold seqWidth at hroom
  simp only [Call.OffTrailer, not_or, not_le] at ho
  obtain ⟨hne, hend, hoff⟩ := ho
  have hlen : 0 < w.buf.length := List.length_pos_iff.mpr hne
  have hsize : w.size c = min w.buf.length (c.buffer.size - w.off c) := by
    unfold Call.size Client.clamp
    rw [subSize_of_le (h.off_le hs) c.buffer.size_lt]
  unfold seqWidth at hoff ⊢
  exact ⟨c.seqOffset - w.off c, by omega, by omega, by omega⟩

/-- The data of a call, outside of the trailer. -/
theorem call_keeps_byte (h : c.Wf) {w : Call} {i : ℕ} (hi : i < w.size c)
    (ht : ¬ (c.seqOffset ≤ w.off c + i ∧ w.off c + i < c.seqOffset + seqWidth)) :
    some ((c.call w).buffer.mem (w.off c + i)) = w.buf[i]? := by
  have hlen : w.size c ≤ w.buf.length := min_le_left _ _
  have htake := Client.length_take_size c w
  rw [Client.call_mem, h.addr, Mem.putLE_out ht, Mem.write_in ⟨by omega, by omega⟩, Nat.add_sub_cancel_left,
    List.getD_eq_getElem?_getD, List.getElem?_take_of_lt hi, List.getElem?_eq_getElem (by omega)]
  rfl

end

/-- A byte outside of the trailer that no call covers stays, here. -/
theorem run_keeps_byte : ∀ (ws : List Call) {c : Client} {x : ℕ}, c.Wf →
    ¬ (c.seqOffset ≤ x ∧ x < c.seqOffset + seqWidth) → Uncovered x c ws →
    (c.run ws).buffer.mem x = c.buffer.mem x := by
  intro ws
  induction ws with
  | nil => exact fun _ _ _ => rfl
  | cons w ws ih =>
    intro c x h ht hu
    rw [Client.run_cons, ih (h.call w) (by rwa [Client.call_seqOffset]) hu.2]
    refine Client.call_mem_off ?_
    rintro (hw | hw)
    · exact hu.1 hw
    · rw [h.addr] at hw
      exact ht hw

/-- No write the calls post has it in its range. -/
theorem posts_miss : ∀ (ws : List Call) {c : Client} {x : ℕ},
    ¬ (c.seqOffset ≤ x ∧ x < c.seqOffset + seqWidth) → Uncovered x c ws →
    ∀ o ∈ posts c ws, ¬ (o.off ≤ x ∧ x < o.off + o.len) := by
  intro ws
  induction ws with
  | nil => exact fun _ _ o ho => absurd ho List.not_mem_nil
  | cons w ws ih =>
    intro c x ht hu o ho
    have hmod := Nat.mod_le (w.size c) (2 ^ 32)
    have hcov := hu.1
    unfold Call.Covers at hcov
    rcases mem_posts_cons ho with rfl | rfl | ho
    · show ¬ (w.off c ≤ x ∧ x < w.off c + w.size c % 2 ^ 32)
      omega
    · exact ht
    · exact ih (by rwa [Client.call_seqOffset]) hu.2 o ho

theorem fileSize_lt_run : ∀ (ws : List Call) {c : Client}, c.fileSize < 2 ^ 64 →
    (c.run ws).fileSize < 2 ^ 64
  | [], _, h => h
  | w :: ws, c, h => by
    refine fileSize_lt_run ws ?_
    rw [Client.call_fileSize]
    exact max_lt h (Nat.mod_lt _ (by norm_num))

section

variable {c : Client} (h : Placed c) {w : Call} (hs : w.Starts c) {i : ℕ} (hi : i < w.size c)
  (ht : ¬ (c.seqOffset ≤ w.off c + i ∧ w.off c + i < c.seqOffset + seqWidth))
include h hs hi ht

/-- The accepted range is in the file, so `ReadPos` returns all of it. -/
theorem readPos_keeps_byte {ws : List Call} (hu : Uncovered (w.off c + i) (c.call w) ws) :
    (((c.call w).run ws).readPos (w.size c) (w.off c))[i]? = w.buf[i]? := by
  have hend := h.end_le hs
  have hlt := c.buffer.size_lt
  have hsize : w.off c + w.size c ≤ ((c.call w).run ws).fileSize := by
    refine le_trans ?_ (fileSize_le_run ws (c.call w))
    rw [h.call_fileSize hs]
    exact le_max_right _ _
  have hsmall : ((c.call w).run ws).fileSize < 2 ^ 64 := by
    refine fileSize_lt_run ws ?_
    have hb := (h.call hs).bounded.2
    rw [Client.call_size] at hb
    omega
  have hclamp : min (w.size c) (subSize ((c.call w).run ws).fileSize (w.off c)) = w.size c := by
    rw [subSize_of_le (by omega) hsmall]
    omega
  have hkeep := run_keeps_byte ws (h.wf.call w) (by rwa [Client.call_seqOffset]) hu
  unfold Client.readPos
  rw [hclamp, ← call_keeps_byte h.wf hi ht, ← hkeep]
  simp [Mem.slice, List.getElem?_range hi]

omit hs in
/-- The pair of the call brings the byte to a peer, and what is posted later
passes it by. -/
theorem applyAll_keeps_byte (hshort : w.size c < 2 ^ 32) {ws : List Call}
    (hu : Uncovered (w.off c + i) (c.call w) ws) (n : ℕ) (m : Mem) :
    some (applyAll m ((c.call w).writeTwoPlace (w.off c) (w.size c) ++ (posts (c.call w) ws).take n)
      (w.off c + i)) = w.buf[i]? := by
  have hmiss := posts_miss ws (by rwa [Client.call_seqOffset]) hu
  rw [applyAll_append, applyAll_out _ fun o ho => hmiss o (List.mem_of_mem_take ho),
    ← call_keeps_byte h.wf hi ht]
  rw [applyAll_writeTwoPlace, Client.call_seqOffset, Nat.mod_eq_of_lt hshort]
  rw [Mem.copy_out ht, Mem.copy_in ⟨by omega, by omega⟩]

end

/-! ### Sequences -/

/-- Every positioned write of the sequence starts in the buffer. -/
def AllStart (c : Client) (ws : List Call) : Prop := ∀ w ∈ ws, w.Starts c

instance (c : Client) (ws : List Call) : Decidable (AllStart c ws) :=
  inferInstanceAs (Decidable (∀ w ∈ ws, w.Starts c))

theorem starts_call {c : Client} {v : Call} (w : Call) (h : v.Starts c) : v.Starts (c.call w) := by
  cases v with
  | append buf => trivial
  | writePos buf pos =>
    show pos ≤ (c.call w).buffer.size
    rwa [Client.call_size]

/-- Where the calls lead, with what is left to start in the buffer. -/
theorem placed_run : ∀ (pre : List Call) {c : Client} {rest : List Call}, Placed c →
    AllStart c (pre ++ rest) → Placed (c.run pre) ∧ AllStart (c.run pre) rest
  | [], _, _, h, hs => ⟨h, hs⟩
  | w :: pre, c, rest, h, hs => by
    refine placed_run pre (h.call (hs w List.mem_cons_self)) fun v hv => ?_
    exact starts_call w (hs v (List.mem_cons_of_mem _ hv))

theorem allApart_run : ∀ (pre : List Call) {c : Client} {rest : List Call}, AllApart c (pre ++ rest) →
    AllApart (c.run pre) rest
  | [], _, _, ha => ha
  | _ :: pre, _, _, ha => allApart_run pre ha.2

/-- Calls apart from the trailer keep what they accept. -/
theorem kept_of_allApart {c : Client} (hplaced : Placed c) {ws : List Call} (hs : AllStart c ws)
    (ha : AllApart c ws) : Kept c ws := by
  rintro pre w post rfl i hi
  obtain ⟨h, hstart⟩ := placed_run pre hplaced hs
  have hw : w.Starts (c.run pre) := hstart w List.mem_cons_self
  obtain ⟨hshort, hout⟩ := h.apart hw (allApart_run pre ha).1
  have ht := hout (w.off (c.run pre) + i) ⟨by omega, by omega⟩
  refine ⟨fun hu n => ⟨readPos_keeps_byte h hw hi ht hu, applyAll_keeps_byte h hi ht hshort hu n⟩, ?_⟩
  rwa [Client.run_seqOffset] at ht

/-- A constructed client with its offset anywhere. -/
def Grant.clientAt (g : Grant) (off : ℕ) : Client := { g.client with bufOffset := off }

/-- **Accepted bytes are kept** in every sequence of calls each of which keeps
away from the trailer and is shorter than `2^32`: what a call accepted is
what `ReadPos` returns there and what a peer that applied it holds, until a
later call covers it. A sequence with a call that reaches into the trailer
does not keep them. -/
theorem accepted_kept (g : Grant) {off : ℕ} (hoff : off ≤ g.buffer.size) {ws : List Call}
    (hs : AllStart (g.clientAt off) ws) :
    (AllApart (g.clientAt off) ws → Kept (g.clientAt off) ws) ∧
    (Kept (g.clientAt off) ws →
      ∀ pre w post, ws = pre ++ w :: post → w.OffTrailer ((g.clientAt off).run pre)) := by
  have hplaced : Placed (g.clientAt off) := ⟨⟨g.wf.addr, g.wf.room⟩, hoff, Nat.zero_le _⟩
  refine ⟨fun ha => ?_, fun hk pre w post hws => ?_⟩
  · exact kept_of_allApart hplaced hs ha
  · subst hws
    obtain ⟨h, hstart⟩ := placed_run pre hplaced hs
    by_contra ho
    obtain ⟨i, hi, ht⟩ := h.covers_trailer (hstart w List.mem_cons_self) ho
    rw [Client.run_seqOffset] at ht
    exact (hk pre w post rfl i hi).2 ht

/-- Two appends, the second overwritten in part, on a region larger than what
was asked for. -/
theorem accepted_kept_tiny :
    let g : Grant := ⟨tiny.region Mem.zero, 12, by decide, by decide⟩
    let ws : List Call := [.append [1, 2], .append [3, 4], .writePos [5, 6, 7, 8, 9] 12, .writePos [0] 2]
    AllStart (g.clientAt 0) ws ∧ AllApart (g.clientAt 0) ws ∧ Kept (g.clientAt 0) ws := by
  intro g ws
  have hs : AllStart (g.clientAt 0) ws := by decide
  have ha : AllApart (g.clientAt 0) ws := by decide
  exact ⟨hs, ha, (accepted_kept g (Nat.zero_le _) hs).1 ha⟩

/-- One byte at the position of the trailer is accepted and lost. -/
theorem trailer_byte_lost : ¬ ∀ (g : Grant) (off : ℕ) (ws : List Call), off ≤ g.buffer.size →
    AllStart (g.clientAt off) ws → Kept (g.clientAt off) ws := by
  intro h
  have hkept := h ⟨tiny.region Mem.zero, 16, by decide, by decide⟩ 0 [.writePos [1] 8] (by decide) (by decide)
  have hbyte := ((hkept [] (.writePos [1] 8) [] rfl 0 (by decide)).1 trivial 0).read
  revert hbyte
  decide

end ComputeSideLog
