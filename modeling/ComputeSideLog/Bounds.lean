/-
# Offsets, sizes and the capacity of the buffer

`Append` and `WritePos` clamp their size to what is left of the buffer, `Read`
and `ReadPos` to what is left of the file, each by a `size_t` subtraction
(`src/rdma/client.cc`). The difference is right only while the position is
not past the end it is taken from, and `Seek`, `Truncate` and a read past
the end of the file can put it there.

This file says which operations keep every write inside the buffer, in both
directions (`writes_stay_inside`), and which reads stop at the end of the
file (`reads_stop_at_end`).

Key definitions: `LogOp`, `Grant`, `LogOp.ranges`, `StaysInside`,
`LogOp.Fits`, `Client.ReadStops`, `Client.ReadPosStops`.
Key theorems: `fits_iff`, `writes_stay_inside`, `reads_stop_at_end`.
-/
import ComputeSideLog.Ops
import ComputeSideLog.Recover

namespace ComputeSideLog

/-- The operations that read or write the log; positions and lengths are
non-negative values of `off_t`. -/
inductive LogOp where
  | append (buf : List UInt8)
  | writePos (buf : List UInt8) (pos : Fin (2 ^ 63))
  | read (size : ℕ)
  | readPos (size : ℕ) (pos : Fin (2 ^ 63))
  | seek (offset : ℤ) (whence : Whence)
  | truncate (length : Fin (2 ^ 63))
  deriving DecidableEq, Repr

/-- The operation as `Client.op` takes it. -/
def LogOp.op : LogOp → Op
  | .append buf => .append buf
  | .writePos buf pos => .writePos buf pos
  | .read size => .read size
  | .readPos size pos => .readPos size pos
  | .seek offset whence => .seek offset whence
  | .truncate length => .truncate (length : ℕ)

/-- The client after the operation. -/
def Client.step (c : Client) (o : LogOp) : Client := (c.op o.op).1

/-- The client after the operations. -/
def Client.after (c : Client) (os : List LogOp) : Client := os.foldl Client.step c

/-- What a client is constructed on: a region of at least the size asked for,
with room for the trailer in that size. -/
structure Grant where
  buffer : Buffer
  bufSize : ℕ
  trailer_le : seqWidth ≤ bufSize
  size_le : bufSize ≤ buffer.size

/-- The newly constructed client. -/
def Grant.client (g : Grant) : Client := Client.init g.buffer g.bufSize

/-! ### Ranges -/

/-- The ranges that the operation copies to or zeroes in the local buffer, and
those it posts from it: where each starts and how long it is. -/
def LogOp.ranges (c : Client) (o : LogOp) : List (ℕ × ℕ) :=
  (match o with
    | .append buf => [(c.bufOffset, c.clamp buf.length c.bufOffset)]
    | .writePos buf pos => [((pos : ℕ), c.clamp buf.length pos)]
    | .truncate length => if (length : ℕ) < c.bufOffset then [((length : ℕ), c.bufOffset - length)] else []
    | _ => []) ++ (c.opPosts o.op).map fun p => (p.off, p.len)

/-- The range is empty or ends at or below `n`. -/
def Inside (n : ℕ) (r : ℕ × ℕ) : Prop := r.2 = 0 ∨ r.1 + r.2 ≤ n

instance (n : ℕ) (r : ℕ × ℕ) : Decidable (Inside n r) := instDecidableOr

/-- The offset and the size of the file do not exceed the capacity. -/
def Bounded (c : Client) : Prop := c.bufOffset ≤ c.buffer.size ∧ c.fileSize ≤ c.buffer.size

instance (c : Client) : Decidable (Bounded c) := instDecidableAnd

/-- In every state of the run the offset and the size are bounded, and every
operation writes inside the buffer. -/
def StaysInside : Client → List LogOp → Prop
  | c, [] => Bounded c
  | c, o :: os => Bounded c ∧ (∀ r ∈ o.ranges c, Inside c.buffer.size r) ∧ StaysInside (c.step o) os

instance : ∀ (c : Client) (os : List LogOp), Decidable (StaysInside c os)
  | c, [] => inferInstanceAs (Decidable (Bounded c))
  | c, o :: os =>
    haveI := instDecidableStaysInside (c.step o) os
    inferInstanceAs (Decidable (Bounded c ∧ (∀ r ∈ o.ranges c, Inside c.buffer.size r) ∧ _))

/-- A positioned write starts in the buffer, a truncation ends in it, and a read
starts inside the file; one that starts past its end is harmless if it stops
inside the buffer or comes around to a position inside the file. -/
def LogOp.Fits (c : Client) : LogOp → Prop
  | .writePos _ pos => (pos : ℕ) ≤ c.buffer.size
  | .truncate length => (length : ℕ) ≤ c.buffer.size
  | .read size => c.bufOffset ≤ c.fileSize ∨ c.bufOffset + size ≤ c.buffer.size ∨
      2 ^ 64 ≤ c.bufOffset + size
  | .append _ => True
  | .readPos _ _ => True
  | .seek _ _ => True

instance (c : Client) : ∀ o : LogOp, Decidable (o.Fits c)
  | .writePos _ _ => Nat.decLe _ _
  | .truncate _ => Nat.decLe _ _
  | .read _ => instDecidableOr
  | .append _ => instDecidableTrue
  | .readPos _ _ => instDecidableTrue
  | .seek _ _ => instDecidableTrue

/-- Every operation of the run fits when it is made. -/
def AllFits : Client → List LogOp → Prop
  | _, [] => True
  | c, o :: os => o.Fits c ∧ AllFits (c.step o) os

instance : ∀ (c : Client) (os : List LogOp), Decidable (AllFits c os)
  | _, [] => instDecidableTrue
  | c, o :: os =>
    haveI := instDecidableAllFits (c.step o) os
    inferInstanceAs (Decidable (o.Fits c ∧ AllFits (c.step o) os))

namespace Client

variable {c : Client}

@[simp] theorem after_nil (c : Client) : c.after [] = c := rfl

@[simp] theorem after_cons (c : Client) (o : LogOp) (os : List LogOp) :
    c.after (o :: os) = (c.step o).after os := rfl

theorem after_append (c : Client) (os os' : List LogOp) : c.after (os ++ os') = (c.after os).after os' :=
  List.foldl_append

theorem step_geometry (c : Client) (o : LogOp) : (c.step o).geometry = c.geometry := op_geometry c o.op

theorem step_size (c : Client) (o : LogOp) : (c.step o).buffer.size = c.buffer.size :=
  congrArg (·.1) (step_geometry c o)

theorem step_seqOffset (c : Client) (o : LogOp) : (c.step o).seqOffset = c.seqOffset :=
  congrArg (·.2.2.1) (step_geometry c o)

theorem step_seqAddr (c : Client) (o : LogOp) : (c.step o).seqAddr = c.seqAddr :=
  congrArg (·.2.2.2) (step_geometry c o)

theorem after_seqOffset : ∀ (os : List LogOp) (c : Client), (c.after os).seqOffset = c.seqOffset
  | [], _ => rfl
  | o :: os, c => by rw [after_cons, after_seqOffset os, step_seqOffset]

theorem Wf.step (h : c.Wf) (o : LogOp) : (c.step o).Wf :=
  ⟨by rw [step_seqAddr, step_seqOffset, h.addr], by rw [step_seqOffset, step_size]; exact h.room⟩

/-! ### The fields after a step -/

theorem step_truncate (length : Fin (2 ^ 63)) : (c.step (.truncate length)).fileSize = length ∧
    (c.step (.truncate length)).bufOffset = min c.bufOffset length := by
  have hl : toSize ((length : ℕ) : ℤ) = length := toSize_natCast (by omega)
  show (c.truncate ((length : ℕ) : ℤ)).fileSize = _ ∧ (c.truncate ((length : ℕ) : ℤ)).bufOffset = _
  unfold truncate
  rw [hl]
  by_cases h : (length : ℕ) < c.bufOffset
  · rw [if_pos h]
    exact ⟨rfl, (min_eq_right h.le).symm⟩
  · rw [if_neg h]
    exact ⟨rfl, (min_eq_left (Nat.le_of_not_lt h)).symm⟩

theorem truncate_mem (c : Client) (length : Fin (2 ^ 63)) (x : ℕ) :
    (c.step (.truncate length)).buffer.mem x =
      if (length : ℕ) ≤ x ∧ x < c.bufOffset then 0 else c.buffer.mem x := by
  have hl : toSize ((length : ℕ) : ℤ) = length := toSize_natCast (by omega)
  show (c.truncate ((length : ℕ) : ℤ)).buffer.mem x = _
  unfold truncate
  rw [hl]
  by_cases h : (length : ℕ) < c.bufOffset
  · rw [if_pos h]
    show c.buffer.mem.copy Mem.zero length (c.bufOffset - length) x = _
    unfold Mem.copy
    rw [Nat.add_sub_cancel' h.le]
    rfl
  · rw [if_neg h, if_neg (by omega)]

theorem step_seek (offset : ℤ) (whence : Whence) : (c.step (.seek offset whence)).fileSize = c.fileSize ∧
    (c.step (.seek offset whence)).buffer = c.buffer := by
  cases whence <;> exact ⟨rfl, rfl⟩

theorem step_read (size : ℕ) : c.step (.read size) =
    { c with bufOffset := (c.bufOffset + min size (subSize c.fileSize c.bufOffset)) % 2 ^ 64 } := rfl

end Client

/-! ### Writes -/

namespace Grant

theorem seqOffset_eq (g : Grant) : g.client.seqOffset = g.bufSize - seqWidth :=
  subSize_of_le g.trailer_le (g.size_le.trans_lt g.buffer.size_lt)

theorem wf (g : Grant) : g.client.Wf where
  addr := rfl
  room := by
    rw [g.seqOffset_eq, Nat.sub_add_cancel g.trailer_le]
    exact g.size_le

theorem bounded (g : Grant) : Bounded g.client := ⟨Nat.zero_le _, Nat.zero_le _⟩

end Grant

section

variable {c : Client}

/-- A difference below zero comes around. -/
theorem subSize_of_lt {a b : ℕ} (h : a < b) : subSize a b = a + 2 ^ 64 - b := Nat.mod_eq_of_lt (by omega)

/-- A write from a position in the buffer is clamped to end in it. -/
theorem clamp_le (len : ℕ) {off : ℕ} (h : off ≤ c.buffer.size) : off + c.clamp len off ≤ c.buffer.size := by
  have hle : c.clamp len off ≤ subSize c.buffer.size off := min_le_right _ _
  rw [subSize_of_le h c.buffer.size_lt] at hle
  omega

/-- The ranges of a write: the data, twice, and the trailer. -/
theorem ranges_inside (h : c.Wf) {off size : ℕ} (hend : off + size ≤ c.buffer.size) :
    ∀ r ∈ [(off, size), (off, size % 2 ^ 32), (c.seqOffset, seqWidth)], Inside c.buffer.size r := by
  have hmod := Nat.mod_le size (2 ^ 32)
  have hroom := h.room
  intro r hr
  simp only [List.mem_cons, List.not_mem_nil, or_false] at hr
  rcases hr with rfl | rfl | rfl
  · exact .inr hend
  · exact .inr (by show off + size % 2 ^ 32 ≤ _; omega)
  · exact .inr hroom

/-- A positioned write from past the capacity copies outside of the buffer, or
moves the size there. -/
theorem writePos_outside {buf : List UInt8} {pos : Fin (2 ^ 63)} (hpos : c.buffer.size < pos)
    (hr : Inside c.buffer.size ((pos : ℕ), c.clamp buf.length pos)) :
    c.buffer.size < (c.step (.writePos buf pos)).fileSize := by
  have hzero : c.clamp buf.length pos = 0 := by
    rcases hr with h0 | hle
    · exact h0
    · change (pos : ℕ) + _ ≤ _ at hle
      omega
  have hsize : (c.step (.writePos buf pos)).fileSize = max c.fileSize ((pos : ℕ) + c.clamp buf.length pos) := by
    show max c.fileSize (((pos : ℕ) + c.clamp buf.length pos) % 2 ^ 64) = _
    rw [hzero, Nat.mod_eq_of_lt (by omega)]
  rw [hsize, hzero]
  exact lt_max_of_lt_right (by omega)

theorem append_bounded (hc : Bounded c) (buf : List UInt8) : Bounded (c.step (.append buf)) := by
  have hend := clamp_le buf.length hc.1
  have hlt := c.buffer.size_lt
  have hmod : (c.bufOffset + c.clamp buf.length c.bufOffset) % 2 ^ 64 =
      c.bufOffset + c.clamp buf.length c.bufOffset := Nat.mod_eq_of_lt (by omega)
  refine ⟨?_, ?_⟩
  · show (c.bufOffset + c.clamp buf.length c.bufOffset) % 2 ^ 64 ≤ c.buffer.size
    omega
  · show max c.fileSize ((c.bufOffset + c.clamp buf.length c.bufOffset) % 2 ^ 64) ≤ c.buffer.size
    exact max_le hc.2 (by omega)

theorem writePos_bounded (hc : Bounded c) {buf : List UInt8} {pos : Fin (2 ^ 63)} (hpos : pos ≤ c.buffer.size) :
    Bounded (c.step (.writePos buf pos)) := by
  have hend := clamp_le buf.length hpos
  have hlt := c.buffer.size_lt
  refine ⟨hc.1, ?_⟩
  show max c.fileSize (((pos : ℕ) + c.clamp buf.length pos) % 2 ^ 64) ≤ c.buffer.size
  rw [Nat.mod_eq_of_lt (by omega)]
  exact max_le hc.2 hend

theorem seek_bounded (h : c.Wf) (hc : Bounded c) (offset : ℤ) (whence : Whence) :
    Bounded (c.step (.seek offset whence)) := by
  have hroom := h.room
  unfold seqWidth at hroom
  have hcut : ∀ n, min n (subSize c.buffer.size 1) ≤ c.buffer.size := by
    intro n
    rw [subSize_of_le (by omega) c.buffer.size_lt]
    omega
  cases whence with
  | seekSet => exact ⟨hcut _, hc.2⟩
  | seekCur => exact ⟨hcut _, hc.2⟩
  | seekEnd => exact ⟨hc.2, hc.2⟩
  | other => exact hc

/-- A read leaves the offset in the buffer if and only if it fits. -/
theorem read_bounded_iff (hc : Bounded c) (size : ℕ) :
    Bounded (c.step (.read size)) ↔ (LogOp.read size).Fits c := by
  obtain ⟨h1, h2⟩ := hc
  have hlt := c.buffer.size_lt
  rw [Client.step_read]
  show (c.bufOffset + min size (subSize c.fileSize c.bufOffset)) % 2 ^ 64 ≤ c.buffer.size ∧
    c.fileSize ≤ c.buffer.size ↔ c.bufOffset ≤ c.fileSize ∨ _ ∨ _
  by_cases hin : c.bufOffset ≤ c.fileSize
  · rw [subSize_of_le hin (by omega)]
    exact ⟨fun _ => .inl hin, fun _ => ⟨by omega, h2⟩⟩
  · have hwrap : subSize c.fileSize c.bufOffset = c.fileSize + 2 ^ 64 - c.bufOffset :=
      subSize_of_lt (Nat.lt_of_not_le hin)
    rw [hwrap]
    by_cases haround : 2 ^ 64 ≤ c.bufOffset + size
    · refine ⟨fun _ => .inr (.inr haround), fun _ => ⟨?_, h2⟩⟩
      have hle : (c.bufOffset + min size (c.fileSize + 2 ^ 64 - c.bufOffset)) % 2 ^ 64 ≤ c.fileSize := by
        rcases min_choice size (c.fileSize + 2 ^ 64 - c.bufOffset) with hm | hm <;> omega
      exact hle.trans h2
    · have hmin : min size (c.fileSize + 2 ^ 64 - c.bufOffset) = size := by omega
      rw [hmin, Nat.mod_eq_of_lt (by omega)]
      exact ⟨fun hle => .inr (.inl hle.1), fun hle => ⟨by omega, h2⟩⟩

/-- **One operation.** It writes inside the buffer and keeps the bounds if and
only if it fits. -/
theorem fits_iff (h : c.Wf) (hc : Bounded c) (o : LogOp) :
    o.Fits c ↔ (∀ r ∈ o.ranges c, Inside c.buffer.size r) ∧ Bounded (c.step o) := by
  cases o with
  | append buf =>
    exact ⟨fun _ => ⟨ranges_inside h (clamp_le buf.length hc.1), append_bounded hc buf⟩, fun _ => trivial⟩
  | writePos buf pos =>
    refine ⟨fun hpos => ⟨ranges_inside h (clamp_le buf.length hpos), writePos_bounded hc hpos⟩, ?_⟩
    rintro ⟨hr, hb⟩
    by_contra hpos
    have hout := writePos_outside (Nat.lt_of_not_le hpos) (hr _ List.mem_cons_self)
    have hle := hb.2
    rw [Client.step_size] at hle
    omega
  | read size =>
    rw [← read_bounded_iff hc]
    exact ⟨fun hb => ⟨fun r hr => absurd hr List.not_mem_nil, hb⟩, fun hb => hb.2⟩
  | readPos size pos => exact ⟨fun _ => ⟨fun r hr => absurd hr List.not_mem_nil, hc⟩, fun _ => trivial⟩
  | seek offset whence =>
    exact ⟨fun _ => ⟨fun r hr => absurd hr List.not_mem_nil, seek_bounded h hc offset whence⟩, fun _ => trivial⟩
  | truncate length =>
    obtain ⟨hsize, hoff⟩ := Client.step_truncate (c := c) length
    unfold Bounded
    rw [Client.step_size, hsize, hoff]
    refine ⟨fun hl => ⟨fun r hr => ?_, (min_le_left _ _).trans hc.1, hl⟩, fun hb => hb.2.2⟩
    -- the range cleared ends at the offset
    simp only [LogOp.ranges, LogOp.op, Client.opPosts, Op.call, List.map_nil, List.append_nil] at hr
    split at hr
    · rename_i hlt
      have hbound := hc.1
      rw [List.mem_singleton.mp hr]
      exact .inr (by show (length : ℕ) + (c.bufOffset - length) ≤ _; omega)
    · exact absurd hr List.not_mem_nil

theorem staysInside_iff (os : List LogOp) {c : Client} (h : c.Wf) (hc : Bounded c) :
    StaysInside c os ↔ AllFits c os := by
  induction os generalizing c with
  | nil => exact ⟨fun _ => trivial, fun _ => hc⟩
  | cons o os ih =>
    have hstep := fits_iff h hc o
    constructor
    · rintro ⟨-, hr, hrest⟩
      -- the bound after this step is the first thing the rest says
      have hb : Bounded (c.step o) := by
        cases os with
        | nil => exact hrest
        | cons o' os => exact hrest.1
      exact ⟨hstep.mpr ⟨hr, hb⟩, (ih (h.step o) hb).mp hrest⟩
    · rintro ⟨hfit, hrest⟩
      obtain ⟨hr, hb⟩ := hstep.mp hfit
      exact ⟨hc, hr, (ih (h.step o) hb).mpr hrest⟩

end

/-- **Writes stay inside the buffer** in a run of a newly constructed client if
and only if every positioned write starts in the buffer, every truncation is
to a length within it, and no read from past the end of the file carries the
offset out of it. -/
theorem writes_stay_inside (g : Grant) (os : List LogOp) :
    StaysInside g.client os ↔ AllFits g.client os :=
  staysInside_iff os g.wf g.bounded

/-- One byte, at the position after the last of a 16-byte region. -/
theorem write_past_capacity : ¬ ∀ (g : Grant) (os : List LogOp), StaysInside g.client os := by
  intro h
  have hrun := h ⟨tiny.region Mem.zero, 16, by decide, by decide⟩ [.writePos [1] 17]
  revert hrun
  decide

/-! ### Reads -/

namespace Client

/-- `Read` copies what is left of the file, `size` bytes at most, and moves the
offset past it. -/
def ReadStops (c : Client) (size : ℕ) : Prop :=
  c.read size = ({ c with bufOffset := c.bufOffset + min size (c.fileSize - c.bufOffset) },
    c.buffer.mem.slice c.bufOffset (min size (c.fileSize - c.bufOffset)))

/-- `ReadPos` copies what is left of the file from `pos` on. -/
def ReadPosStops (c : Client) (size pos : ℕ) : Prop :=
  c.readPos size pos = c.buffer.mem.slice pos (min size (c.fileSize - pos))

/-- The offset and the size are values of `size_t`. -/
def Small (c : Client) : Prop := c.bufOffset < 2 ^ 64 ∧ c.fileSize < 2 ^ 64

variable {c : Client}

theorem Small.step (h : c.Small) (o : LogOp) : (c.step o).Small := by
  have hmod : ∀ n, n % 2 ^ 64 < 2 ^ 64 := fun n => Nat.mod_lt _ (by norm_num)
  cases o with
  | append buf => exact ⟨hmod _, max_lt h.2 (hmod _)⟩
  | writePos buf pos => exact ⟨h.1, max_lt h.2 (hmod _)⟩
  | read size => exact ⟨hmod _, h.2⟩
  | readPos size pos => exact h
  | seek offset whence =>
    cases whence with
    | seekSet => exact ⟨(min_le_left _ _).trans_lt (toSize_lt offset), h.2⟩
    | seekCur => exact ⟨(min_le_left _ _).trans_lt (toSize_lt _), h.2⟩
    | seekEnd => exact ⟨h.2, h.2⟩
    | other => exact h
  | truncate length =>
    obtain ⟨hsize, hoff⟩ := step_truncate (c := c) length
    unfold Small
    rw [hsize, hoff]
    exact ⟨(min_le_left _ _).trans_lt h.1, by omega⟩

theorem Small.after : ∀ (os : List LogOp) {c : Client}, c.Small → (c.after os).Small
  | [], _, h => h
  | o :: os, _, h => after os (h.step o)

/-- The clamp of a read is the number of bytes left if and only if the position
is inside the file, or nothing is asked for. -/
theorem clamp_read_iff (h : c.Small) {size pos : ℕ} (hpos : pos < 2 ^ 64) :
    min size (subSize c.fileSize pos) = min size (c.fileSize - pos) ↔ pos ≤ c.fileSize ∨ size = 0 := by
  by_cases hin : pos ≤ c.fileSize
  · rw [subSize_of_le hin h.2]
    exact ⟨fun _ => .inl hin, fun _ => rfl⟩
  · rw [subSize_of_lt (Nat.lt_of_not_le hin)]
    omega

theorem readPosStops_iff (h : c.Small) {size pos : ℕ} (hpos : pos < 2 ^ 64) :
    c.ReadPosStops size pos ↔ pos ≤ c.fileSize ∨ size = 0 := by
  rw [← clamp_read_iff h hpos]
  unfold ReadPosStops readPos
  constructor
  · intro he
    have hlen := congrArg List.length he
    rwa [Mem.slice_length, Mem.slice_length] at hlen
  · intro he
    rw [he]

theorem readStops_iff (h : c.Small) (size : ℕ) : c.ReadStops size ↔ c.bufOffset ≤ c.fileSize ∨ size = 0 := by
  rw [← clamp_read_iff h h.1]
  unfold ReadStops read
  constructor
  · intro he
    have hlen := congrArg (fun p => p.2.length) he
    simpa only [Mem.slice_length] using hlen
  · intro he
    have hlt : c.bufOffset + min size (c.fileSize - c.bufOffset) < 2 ^ 64 := by
      have h1 := h.1
      have h2 := h.2
      omega
    simp only [he, Nat.mod_eq_of_lt hlt]

end Client

/-- A seek by `SEEK_SET` or `SEEK_CUR` lands inside the file. -/
def LogOp.SeeksIn (c : Client) : LogOp → Prop
  | .seek offset .seekSet => min (toSize offset) (subSize c.buffer.size 1) ≤ c.fileSize
  | .seek offset .seekCur => min (toSize (offset + c.bufOffset)) (subSize c.buffer.size 1) ≤ c.fileSize
  | _ => True

/-- Every seek of the run does. -/
def AllSeekIn : Client → List LogOp → Prop
  | _, [] => True
  | c, o :: os => o.SeeksIn c ∧ AllSeekIn (c.step o) os

/-- Only a seek moves the offset past the end of the file. -/
theorem offset_le_step {c : Client} (hs : c.Small) (h : c.bufOffset ≤ c.fileSize) {o : LogOp}
    (ho : o.SeeksIn c) : (c.step o).bufOffset ≤ (c.step o).fileSize := by
  cases o with
  | append buf => exact le_max_right _ _
  | writePos buf pos => exact h.trans (le_max_left _ _)
  | read size =>
    have hlt := hs.2
    show (c.bufOffset + min size (subSize c.fileSize c.bufOffset)) % 2 ^ 64 ≤ c.fileSize
    rw [subSize_of_le h hlt, Nat.mod_eq_of_lt (by omega)]
    omega
  | readPos size pos => exact h
  | seek offset whence =>
    cases whence with
    | seekSet => exact ho
    | seekCur => exact ho
    | seekEnd => exact le_rfl
    | other => exact h
  | truncate length =>
    obtain ⟨hsize, hoff⟩ := Client.step_truncate (c := c) length
    rw [hsize, hoff]
    exact min_le_right _ _

theorem offset_le_after : ∀ (os : List LogOp) {c : Client}, c.Small → c.bufOffset ≤ c.fileSize →
    AllSeekIn c os → (c.after os).bufOffset ≤ (c.after os).fileSize
  | [], _, _, h, _ => h
  | o :: os, _, hs, h, ho => offset_le_after os (hs.step o) (offset_le_step hs h ho.1) ho.2

theorem Grant.small (g : Grant) : g.client.Small := ⟨by show 0 < 2 ^ 64; norm_num, by show 0 < 2 ^ 64; norm_num⟩

/-- **When reads stop at the end of the file.** After any operations, a `Read` of
one byte or more stops there if and only if the offset is not past it, and a
`ReadPos` if and only if its position is not. In a run whose seeks land
inside the file, every `Read` does. -/
theorem reads_stop_at_end (g : Grant) (os : List LogOp) :
    (∀ size, (g.client.after os).ReadStops size ↔
      (g.client.after os).bufOffset ≤ (g.client.after os).fileSize ∨ size = 0) ∧
    (∀ size (pos : Fin (2 ^ 63)), (g.client.after os).ReadPosStops size pos ↔
      pos ≤ (g.client.after os).fileSize ∨ size = 0) ∧
    (AllSeekIn g.client os → ∀ size, (g.client.after os).ReadStops size) := by
  have hs : (g.client.after os).Small := g.small.after os
  refine ⟨Client.readStops_iff hs, fun size pos => Client.readPosStops_iff hs (by omega), ?_⟩
  intro hseek size
  exact (Client.readStops_iff hs size).mpr (.inl (offset_le_after os g.small le_rfl hseek))

/-- A seek to position 5 of an empty log, and a read of three bytes there. -/
theorem read_past_end : ¬ ∀ (g : Grant) (os : List LogOp), AllFits g.client os →
    (∀ size, (g.client.after os).ReadStops size) ∧
      ∀ size (pos : Fin (2 ^ 63)), (g.client.after os).ReadPosStops size pos := by
  intro h
  have hread := (h ⟨tiny.region Mem.zero, 16, by decide, by decide⟩ [.seek 5 .seekSet] (by decide)).1 3
  have hlen := congrArg (fun p => p.2.length) hread
  revert hlen
  decide

end ComputeSideLog
