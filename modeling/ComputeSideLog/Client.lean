/-
# The client's local log

`CSLClient` keeps the log in one registered buffer: the data from position 0
on and, in the last eight bytes of `buf_size`, the sequence number of the
last write. This file models the client's fields, `init`, and the local half
of `Append` and `WritePos` (`src/rdma/client.cc`): clamp the size, move
`buf_offset` and `file_size`, `memcpy` the data, store the sequence number
through `seq_addr`. What is then sent to the peers is `Posts.lean`.

A `Layout` is the geometry of an epoch in which every buffer, local and
remote, has the requested size.

Key definitions: `Client.append`, `Client.writePos`, `Client.call`,
`Client.run`, `Call.InBounds`, `AllIn`.
Key theorems: `Client.call_mem_off`, `Client.call_mem_data`,
`Client.call_trailer`, `Client.tidy_run`.
-/
import ComputeSideLog.Lib.Bytes

namespace ComputeSideLog

/-- The width of the sequence number at the end of a region. -/
def seqWidth : ℕ := 8

/-- `size_t` subtraction. -/
def subSize (a b : ℕ) : ℕ := (a + 2 ^ 64 - b) % 2 ^ 64

theorem subSize_of_le {a b : ℕ} (h : b ≤ a) (ha : a < 2 ^ 64) : subSize a b = a - b := by
  unfold subSize
  omega

/-- A registered memory region: its size, a `size_t`, and its bytes. -/
structure Buffer where
  size : ℕ
  size_lt : size < 2 ^ 64
  mem : Mem

/-- The fields of `CSLClient` that the log operations read and write;
`seqAddr` is the position in `buffer` that `seq_addr` points to. -/
structure Client where
  buffer : Buffer
  bufSize : ℕ
  bufOffset : ℕ
  fileSize : ℕ
  seq : ℕ
  seqOffset : ℕ
  seqAddr : ℕ

/-- The size of every region of an epoch, with room for the trailer. -/
structure Layout where
  size : ℕ
  trailer_le : seqWidth ≤ size
  size_lt : size < 2 ^ 64

namespace Layout

/-- Where the trailer starts. -/
def seqOffset (L : Layout) : ℕ := L.size - seqWidth

/-- A region of the layout's size. -/
def region (L : Layout) (m : Mem) : Buffer := ⟨L.size, L.size_lt, m⟩

theorem seqOffset_add (L : Layout) : L.seqOffset + seqWidth = L.size :=
  Nat.sub_add_cancel L.trailer_le

@[simp] theorem region_size (L : Layout) (m : Mem) : (L.region m).size = L.size := rfl
@[simp] theorem region_mem (L : Layout) (m : Mem) : (L.region m).mem = m := rfl

end Layout

/-- A write call of the application. -/
inductive Call where
  | append (buf : List UInt8)
  | writePos (buf : List UInt8) (pos : ℕ)
  deriving DecidableEq, Repr

namespace Client

/-- `init`: the client on a region from the pool, before any write. -/
def init (buffer : Buffer) (bufSize : ℕ) : Client where
  buffer := buffer
  bufSize := bufSize
  bufOffset := 0
  fileSize := 0
  seq := 0
  seqOffset := subSize bufSize seqWidth
  seqAddr := subSize bufSize seqWidth

/-- A newly constructed client: `GetMRofSize` hands out zeroed regions. -/
def fresh (L : Layout) : Client := init (L.region Mem.zero) L.size

/-- What `Append` and `WritePos` share once the size is clamped. -/
def store (c : Client) (buf : List UInt8) (off size : ℕ) : Client :=
  { c with
    fileSize := max c.fileSize ((off + size) % 2 ^ 64)
    buffer := { c.buffer with
      mem := (c.buffer.mem.write off (buf.take size)).putLE c.seqAddr seqWidth c.seq }
    seq := (c.seq + 1) % 2 ^ 64 }

/-- The size `Append` and `WritePos` accept at `off`. -/
def clamp (c : Client) (len off : ℕ) : ℕ := min len (subSize c.buffer.size off)

/-- `Append`, up to the call of `WriteQuorum`. -/
def append (c : Client) (buf : List UInt8) : Client :=
  let size := c.clamp buf.length c.bufOffset
  { c.store buf c.bufOffset size with bufOffset := (c.bufOffset + size) % 2 ^ 64 }

/-- `WritePos`, up to the call of `WriteQuorum`. -/
def writePos (c : Client) (buf : List UInt8) (pos : ℕ) : Client :=
  c.store buf pos (c.clamp buf.length pos)

/-- The local half of a call. -/
def call (c : Client) : Call → Client
  | .append buf => c.append buf
  | .writePos buf pos => c.writePos buf pos

/-- The calls one after the other. -/
def run (c : Client) (ws : List Call) : Client := ws.foldl call c

end Client

namespace Call

/-- The bytes the application passes. -/
def buf : Call → List UInt8
  | .append buf => buf
  | .writePos buf _ => buf

/-- Where the call writes. -/
def off (c : Client) : Call → ℕ
  | .append _ => c.bufOffset
  | .writePos _ pos => pos

/-- The number of bytes the call accepts, its return value. -/
def size (c : Client) (w : Call) : ℕ := c.clamp w.buf.length (w.off c)

/-- The call ends at or below the trailer. -/
def InBounds (c : Client) (w : Call) : Prop := w.off c + w.buf.length ≤ c.seqOffset

instance (c : Client) (w : Call) : Decidable (w.InBounds c) :=
  inferInstanceAs (Decidable (w.off c + w.buf.length ≤ c.seqOffset))

/-- The call changes position `x` of the local buffer, by its data or by its
sequence number. -/
def Writes (c : Client) (w : Call) (x : ℕ) : Prop :=
  (w.off c ≤ x ∧ x < w.off c + w.size c) ∨ (c.seqAddr ≤ x ∧ x < c.seqAddr + seqWidth)

end Call

/-- Every call of the sequence is in bounds when it is made. -/
def AllIn : Client → List Call → Prop
  | _, [] => True
  | c, w :: ws => w.InBounds c ∧ AllIn (c.call w) ws

instance : ∀ (c : Client) (ws : List Call), Decidable (AllIn c ws)
  | _, [] => instDecidableTrue
  | c, w :: ws =>
    haveI := instDecidableAllIn (c.call w) ws
    inferInstanceAs (Decidable (w.InBounds c ∧ AllIn (c.call w) ws))

namespace Client

/-! ### One call -/

@[simp] theorem call_seqOffset (c : Client) (w : Call) : (c.call w).seqOffset = c.seqOffset := by
  cases w <;> rfl

@[simp] theorem call_seqAddr (c : Client) (w : Call) : (c.call w).seqAddr = c.seqAddr := by
  cases w <;> rfl

@[simp] theorem call_size (c : Client) (w : Call) : (c.call w).buffer.size = c.buffer.size := by
  cases w <;> rfl

@[simp] theorem call_seq (c : Client) (w : Call) : (c.call w).seq = (c.seq + 1) % 2 ^ 64 := by
  cases w <;> rfl

theorem call_fileSize (c : Client) (w : Call) :
    (c.call w).fileSize = max c.fileSize ((w.off c + w.size c) % 2 ^ 64) := by
  cases w <;> rfl

theorem call_mem (c : Client) (w : Call) : (c.call w).buffer.mem =
    (c.buffer.mem.write (w.off c) (w.buf.take (w.size c))).putLE c.seqAddr seqWidth c.seq := by
  cases w <;> rfl

theorem length_take_size (c : Client) (w : Call) : (w.buf.take (w.size c)).length = w.size c := by
  rw [List.length_take]
  exact min_eq_left (min_le_left _ _)

/-- A position the call does not write keeps its byte. -/
theorem call_mem_off {c : Client} {w : Call} {x : ℕ} (h : ¬ w.Writes c x) :
    (c.call w).buffer.mem x = c.buffer.mem x := by
  unfold Call.Writes at h
  rw [call_mem, Mem.putLE_out fun hx => h (.inr hx), Mem.write_out fun hx => h (.inl ?_)]
  rwa [length_take_size] at hx

/-! ### Clients whose trailer is where `init` puts it -/

/-- `seq_addr` points to `seq_offset` and the trailer fits the buffer. -/
structure Wf (c : Client) : Prop where
  addr : c.seqAddr = c.seqOffset
  room : c.seqOffset + seqWidth ≤ c.buffer.size

theorem fresh_seqOffset (L : Layout) : (fresh L).seqOffset = L.seqOffset :=
  subSize_of_le L.trailer_le L.size_lt

theorem fresh_wf (L : Layout) : (fresh L).Wf where
  addr := rfl
  room := by
    rw [fresh_seqOffset, L.seqOffset_add]
    exact le_rfl

theorem Wf.call {c : Client} (h : c.Wf) (w : Call) : (c.call w).Wf :=
  ⟨by simpa using h.addr, by simpa using h.room⟩

/-- A call that ends inside the buffer accepts all its bytes. -/
theorem size_of_end_le {c : Client} {w : Call} (h : w.off c + w.buf.length ≤ c.buffer.size) :
    w.size c = w.buf.length := by
  unfold Call.size clamp
  rw [subSize_of_le (by omega) c.buffer.size_lt]
  omega

theorem size_of_inBounds {c : Client} (h : c.Wf) {w : Call} (hw : w.InBounds c) :
    w.size c = w.buf.length := by
  have hr := h.room
  unfold Call.InBounds at hw
  exact size_of_end_le (by omega)

theorem end_lt {c : Client} (h : c.Wf) {w : Call} (hw : w.InBounds c) :
    w.off c + w.size c < 2 ^ 64 := by
  have h1 := h.room
  have h2 := c.buffer.size_lt
  rw [size_of_inBounds h hw]
  unfold Call.InBounds at hw
  omega

/-- The data of a call in bounds is in the local buffer after it. -/
theorem call_mem_data {c : Client} (h : c.Wf) {w : Call} (hend : w.off c + w.size c ≤ c.seqOffset)
    {i : ℕ} (hi : i < w.size c) : (c.call w).buffer.mem (w.off c + i) = w.buf.getD i 0 := by
  have hl := length_take_size c w
  rw [call_mem, Mem.putLE_out (by rw [h.addr]; omega), Mem.write_in ⟨by omega, by omega⟩,
    Nat.add_sub_cancel_left, List.getD_eq_getElem?_getD, List.getD_eq_getElem?_getD,
    List.getElem?_take_of_lt hi]

/-- The trailer after a call is the sequence number before it: `fetch_add`
returns the old value. -/
theorem call_trailer {c : Client} (h : c.Wf) (w : Call) :
    (c.call w).buffer.mem.getLE c.seqOffset seqWidth = c.seq % 2 ^ 64 := by
  rw [call_mem, h.addr, Mem.getLE_putLE]
  norm_num [seqWidth]

/-! ### Runs -/

@[simp] theorem run_nil (c : Client) : c.run [] = c := rfl

@[simp] theorem run_cons (c : Client) (w : Call) (ws : List Call) :
    c.run (w :: ws) = (c.call w).run ws := rfl

theorem run_append (c : Client) (ws ws' : List Call) : c.run (ws ++ ws') = (c.run ws).run ws' :=
  List.foldl_append

theorem run_concat (c : Client) (ws : List Call) (w : Call) :
    c.run (ws ++ [w]) = (c.run ws).call w := by
  rw [run_append]; rfl

@[simp] theorem run_seqOffset : ∀ (ws : List Call) (c : Client), (c.run ws).seqOffset = c.seqOffset
  | [], _ => rfl
  | w :: ws, c => by rw [run_cons, run_seqOffset ws, call_seqOffset]

@[simp] theorem run_seqAddr : ∀ (ws : List Call) (c : Client), (c.run ws).seqAddr = c.seqAddr
  | [], _ => rfl
  | w :: ws, c => by rw [run_cons, run_seqAddr ws, call_seqAddr]

@[simp] theorem run_size : ∀ (ws : List Call) (c : Client), (c.run ws).buffer.size = c.buffer.size
  | [], _ => rfl
  | w :: ws, c => by rw [run_cons, run_size ws, call_size]

theorem run_seq : ∀ (ws : List Call) (c : Client), c.seq < 2 ^ 64 →
    (c.run ws).seq = (c.seq + ws.length) % 2 ^ 64 := by
  intro ws
  induction ws with
  | nil => exact fun c h => (Nat.mod_eq_of_lt h).symm
  | cons w ws ih =>
    intro c h
    rw [run_cons, ih _ (by rw [call_seq]; exact Nat.mod_lt _ (by norm_num)), call_seq,
      List.length_cons, Nat.mod_add_mod]
    congr 1
    ring

theorem Wf.run {c : Client} (h : c.Wf) (ws : List Call) : (c.run ws).Wf :=
  ⟨by simpa using h.addr, by simpa using h.room⟩

/-- A position no call of the sequence writes keeps its byte. -/
theorem run_mem_off : ∀ (ws : List Call) (c : Client) {x : ℕ},
    (∀ w ∈ ws, ∀ c' : Client, c'.seqAddr = c.seqAddr → ¬ w.Writes c' x) →
    (c.run ws).buffer.mem x = c.buffer.mem x
  | [], _, _, _ => rfl
  | w :: ws, c, x, h => by
    rw [run_cons, run_mem_off ws (c.call w) fun v hv c' hc' =>
      h v (List.mem_cons_of_mem _ hv) c' (hc'.trans (call_seqAddr c w))]
    exact call_mem_off (h w List.mem_cons_self c rfl)

/-- What keeps the unused part of the data region zero: `file_size` stays
below the trailer, and nothing is stored between the two. -/
structure Tidy (c : Client) : Prop where
  size_le : c.fileSize ≤ c.seqOffset
  clean : ∀ x, c.fileSize ≤ x → x < c.seqOffset → c.buffer.mem x = 0

theorem fresh_tidy (L : Layout) : (fresh L).Tidy := ⟨Nat.zero_le _, fun _ _ _ => rfl⟩

theorem Tidy.call {c : Client} (hw : c.Wf) (h : c.Tidy) {w : Call} (hb : w.InBounds c) :
    (c.call w).Tidy := by
  have he := end_lt hw hb
  have hs := size_of_inBounds hw hb
  have hf := call_fileSize c w
  rw [Nat.mod_eq_of_lt he] at hf
  unfold Call.InBounds at hb
  refine ⟨?_, fun x h1 h2 => ?_⟩
  · rw [hf, call_seqOffset]
    exact max_le h.size_le (by omega)
  · rw [call_seqOffset] at h2
    rw [hf] at h1
    have hout : ¬ w.Writes c x := by
      unfold Call.Writes
      rw [hw.addr]
      omega
    rw [call_mem_off hout]
    exact h.clean x (le_trans (le_max_left _ _) h1) h2

theorem tidy_run : ∀ (ws : List Call) (c : Client), c.Wf → c.Tidy → AllIn c ws → (c.run ws).Tidy
  | [], _, _, h, _ => h
  | w :: ws, c, hw, h, ha => tidy_run ws (c.call w) (hw.call w) (h.call hw ha.1) ha.2

end Client

theorem allIn_append : ∀ (ws ws' : List Call) (c : Client),
    AllIn c (ws ++ ws') ↔ AllIn c ws ∧ AllIn (c.run ws) ws'
  | [], _, _ => by simp [AllIn]
  | w :: ws, ws', c => by
    simp only [List.cons_append, AllIn, Client.run_cons, allIn_append ws ws', and_assoc]

/-- Positioned writes are in bounds by their own range. -/
theorem allIn_writePos : ∀ (ws : List Call) (c : Client),
    (∀ w ∈ ws, ∃ buf pos, w = .writePos buf pos ∧ pos + buf.length ≤ c.seqOffset) → AllIn c ws := by
  intro ws
  induction ws with
  | nil => exact fun _ _ => trivial
  | cons w ws ih =>
    intro c h
    obtain ⟨buf, pos, rfl, hle⟩ := h w List.mem_cons_self
    refine ⟨hle, ih _ fun v hv => ?_⟩
    rw [Client.call_seqOffset]
    exact h v (List.mem_cons_of_mem _ hv)

end ComputeSideLog
