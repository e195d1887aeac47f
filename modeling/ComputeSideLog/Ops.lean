/-
# The client's other log operations

`Append` and `WritePos` are the operations that reach the peers; the others
work on the local buffer alone (`src/rdma/client.cc`): `Read`, `ReadPos`,
`Seek`, `Truncate`, `GetLine`, `Eof`, `GetFileSize`, and `Reset`, which
clears the client for its next file. `Client.op` is one operation with what
it returns, `Client.opPosts` what it posts to each peer, and `Client.ops` a
sequence of them.

Sizes are `size_t`, so differences wrap, and an `off_t` is converted to one
(`toSize`); `toInt` is the conversion to `int`. A position outside the buffer is a memory error of the program;
here it reads or writes past the region.

Key definitions: `Client.read`, `Client.readPos`, `Client.seek`,
`Client.truncate`, `Client.getLine`, `Client.reset`, `Op`, `Client.op`,
`Client.ops`.
Key theorems: `Client.op_of_call`, `Client.op_frame`,
`Client.truncate_frame`, `Client.ops_geometry`.
-/
import ComputeSideLog.Posts

namespace ComputeSideLog

/-- An `off_t` as the `size_t` it is converted to. -/
def toSize (offset : ℤ) : ℕ := (offset % 2 ^ 64).toNat

theorem toSize_natCast {n : ℕ} (h : n < 2 ^ 64) : toSize n = n := by
  unfold toSize
  omega

theorem toSize_of_range {offset : ℤ} (h0 : 0 ≤ offset) (h : offset < 2 ^ 64) : (toSize offset : ℤ) = offset := by
  unfold toSize
  omega

theorem toSize_lt (offset : ℤ) : toSize offset < 2 ^ 64 := by
  unfold toSize
  omega

/-- The conversion to `int`. -/
def toInt (n : ℤ) : ℤ := n.bmod (2 ^ 32)

theorem toInt_of_range {n : ℤ} (h1 : -2 ^ 31 ≤ n) (h2 : n < 2 ^ 31) : toInt n = n := by
  unfold toInt
  rw [Int.bmod_def]
  omega

/-- The bytes of `[off, off + len)`. -/
def Mem.slice (m : Mem) (off len : ℕ) : List UInt8 := (List.range len).map fun i => m (off + i)

theorem Mem.slice_length (m : Mem) (off len : ℕ) : (m.slice off len).length = len := by simp [Mem.slice]

theorem Mem.getElem?_slice {m : Mem} {off len i : ℕ} (h : i < len) : (m.slice off len)[i]? = some (m (off + i)) := by
  simp [Mem.slice, h]

theorem Mem.take_slice (m : Mem) (off len : ℕ) {k : ℕ} (h : k ≤ len) :
    (m.slice off len).take k = m.slice off k := by
  simp [Mem.slice, ← List.map_take, List.take_range, Nat.min_eq_left h]

theorem Mem.drop_slice (m : Mem) (off len k : ℕ) : (m.slice off len).drop k = m.slice (off + k) (len - k) := by
  refine List.ext_getElem? fun i => ?_
  rw [List.getElem?_drop]
  by_cases hi : i < len - k
  · rw [Mem.getElem?_slice hi, Mem.getElem?_slice (by omega), Nat.add_assoc]
  · rw [List.getElem?_eq_none (by rw [Mem.slice_length]; omega),
      List.getElem?_eq_none (by rw [Mem.slice_length]; omega)]

/-- The bytes of adjacent ranges. -/
theorem Mem.slice_append (m : Mem) (off len len' : ℕ) :
    m.slice off len ++ m.slice (off + len) len' = m.slice off (len + len') := by
  unfold Mem.slice
  rw [List.range_add, List.map_append, List.map_map]
  congr 2
  funext i
  exact congrArg m (Nat.add_assoc _ _ _)

/-- `m` with the range `[off, off + len)` zeroed. -/
def Mem.clear (m : Mem) (off len : ℕ) : Mem := m.copy Mem.zero off len

/-- The third argument of `Seek`. -/
inductive Whence where
  | seekSet
  | seekCur
  | seekEnd
  | other
  deriving DecidableEq, Repr

/-- `'\n'`. -/
def newline : UInt8 := 10

namespace Client

/-- `Read`: the client after it and the bytes copied out. -/
def read (c : Client) (size : ℕ) : Client × List UInt8 :=
  let size := min size (subSize c.fileSize c.bufOffset)
  ({ c with bufOffset := (c.bufOffset + size) % 2 ^ 64 }, c.buffer.mem.slice c.bufOffset size)

/-- `ReadPos`. -/
def readPos (c : Client) (size pos : ℕ) : List UInt8 :=
  c.buffer.mem.slice pos (min size (subSize c.fileSize pos))

/-- `Seek`: the client after it, whose `buf_offset` is the return value. -/
def seek (c : Client) (offset : ℤ) : Whence → Client
  | .seekSet => { c with bufOffset := min (toSize offset) (subSize c.buffer.size 1) }
  | .seekCur => { c with bufOffset := min (toSize (offset + c.bufOffset)) (subSize c.buffer.size 1) }
  | .seekEnd => { c with bufOffset := c.fileSize }
  | .other => c

/-- `Truncate`. -/
def truncate (c : Client) (length : ℤ) : Client :=
  let length := toSize length
  let c := { c with fileSize := length }
  if length < c.bufOffset then
    { c with
      buffer := { c.buffer with mem := c.buffer.mem.clear length (c.bufOffset - length) }
      bufOffset := length }
  else c

/-- `Eof`. -/
def eof (c : Client) : Bool := decide (c.fileSize ≤ c.bufOffset)

/-- The loop of `GetLine` from length `len` on, with at most `n` rounds left. -/
def lineLoop (c : Client) (len : ℕ) : ℕ → ℕ
  | 0 => len
  | n + 1 =>
    if c.buffer.mem (c.bufOffset + (len + 1)) = newline then len + 2
    else if c.fileSize ≤ (c.bufOffset + (len + 1)) % 2 ^ 64 then len + 1
    else lineLoop c (len + 1) n

/-- `GetLine`: the client after it and the line without its closing NUL, `none`
at the end of the file. -/
def getLine (c : Client) (size : ℤ) : Client × Option (List UInt8) :=
  if c.eof then (c, none)
  else
    let len := c.lineLoop 0 (size - 1).toNat
    ({ c with bufOffset := (c.bufOffset + len) % 2 ^ 64 }, some (c.buffer.mem.slice c.bufOffset len))

/-- `Reset`, without the message to the peers: `file_size` and `seq` stay. -/
def reset (c : Client) : Client :=
  { c with
    buffer := { c.buffer with mem := c.buffer.mem.clear 0 c.bufSize }
    bufOffset := 0 }

/-- `ReplaceBuffer`, where `mr` is what `GetMRofSize` would return; `seq_addr`
stays where it points. -/
def replaceBuffer (c : Client) (size : ℕ) (mr : Buffer) : Client :=
  if size ≤ c.buffer.size then c else { c with buffer := mr }

/-- `SetFileInfo`, without the messages to the peers; `seq_offset` stays. -/
def setFileInfo (c : Client) (size : ℕ) : Client := { c with bufSize := size }

end Client

/-- An operation of the application on its log. -/
inductive Op where
  | append (buf : List UInt8)
  | writePos (buf : List UInt8) (pos : ℕ)
  | read (size : ℕ)
  | readPos (size pos : ℕ)
  | seek (offset : ℤ) (whence : Whence)
  | truncate (length : ℤ)
  | getLine (size : ℤ)
  | eof
  | getFileSize
  deriving DecidableEq, Repr

/-- What an operation returns: a number, the bytes read, or a line. -/
inductive Result where
  | value (n : ℕ)
  | bytes (bs : List UInt8)
  | line (l : Option (List UInt8))
  deriving DecidableEq, Repr

/-- The write call that the operation is, if it is one. -/
def Op.call : Op → Option Call
  | .append buf => some (.append buf)
  | .writePos buf pos => some (.writePos buf pos)
  | _ => none

namespace Client

/-- One operation: the client after it and the result. -/
def op (c : Client) : Op → Client × Result
  | .append buf => (c.append buf, .value (c.clamp buf.length c.bufOffset))
  | .writePos buf pos => (c.writePos buf pos, .value (c.clamp buf.length pos))
  | .read size => ((c.read size).1, .bytes (c.read size).2)
  | .readPos size pos => (c, .bytes (c.readPos size pos))
  | .seek offset whence => (c.seek offset whence, .value (c.seek offset whence).bufOffset)
  | .truncate length => (c.truncate length, .value 0)
  | .getLine size => ((c.getLine size).1, .line (c.getLine size).2)
  | .eof => (c, .value c.eof.toNat)
  | .getFileSize => (c, .value c.fileSize)

/-- What the operation posts to each peer: only the write calls post. -/
def opPosts (c : Client) (o : Op) : List RdmaWrite :=
  match o.call with
  | some w => (c.call w).writeTwoPlace (w.off c) (w.size c)
  | none => []

/-- The operations one after the other: the client after them and the results. -/
def ops : Client → List Op → Client × List Result
  | c, [] => (c, [])
  | c, o :: os => ((ops (c.op o).1 os).1, (c.op o).2 :: (ops (c.op o).1 os).2)

/-- What the operations post to each peer. -/
def opsPosts : Client → List Op → List RdmaWrite
  | _, [] => []
  | c, o :: os => c.opPosts o ++ opsPosts (c.op o).1 os

/-! ### What stays -/

variable {c : Client}

/-- A write operation is the write call of `Client.lean`. -/
theorem op_of_call {o : Op} {w : Call} (h : o.call = some w) :
    c.op o = (c.call w, .value (w.size c)) := by
  cases o with
  | append buf =>
    cases h
    rfl
  | writePos buf pos =>
    cases h
    rfl
  | _ => exact absurd h (by simp [Op.call])

theorem opPosts_of_call {o : Op} {w : Call} (h : o.call = some w) :
    c.opPosts o = (c.call w).writeTwoPlace (w.off c) (w.size c) := by
  unfold opPosts
  rw [h]

theorem opPosts_of_none {o : Op} (h : o.call = none) : c.opPosts o = [] := by
  unfold opPosts
  rw [h]

/-- What is neither a write call nor `Truncate` moves `buf_offset` at most. -/
theorem op_frame {o : Op} (h : o.call = none) (ht : ∀ l, o ≠ .truncate l) :
    ∃ off, (c.op o).1 = { c with bufOffset := off } := by
  cases o with
  | append buf => simp [Op.call] at h
  | writePos buf pos => simp [Op.call] at h
  | truncate length => exact absurd rfl (ht length)
  | seek offset whence =>
    cases whence with
    | other => exact ⟨c.bufOffset, rfl⟩
    | _ => exact ⟨_, rfl⟩
  | getLine size =>
    show ∃ off, (c.getLine size).1 = _
    unfold getLine
    split
    · exact ⟨c.bufOffset, rfl⟩
    · exact ⟨_, rfl⟩
  | read size => exact ⟨_, rfl⟩
  | _ => exact ⟨c.bufOffset, rfl⟩

/-- `Truncate` changes the size, the offset and the buffer's bytes. -/
theorem truncate_frame (length : ℤ) : ∃ off m, c.truncate length =
    { c with fileSize := toSize length, bufOffset := off, buffer := { c.buffer with mem := m } } := by
  unfold truncate
  dsimp only
  split
  · exact ⟨_, _, rfl⟩
  · exact ⟨c.bufOffset, c.buffer.mem, rfl⟩

/-- The geometry of a client, which no operation changes. -/
def geometry (c : Client) : ℕ × ℕ × ℕ × ℕ := (c.buffer.size, c.bufSize, c.seqOffset, c.seqAddr)

theorem op_geometry (c : Client) (o : Op) : (c.op o).1.geometry = c.geometry := by
  cases hw : o.call with
  | some w =>
    rw [op_of_call hw]
    cases w <;> rfl
  | none =>
    by_cases ht : ∃ l, o = .truncate l
    · obtain ⟨l, rfl⟩ := ht
      obtain ⟨off, m, he⟩ := truncate_frame (c := c) l
      show (c.truncate l).geometry = _
      rw [he]
      rfl
    · obtain ⟨off, he⟩ := op_frame (c := c) hw fun l hl => ht ⟨l, hl⟩
      rw [he]
      rfl

theorem ops_geometry : ∀ (os : List Op) (c : Client), (c.ops os).1.geometry = c.geometry
  | [], _ => rfl
  | o :: os, c => (ops_geometry os (c.op o).1).trans (op_geometry c o)

theorem ops_append : ∀ (os os' : List Op) (c : Client), (c.ops (os ++ os')).1 = ((c.ops os).1.ops os').1
  | [], _, _ => rfl
  | o :: os, os', c => ops_append os os' (c.op o).1

end Client
end ComputeSideLog
