/-
# The log as a POSIX file

The interface of `CSLClient` is documented after the system calls
(`src/rdma/client.h`): `Append` as `write(2)`, `WritePos` as `pwrite(2)`,
`Read` and `ReadPos` as `read(2)` and `pread(2)`, `Seek` as `lseek(2)`. The
reference is `PosixFile`, a byte list with an offset. A client on a region
of its own size shows the file's bytes below the trailer (`Shows`), and each
call that keeps away from the trailer, and reads from inside the file,
returns what the file returns.

Key definitions: `FileCall`, `FileCall.op`, `PosixFile.answers`,
`FileCall.Allowed`, `Shows`.
Key theorems: `Shows.op`, `log_refines_file`.
-/
import ComputeSideLog.Lib.PosixFile
import ComputeSideLog.Ops
import ComputeSideLog.Recover

namespace ComputeSideLog

/-- A call on the file, with the two queries of the log. -/
inductive FileCall where
  | write (data : List UInt8)
  | pwrite (data : List UInt8) (pos : ℕ)
  | read (n : ℕ)
  | pread (n pos : ℕ)
  | lseek (offset : ℤ) (whence : SeekFrom)
  | eof
  | size
  deriving DecidableEq, Repr

/-- The third argument of `Seek`. -/
def SeekFrom.whence : SeekFrom → Whence
  | .set => .seekSet
  | .cur => .seekCur
  | .fin => .seekEnd

namespace FileCall

/-- The operation of the log that stands for the call. -/
def op : FileCall → Op
  | .write data => .append data
  | .pwrite data pos => .writePos data pos
  | .read n => .read n
  | .pread n pos => .readPos n pos
  | .lseek offset whence => .seek offset whence.whence
  | .eof => .eof
  | .size => .getFileSize

/-- Writes carry data and end below the trailer, reads start inside the file,
and seeks go to its end or to a position up to the trailer. -/
def Allowed (c : Client) : FileCall → Prop
  | .write data => data ≠ [] ∧ c.bufOffset + data.length ≤ c.seqOffset
  | .pwrite data pos => data ≠ [] ∧ pos + data.length ≤ c.seqOffset
  | .read _ => c.bufOffset ≤ c.fileSize
  | .pread _ pos => pos ≤ c.fileSize
  | .lseek offset .set => 0 ≤ offset ∧ offset ≤ c.seqOffset
  | .lseek offset .cur => 0 ≤ offset + c.bufOffset ∧ offset + c.bufOffset ≤ c.seqOffset
  | .lseek offset .fin => offset = 0
  | .eof => True
  | .size => True

instance (c : Client) : ∀ x : FileCall, Decidable (x.Allowed c)
  | .write _ => instDecidableAnd
  | .pwrite _ _ => instDecidableAnd
  | .read _ => Nat.decLe _ _
  | .pread _ _ => Nat.decLe _ _
  | .lseek _ .set => instDecidableAnd
  | .lseek _ .cur => instDecidableAnd
  | .lseek offset .fin => inferInstanceAs (Decidable (offset = 0))
  | .eof => instDecidableTrue
  | .size => instDecidableTrue

end FileCall

/-- Every call of the sequence is allowed when it is made. -/
def AllAllowed : Client → List FileCall → Prop
  | _, [] => True
  | c, x :: xs => x.Allowed c ∧ AllAllowed (c.op x.op).1 xs

instance : ∀ (c : Client) (xs : List FileCall), Decidable (AllAllowed c xs)
  | _, [] => instDecidableTrue
  | c, x :: xs =>
    haveI := instDecidableAllAllowed (c.op x.op).1 xs
    inferInstanceAs (Decidable (x.Allowed c ∧ AllAllowed (c.op x.op).1 xs))

namespace PosixFile

/-- The reference's side of a call, a failed seek returning -1. -/
def answer (f : PosixFile) : FileCall → PosixFile × Result
  | .write data => ((f.write data).1, .value (f.write data).2)
  | .pwrite data pos => ((f.pwrite data pos).1, .value (f.pwrite data pos).2)
  | .read n => ((f.read n).1, .bytes (f.read n).2)
  | .pread n pos => (f, .bytes (f.pread n pos))
  | .lseek offset whence =>
    ((f.lseek offset whence).1, .value ((f.lseek offset whence).2.getD (toSize (-1))))
  | .eof => (f, .value (decide (f.bytes.length ≤ f.offset)).toNat)
  | .size => (f, .value f.bytes.length)

/-- The calls one after the other: the file after them and the results. -/
def answers : PosixFile → List FileCall → PosixFile × List Result
  | f, [] => (f, [])
  | f, x :: xs => ((answers (f.answer x).1 xs).1, (f.answer x).2 :: (answers (f.answer x).1 xs).2)

end PosixFile

/-- The client shows the file: the same size and offset, neither past the
trailer, and the file's bytes with zeros up to the trailer. -/
structure Shows (c : Client) (f : PosixFile) : Prop where
  wf : c.Wf
  offset : c.bufOffset = f.offset
  offset_le : c.bufOffset ≤ c.seqOffset
  size : c.fileSize = f.bytes.length
  size_le : c.fileSize ≤ c.seqOffset
  bytes : ∀ x, x < c.seqOffset → c.buffer.mem x = f.image x

theorem shows_fresh (L : Layout) : Shows (Client.fresh L) PosixFile.empty where
  wf := Client.fresh_wf L
  offset := rfl
  offset_le := Nat.zero_le _
  size := rfl
  size_le := Nat.zero_le _
  bytes := fun _ _ => rfl

namespace Shows

variable {c : Client} {f : PosixFile}

theorem seqOffset_lt (h : Shows c f) : c.seqOffset < 2 ^ 64 := by
  have h1 := h.wf.room
  have h2 := c.buffer.size_lt
  omega

/-- The client with its offset moved as the file's is. -/
theorem move (h : Shows c f) {n : ℕ} (hn : n ≤ c.seqOffset) :
    Shows { c with bufOffset := n } { f with offset := n } :=
  ⟨⟨h.wf.addr, h.wf.room⟩, rfl, hn, h.size, h.size_le, h.bytes⟩

/-! ### Writes -/

/-- A call below the trailer stores in the data region what `pwrite` stores. -/
theorem call_bytes (h : Shows c f) {w : Call} (hw : w.InBounds c) {x : ℕ} (hx : x < c.seqOffset) :
    (c.call w).buffer.mem x = (f.pwrite w.buf (w.off c)).1.image x := by
  have hsize := Client.size_of_inBounds h.wf hw
  have hout : ¬ (c.seqOffset ≤ x ∧ x < c.seqOffset + seqWidth) := by omega
  rw [Client.call_mem, hsize, List.take_length, h.wf.addr, Mem.putLE_out hout, PosixFile.image_pwrite]
  by_cases hin : w.off c ≤ x ∧ x < w.off c + w.buf.length
  · rw [Mem.write_in hin, Mem.write_in hin]
  · rw [Mem.write_out hin, Mem.write_out hin]
    exact h.bytes x hx

theorem call_size (h : Shows c f) {w : Call} (hne : w.buf ≠ []) (hw : w.InBounds c) :
    (c.call w).fileSize = (f.pwrite w.buf (w.off c)).1.bytes.length := by
  have hend := Client.end_lt h.wf hw
  rw [Client.call_fileSize, Nat.mod_eq_of_lt hend, Client.size_of_inBounds h.wf hw,
    PosixFile.pwrite_length f hne, h.size]

/-- A write call keeps the client on the file that `pwrite` makes, whatever the
offsets are moved to. -/
theorem call (h : Shows c f) {w : Call} (hne : w.buf ≠ []) (hw : w.InBounds c) {n : ℕ}
    (hc : (c.call w).bufOffset = n) (hn : n ≤ c.seqOffset) :
    Shows (c.call w) { (f.pwrite w.buf (w.off c)).1 with offset := n } where
  wf := h.wf.call w
  offset := hc
  offset_le := by rwa [hc, Client.call_seqOffset]
  size := h.call_size hne hw
  size_le := by
    have hend := Client.end_lt h.wf hw
    have hsize := Client.size_of_inBounds h.wf hw
    have hle := h.size_le
    rw [Client.call_seqOffset, Client.call_fileSize, Nat.mod_eq_of_lt hend, hsize]
    exact max_le hle hw
  bytes := fun x hx => h.call_bytes hw (by rwa [Client.call_seqOffset] at hx)

theorem write (h : Shows c f) {data : List UInt8} (ha : (FileCall.write data).Allowed c) :
    Shows (c.append data) (f.write data).1 ∧ c.clamp data.length c.bufOffset = data.length := by
  have hw : (Call.append data).InBounds c := ha.2
  have hsize : c.clamp data.length c.bufOffset = data.length := Client.size_of_inBounds h.wf hw
  have hlt := h.seqOffset_lt
  have hmove : (c.append data).bufOffset = c.bufOffset + data.length := by
    show (c.bufOffset + c.clamp data.length c.bufOffset) % 2 ^ 64 = _
    rw [hsize]
    exact Nat.mod_eq_of_lt (lt_of_le_of_lt ha.2 hlt)
  have hcall := h.call (w := .append data) ha.1 hw hmove ha.2
  refine ⟨?_, hsize⟩
  simpa [Client.call, PosixFile.write, Call.off, Call.buf, h.offset] using hcall

theorem pwrite (h : Shows c f) {data : List UInt8} {pos : ℕ} (ha : (FileCall.pwrite data pos).Allowed c) :
    Shows (c.writePos data pos) (f.pwrite data pos).1 ∧ c.clamp data.length pos = data.length := by
  have hw : (Call.writePos data pos).InBounds c := ha.2
  have hcall := h.call (w := .writePos data pos) ha.1 hw rfl h.offset_le
  refine ⟨?_, Client.size_of_inBounds h.wf hw⟩
  have hsame : { (f.pwrite data pos).1 with offset := c.bufOffset } = (f.pwrite data pos).1 := by
    rw [h.offset, ← PosixFile.pwrite_offset f data pos]
  exact hsame ▸ hcall

/-! ### Reads and seeks -/

/-- From a position inside the file the clamp is the file's own end. -/
theorem clamp_read (h : Shows c f) {n pos : ℕ} (hpos : pos ≤ c.fileSize) :
    min n (subSize c.fileSize pos) = min n (f.bytes.length - pos) := by
  have hlt := h.seqOffset_lt
  have hle := h.size_le
  rw [subSize_of_le hpos (by omega), h.size]

/-- The bytes copied out are those `pread` returns. -/
theorem slice_eq (h : Shows c f) {n pos : ℕ} (hpos : pos ≤ c.fileSize) :
    c.buffer.mem.slice pos (min n (subSize c.fileSize pos)) = f.pread n pos := by
  have hsize := h.size
  have hle := h.size_le
  rw [h.clamp_read hpos]
  refine List.ext_getElem? fun i => ?_
  by_cases hi : i < min n (f.bytes.length - pos)
  · rw [PosixFile.getElem?_pread hi, ← h.bytes (pos + i) (by omega)]
    simp [Mem.slice, List.getElem?_range hi]
  · rw [List.getElem?_eq_none (by simp [Mem.slice]; omega),
      List.getElem?_eq_none (by rw [PosixFile.pread_length]; omega)]

theorem read (h : Shows c f) {n : ℕ} (ha : (FileCall.read n).Allowed c) :
    Shows (c.read n).1 (f.read n).1 ∧ (c.read n).2 = (f.read n).2 := by
  have hpos : c.bufOffset ≤ c.fileSize := ha
  have hslice := h.slice_eq (n := n) hpos
  rw [h.offset] at hslice
  refine ⟨?_, by simpa [Client.read, PosixFile.read, h.offset] using hslice⟩
  have hlt := h.seqOffset_lt
  have hle := h.size_le
  have hsize := h.size
  have hoff := h.offset
  have hlen := PosixFile.pread_length f n f.offset
  have hend : (c.bufOffset + min n (subSize c.fileSize c.bufOffset)) % 2 ^ 64 =
      f.offset + (f.pread n f.offset).length := by
    rw [h.clamp_read hpos, hlen, hoff, Nat.mod_eq_of_lt (by omega)]
  show Shows { c with bufOffset := (c.bufOffset + min n (subSize c.fileSize c.bufOffset)) % 2 ^ 64 } _
  rw [hend]
  exact h.move (by omega)

/-- A seek to a position up to the trailer, which the buffer's last byte does
not cut. -/
theorem seek (h : Shows c f) {offset : ℤ} {whence : SeekFrom} (ha : (FileCall.lseek offset whence).Allowed c) :
    ∃ n, n ≤ c.seqOffset ∧ offset + f.base whence = n ∧
      c.seek offset whence.whence = { c with bufOffset := n } := by
  have hroom := h.wf.room
  have hlt := c.buffer.size_lt
  have hcut : ∀ t : ℤ, 0 ≤ t → t ≤ c.seqOffset → min (toSize t) (subSize c.buffer.size 1) = t.toNat := by
    intro t h0 h1
    have ht := toSize_of_range h0 (by omega)
    unfold seqWidth at hroom
    rw [subSize_of_le (by omega) hlt]
    omega
  cases whence with
  | set =>
    obtain ⟨h0, h1⟩ := ha
    refine ⟨offset.toNat, by omega, ?_, ?_⟩
    · show offset + (0 : ℕ) = _
      omega
    · show { c with bufOffset := min (toSize offset) (subSize c.buffer.size 1) } = _
      rw [hcut offset h0 h1]
  | cur =>
    obtain ⟨h0, h1⟩ := ha
    refine ⟨(offset + c.bufOffset).toNat, by omega, ?_, ?_⟩
    · show offset + (f.offset : ℤ) = _
      rw [← h.offset]
      omega
    · show { c with bufOffset := min (toSize (offset + c.bufOffset)) (subSize c.buffer.size 1) } = _
      rw [hcut _ h0 h1]
  | fin =>
    have h0 : offset = 0 := ha
    refine ⟨c.fileSize, h.size_le, ?_, rfl⟩
    show offset + (f.bytes.length : ℤ) = _
    rw [h0, h.size, Int.zero_add]

/-! ### Any call, and runs -/

/-- **One call.** The client and the file return the same and still agree. -/
theorem op (h : Shows c f) {x : FileCall} (ha : x.Allowed c) :
    Shows (c.op x.op).1 (f.answer x).1 ∧ (c.op x.op).2 = (f.answer x).2 := by
  cases x with
  | write data =>
    obtain ⟨hs, hn⟩ := h.write ha
    exact ⟨hs, congrArg Result.value hn⟩
  | pwrite data pos =>
    obtain ⟨hs, hn⟩ := h.pwrite ha
    exact ⟨hs, congrArg Result.value hn⟩
  | read n =>
    obtain ⟨hs, hb⟩ := h.read ha
    exact ⟨hs, congrArg Result.bytes hb⟩
  | pread n pos => exact ⟨h, congrArg Result.bytes (h.slice_eq ha)⟩
  | lseek offset whence =>
    obtain ⟨n, hn, hbase, hseek⟩ := h.seek ha
    show Shows (c.seek offset whence.whence) (f.lseek offset whence).1 ∧
      Result.value (c.seek offset whence.whence).bufOffset =
        Result.value ((f.lseek offset whence).2.getD (toSize (-1)))
    rw [hseek, PosixFile.lseek_of_nonneg hbase]
    exact ⟨h.move hn, rfl⟩
  | eof =>
    refine ⟨h, ?_⟩
    show Result.value (decide (c.fileSize ≤ c.bufOffset)).toNat = _
    rw [h.size, h.offset]
    rfl
  | size => exact ⟨h, congrArg Result.value h.size⟩

theorem ops : ∀ (xs : List FileCall) {c : Client} {f : PosixFile}, Shows c f → AllAllowed c xs →
    Shows (c.ops (xs.map FileCall.op)).1 (f.answers xs).1 ∧
      (c.ops (xs.map FileCall.op)).2 = (f.answers xs).2 := by
  intro xs
  induction xs with
  | nil => exact fun h _ => ⟨h, rfl⟩
  | cons x xs ih =>
    intro c f h ha
    obtain ⟨hshow, hres⟩ := h.op ha.1
    obtain ⟨hshow', hres'⟩ := ih hshow ha.2
    refine ⟨hshow', ?_⟩
    show (c.op x.op).2 :: _ = (f.answer x).2 :: _
    rw [hres]
    exact congrArg _ hres'

end Shows

/-- **The log refines a POSIX file.** On a fresh client whose region has the
size asked for, every sequence of allowed calls returns what the same calls
return on an empty file. -/
theorem log_refines_file (L : Layout) {xs : List FileCall} (h : AllAllowed (Client.fresh L) xs) :
    ((Client.fresh L).ops (xs.map FileCall.op)).2 = (PosixFile.empty.answers xs).2 :=
  ((shows_fresh L).ops xs h).2

/-- A hole that a seek leaves, filled by a positioned write, and read back. -/
theorem log_refines_file_tiny :
    let xs : List FileCall := [.write [1, 2], .lseek 3 .cur, .write [6], .pwrite [4] 3, .lseek 0 .set,
      .read 16, .eof, .lseek 8 .set, .lseek 0 .fin, .pread 2 4, .size]
    AllAllowed (Client.fresh tiny) xs ∧
      ((Client.fresh tiny).ops (xs.map FileCall.op)).2 = (PosixFile.empty.answers xs).2 ∧
      (PosixFile.empty.answers xs).2 = [.value 2, .value 5, .value 1, .value 1, .value 0,
        .bytes [1, 2, 0, 4, 0, 6], .value 1, .value 8, .value 6, .bytes [0, 6], .value 6] :=
  ⟨by decide, log_refines_file tiny (by decide), by decide⟩

end ComputeSideLog
