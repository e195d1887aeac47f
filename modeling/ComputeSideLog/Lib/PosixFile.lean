/-
# A file under the system calls

A regular file as `write(2)`, `pwrite(2)`, `read(2)`, `pread(2)` and
`lseek(2)` see it through one descriptor: a byte list and a file offset. A
write past the end leaves a hole that reads as zeros, a write of no bytes
does nothing, a read stops at the end of the file, and a seek to a negative
position fails and moves nothing. `fread(3)` reads it item by item, and
`fgets(3)` line by line.

A file is compared with a memory through `PosixFile.image`, its bytes
followed by zeros: a write to the file is a write to the image
(`image_pwrite`), and what a read returns is a range of the image
(`getElem?_pread`).

Key definitions: `PosixFile.pwrite`, `PosixFile.write`, `PosixFile.pread`,
`PosixFile.read`, `PosixFile.lseek`, `PosixFile.fread`, `PosixFile.fgets`,
`PosixFile.image`.
-/
import ComputeSideLog.Lib.Bytes
import Mathlib.Data.List.GetD

namespace ComputeSideLog

/-- The bytes of a file and the offset of its descriptor. -/
structure PosixFile where
  bytes : List UInt8
  offset : ℕ
  deriving DecidableEq, Repr

/-- What a seek counts from: the start, the offset, or the end of the file. -/
inductive SeekFrom where
  | set
  | cur
  | fin
  deriving DecidableEq, Repr

namespace PosixFile

/-- A new file. -/
def empty : PosixFile := ⟨[], 0⟩

/-- The bytes with `data` stored from `pos` on and zeros in the hole before it. -/
def splice (bytes : List UInt8) (pos : ℕ) (data : List UInt8) : List UInt8 :=
  bytes.take pos ++ List.replicate (pos - bytes.length) 0 ++ data ++ bytes.drop (pos + data.length)

/-- `pwrite(2)`: the file after it and the number of bytes written. -/
def pwrite (f : PosixFile) (data : List UInt8) (pos : ℕ) : PosixFile × ℕ :=
  (if data = [] then f else { f with bytes := splice f.bytes pos data }, data.length)

/-- `write(2)`. -/
def write (f : PosixFile) (data : List UInt8) : PosixFile × ℕ :=
  ({ (f.pwrite data f.offset).1 with offset := f.offset + data.length }, data.length)

/-- `pread(2)`: the bytes read. -/
def pread (f : PosixFile) (n pos : ℕ) : List UInt8 := (f.bytes.drop pos).take n

/-- `read(2)`: the file after it and the bytes read. -/
def read (f : PosixFile) (n : ℕ) : PosixFile × List UInt8 :=
  ({ f with offset := f.offset + (f.pread n f.offset).length }, f.pread n f.offset)

/-- Where a seek counts from. -/
def base (f : PosixFile) : SeekFrom → ℕ
  | .set => 0
  | .cur => f.offset
  | .fin => f.bytes.length

/-- `lseek(2)`: the file after it and the new offset, `none` for a negative one. -/
def lseek (f : PosixFile) (offset : ℤ) (whence : SeekFrom) : PosixFile × Option ℕ :=
  if 0 ≤ offset + f.base whence then
    ({ f with offset := (offset + f.base whence).toNat }, some (offset + f.base whence).toNat)
  else (f, none)

/-- `fread(3)`: the file after it, the number of complete items and the bytes
read. -/
def fread (f : PosixFile) (size nmemb : ℕ) : PosixFile × ℕ × List UInt8 :=
  ((f.read (size * nmemb)).1, (f.read (size * nmemb)).2.length / size, (f.read (size * nmemb)).2)

/-- The next line of at most `n` bytes: up to the first newline, which belongs to
it, or all there is. -/
def takeLine : ℕ → List UInt8 → List UInt8
  | 0, _ => []
  | _ + 1, [] => []
  | n + 1, b :: bs => if b = 10 then [b] else b :: takeLine n bs

/-- `fgets(3)` into an array of `size` bytes, the last one for the NUL: the file
after it and the line, `none` at the end of the file. -/
def fgets (f : PosixFile) (size : ℕ) : PosixFile × Option (List UInt8) :=
  if f.bytes.length ≤ f.offset then (f, none)
  else
    let line := takeLine (size - 1) (f.bytes.drop f.offset)
    ({ f with offset := f.offset + line.length }, some line)

/-- The bytes of the file, with zeros after them. -/
def image (f : PosixFile) : Mem := fun x => f.bytes.getD x 0

theorem splice_length (bytes : List UInt8) (pos : ℕ) (data : List UInt8) :
    (splice bytes pos data).length = max bytes.length (pos + data.length) := by
  unfold splice
  simp only [List.length_append, List.length_take, List.length_replicate, List.length_drop]
  omega

/-- Before `pos` a splice has the old bytes, and zeros past their end. -/
theorem splice_before {bytes data : List UInt8} {pos x : ℕ} (h : x < pos) :
    (splice bytes pos data).getD x 0 = bytes.getD x 0 := by
  unfold splice
  rw [List.append_assoc, List.getD_append _ _ _ _ (by simp; omega)]
  by_cases hx : x < bytes.length
  · rw [List.getD_append _ _ _ _ (by simp; omega)]
    simp [List.getD_eq_getElem?_getD, List.getElem?_take_of_lt h]
  · rw [List.getD_append_right _ _ _ _ (by simp; omega), List.getD_eq_default bytes 0 (by omega)]
    simp only [List.getD_eq_getElem?_getD, List.getElem?_replicate]
    split <;> rfl

/-- From `pos` on it has the data, and behind it the old bytes. -/
theorem splice_after {bytes data : List UInt8} {pos i : ℕ} : (splice bytes pos data).getD (pos + i) 0 =
    if i < data.length then data.getD i 0 else bytes.getD (pos + i) 0 := by
  have hhead : (bytes.take pos ++ List.replicate (pos - bytes.length) 0).length = pos := by
    simp only [List.length_append, List.length_take, List.length_replicate]
    omega
  unfold splice
  rw [List.append_assoc, List.getD_append_right _ _ _ _ (by omega), hhead, Nat.add_sub_cancel_left]
  split
  · rename_i hi
    rw [List.getD_append _ _ _ _ hi]
  · rename_i hi
    rw [List.getD_append_right _ _ _ _ (by omega)]
    simp only [List.getD_eq_getElem?_getD, List.getElem?_drop]
    congr 2
    omega

/-- A write to the file is a write to its image. -/
theorem image_pwrite (f : PosixFile) (data : List UInt8) (pos : ℕ) :
    (f.pwrite data pos).1.image = f.image.write pos data := by
  funext x
  by_cases hd : data = []
  · subst hd
    rw [Mem.write_out (by simp)]
    rfl
  · have hb : (f.pwrite data pos).1.image x = (splice f.bytes pos data).getD x 0 := by
      unfold pwrite image
      rw [if_neg hd]
    rw [hb]
    by_cases hx : x < pos
    · rw [splice_before hx, Mem.write_out (by omega)]
      rfl
    · obtain ⟨i, rfl⟩ := Nat.exists_eq_add_of_le (Nat.le_of_not_lt hx)
      rw [splice_after]
      split
      · rename_i hi
        rw [Mem.write_in ⟨by omega, by omega⟩, Nat.add_sub_cancel_left]
      · rw [Mem.write_out (by omega)]
        rfl

theorem pwrite_length (f : PosixFile) {data : List UInt8} (hd : data ≠ []) (pos : ℕ) :
    (f.pwrite data pos).1.bytes.length = max f.bytes.length (pos + data.length) := by
  unfold pwrite
  rw [if_neg hd]
  exact splice_length _ _ _

@[simp] theorem pwrite_offset (f : PosixFile) (data : List UInt8) (pos : ℕ) :
    (f.pwrite data pos).1.offset = f.offset := by
  unfold pwrite
  split <;> rfl

theorem pread_length (f : PosixFile) (n pos : ℕ) :
    (f.pread n pos).length = min n (f.bytes.length - pos) := by
  unfold pread
  rw [List.length_take, List.length_drop]

/-- What a read returns is the image from `pos` on. -/
theorem getElem?_pread {f : PosixFile} {n pos i : ℕ} (h : i < min n (f.bytes.length - pos)) :
    (f.pread n pos)[i]? = some (f.image (pos + i)) := by
  unfold pread image
  rw [List.getElem?_take_of_lt (by omega), List.getElem?_drop, List.getD_eq_getElem?_getD,
    List.getElem?_eq_getElem (by omega), Option.getD_some]

/-- A line ends after the first newline, if there is one in time, and otherwise at
the bound or the end. -/
theorem takeLine_cases : ∀ (n : ℕ) (bs : List UInt8),
    (∃ j, j < min n bs.length ∧ bs[j]? = some 10 ∧ (∀ i, i < j → bs[i]? ≠ some 10) ∧
        takeLine n bs = bs.take (j + 1)) ∨
      ((∀ i, i < min n bs.length → bs[i]? ≠ some 10) ∧ takeLine n bs = bs.take (min n bs.length))
  | 0, bs => .inr ⟨fun i hi => by omega, by simp [takeLine]⟩
  | n + 1, [] => .inr ⟨fun i hi => by simp at hi, by simp [takeLine]⟩
  | n + 1, b :: bs => by
    by_cases hb : b = 10
    · exact .inl ⟨0, by simp, by simp [hb], fun i hi => by omega, by simp [takeLine, hb]⟩
    · have hmin : min (n + 1) (b :: bs).length = min n bs.length + 1 := by simp
      rcases takeLine_cases n bs with ⟨j, hj, hnl, hbefore, hline⟩ | ⟨hnone, hline⟩
      · refine .inl ⟨j + 1, by omega, by simpa using hnl, fun i hi => ?_, by simp [takeLine, hb, hline]⟩
        cases i with
        | zero => simpa using hb
        | succ i => simpa using hbefore i (by omega)
      · refine .inr ⟨fun i hi => ?_, by rw [hmin]; simp [takeLine, hb, hline]⟩
        cases i with
        | zero => simpa using hb
        | succ i => simpa using hnone i (by omega)

theorem lseek_of_nonneg {f : PosixFile} {offset : ℤ} {whence : SeekFrom} {n : ℕ}
    (h : offset + f.base whence = n) : f.lseek offset whence = ({ f with offset := n }, some n) := by
  unfold lseek
  rw [if_pos (by omega), h, Int.toNat_natCast]

end PosixFile
end ComputeSideLog
