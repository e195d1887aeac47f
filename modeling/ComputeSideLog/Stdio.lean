/-
# Streams on a log

For a log the wrappers of `fread`, `fseek` and `ftello64` (`src/csl.cc`) call
`Read`, `Seek` and `GetOffset` of the client and hand on what these return.
`Read` returns bytes, where `fread(3)` counts items, and the number goes
through an `int`; `Seek` returns the new position, where `fseek(3)` returns
0, ignores the offset from the end, and stops one byte short of the
capacity. This file says for each call when it does what `<stdio.h>` says,
and so for which sequences all of them do (`stream_follows`).

Key definitions: `StreamCall`, `Client.stream`, `PosixFile.stdio`,
`Client.Follows`, `Client.Agrees`.
Key theorems: `Process.wrap_stream`, `Client.fread_follows`,
`Client.fseek_follows`, `stream_follows`.
-/
import ComputeSideLog.GetLine
import ComputeSideLog.Interpose
import ComputeSideLog.PosixLog

namespace ComputeSideLog

/-- A call on a stream. -/
inductive StreamCall where
  | fread (size nmemb : ℕ)
  | fseek (offset : ℤ) (whence : SeekFrom)
  | ftello
  deriving DecidableEq, Repr

/-- The call as it is intercepted. -/
def StreamCall.posix {N : Type*} (fd : ℤ) : StreamCall → Posix N
  | .fread size nmemb => .fread fd size nmemb
  | .fseek offset whence => .fseek fd offset whence.whence
  | .ftello => .ftello fd

/-- What `<stdio.h>` says of the call: the file after it and what it returns. -/
def PosixFile.stdio (f : PosixFile) : StreamCall → PosixFile × Ret
  | .fread size nmemb => ((f.fread size nmemb).1, ⟨(f.fread size nmemb).2.1, (f.fread size nmemb).2.2, 0⟩)
  | .fseek offset whence =>
    ((f.lseek offset whence).1, ⟨if (f.lseek offset whence).2.isSome then 0 else -1, [], 0⟩)
  | .ftello => (f, ⟨f.offset, [], 0⟩)

namespace Client

/-- What the wrappers do with the client of a stream. -/
def stream (c : Client) : StreamCall → Client × Ret
  | .fread size nmemb =>
    ((c.read (size * nmemb % 2 ^ 64)).1,
      ⟨toSize (toInt (c.read (size * nmemb % 2 ^ 64)).2.length), (c.read (size * nmemb % 2 ^ 64)).2, 0⟩)
  | .fseek offset whence =>
    (c.seek offset whence.whence, ⟨toInt (c.seek offset whence.whence).bufOffset, [], 0⟩)
  | .ftello => (c, ⟨c.bufOffset, [], 0⟩)

/-- The call does what `<stdio.h>` says. -/
def Follows (c : Client) (x : StreamCall) : Prop := ((c.stream x).1.file, (c.stream x).2) = c.file.stdio x

/-- The stream is inside its file, and the file inside a buffer whose positions
an `off_t` can say. -/
structure StreamOk (c : Client) : Prop where
  offset_le : c.bufOffset ≤ c.fileSize
  size_le : c.fileSize ≤ c.buffer.size
  pos : 0 < c.buffer.size
  lt : c.buffer.size < 2 ^ 63

/-- Items have a size, and a seek goes to a position in the file. -/
def InDomain (c : Client) : StreamCall → Prop
  | .fread size _ => 1 ≤ size
  | .fseek offset whence => 0 ≤ offset + c.file.base whence ∧ offset + c.file.base whence ≤ c.fileSize
  | .ftello => True

/-- The bytes that `fread` can return. -/
def available (c : Client) (size nmemb : ℕ) : ℕ := min (size * nmemb) (c.fileSize - c.bufOffset)

/-- When a call agrees with `<stdio.h>`. For `fread`: the product of its arguments
does not wrap below what is left of the file; and nothing is left, or items
are single bytes and fewer than `2^31` are available, or the number of items
is the number of bytes modulo `2^32` by chance. For `fseek`: the position is a
multiple of `2^32`, and is counted from the end only if it is the end, and
otherwise below the capacity. -/
def Agrees (c : Client) : StreamCall → Prop
  | .fread size nmemb =>
    (size * nmemb < 2 ^ 64 ∨ c.fileSize - c.bufOffset ≤ size * nmemb % 2 ^ 64) ∧
      (c.available size nmemb = 0 ∨ (size = 1 ∧ c.available size nmemb < 2 ^ 31) ∨
        (2 ^ 32 ≤ c.available size nmemb ∧ c.available size nmemb % 2 ^ 32 < 2 ^ 31 ∧
          c.available size nmemb / size = c.available size nmemb % 2 ^ 32))
  | .fseek offset .fin => (offset + c.fileSize) % 2 ^ 32 = 0 ∧ offset = 0
  | .fseek offset whence =>
    (offset + c.file.base whence) % 2 ^ 32 = 0 ∧ offset + c.file.base whence < c.buffer.size
  | .ftello => True

instance (c : Client) : ∀ x, Decidable (c.InDomain x)
  | .fread size _ => inferInstanceAs (Decidable (1 ≤ size))
  | .fseek _ _ => inferInstanceAs (Decidable (_ ∧ _))
  | .ftello => instDecidableTrue

instance (c : Client) : ∀ x, Decidable (c.Agrees x)
  | .fread _ _ => inferInstanceAs (Decidable (_ ∧ _))
  | .fseek _ .fin => inferInstanceAs (Decidable (_ ∧ _))
  | .fseek _ .set => inferInstanceAs (Decidable (_ ∧ _))
  | .fseek _ .cur => inferInstanceAs (Decidable (_ ∧ _))
  | .ftello => instDecidableTrue

/-- Every call of the sequence is in the domain when it is made. -/
def AllInDomain : Client → List StreamCall → Prop
  | _, [] => True
  | c, x :: xs => c.InDomain x ∧ AllInDomain (c.stream x).1 xs

/-- Every call of the sequence does what `<stdio.h>` says. -/
def AllFollow : Client → List StreamCall → Prop
  | _, [] => True
  | c, x :: xs => c.Follows x ∧ AllFollow (c.stream x).1 xs

/-- Every call of the sequence meets its condition when it is made. -/
def AllAgree : Client → List StreamCall → Prop
  | _, [] => True
  | c, x :: xs => c.Agrees x ∧ AllAgree (c.stream x).1 xs

end Client

/-- The wrappers do with the client of the stream's descriptor what `stream`
says, and nothing else. -/
theorem Process.wrap_stream {N α : Type*} [DecidableEq N] [DecidableEq α] {s : Process N} {fd : ℤ} {o : ℕ}
    (hr : s.resolve fd = some o) (env : Env α) (orig : Ret) (x : StreamCall) : s.wrap env orig (x.posix fd) =
      ⟨{ s with clients := Function.update s.clients o ((s.clients o).stream x).1 }, ((s.clients o).stream x).2,
        false⟩ := by
  cases x with
  | fread size nmemb =>
    show s.fread fd size nmemb orig = _
    unfold Process.fread Process.delegate
    rw [hr]
    rfl
  | fseek offset whence =>
    show s.fseek fd offset whence.whence orig = _
    unfold Process.fseek Process.delegate
    rw [hr]
    rfl
  | ftello =>
    show s.ftello fd orig = _
    unfold Process.ftello Process.delegate
    rw [hr]
    rfl

/-! ### Numbers through an `int` -/

theorem toInt_eq_zero_iff (n : ℤ) : toInt n = 0 ↔ n % 2 ^ 32 = 0 := by
  unfold toInt
  rw [Int.bmod_def]
  omega

theorem toSize_toInt (n : ℕ) : toSize (toInt n) =
    if n % 2 ^ 32 < 2 ^ 31 then n % 2 ^ 32 else 2 ^ 64 - 2 ^ 32 + n % 2 ^ 32 := by
  by_cases h : n % 2 ^ 32 < 2 ^ 31
  · have hint : toInt n = (n % 2 ^ 32 : ℕ) := by
      unfold toInt
      rw [Int.bmod_def]
      omega
    rw [if_pos h, hint, toSize_natCast (by omega)]
  · have hint : toInt n = (n % 2 ^ 32 : ℕ) - 2 ^ 32 := by
      unfold toInt
      rw [Int.bmod_def]
      omega
    rw [if_neg h, hint]
    unfold toSize
    omega

/-- A number of bytes through an `int` is the number of items. -/
theorem toSize_toInt_eq_div_iff {b size : ℕ} (hb : b < 2 ^ 63) (hs : 1 ≤ size) : toSize (toInt b) = b / size ↔
    b = 0 ∨ (size = 1 ∧ b < 2 ^ 31) ∨ (2 ^ 32 ≤ b ∧ b % 2 ^ 32 < 2 ^ 31 ∧ b / size = b % 2 ^ 32) := by
  have hle : b / size ≤ b := Nat.div_le_self b size
  rw [toSize_toInt]
  by_cases hm : b % 2 ^ 32 < 2 ^ 31
  · rw [if_pos hm]
    by_cases hlow : b < 2 ^ 32
    · have hmod : b % 2 ^ 32 = b := Nat.mod_eq_of_lt hlow
      rw [hmod] at hm ⊢
      constructor
      · intro heq
        by_cases h0 : b = 0
        · exact .inl h0
        · refine .inr (.inl ⟨?_, hm⟩)
          by_contra h1
          have hlt := Nat.div_lt_self (Nat.pos_of_ne_zero h0) (show 1 < size by omega)
          omega
      · rintro (rfl | ⟨rfl, -⟩ | ⟨hbig, -⟩)
        · simp
        · simp
        · omega
    · constructor
      · intro heq
        exact .inr (.inr ⟨by omega, hm, heq.symm⟩)
      · rintro (rfl | ⟨rfl, hlt⟩ | ⟨-, -, heq⟩)
        · omega
        · omega
        · exact heq.symm
  · rw [if_neg hm]
    constructor
    · intro heq
      omega
    · rintro (rfl | ⟨rfl, hlt⟩ | ⟨-, hlt, -⟩) <;> omega

namespace Client

variable {c : Client}

/-! ### One call -/

/-- The bytes of the file from a position on. -/
theorem file_pread (c : Client) (n pos : ℕ) :
    c.file.pread n pos = c.buffer.mem.slice pos (min n (c.fileSize - pos)) := by
  show ((c.buffer.mem.slice 0 c.fileSize).drop pos).take n = _
  rw [Mem.drop_slice, Nat.zero_add]
  rcases le_total n (c.fileSize - pos) with hle | hle
  · rw [min_eq_left hle, Mem.take_slice _ _ _ hle]
  · rw [min_eq_right hle]
    exact List.take_of_length_le (by rw [Mem.slice_length]; exact hle)

/-- What `fread(3)` gives for the file. -/
theorem file_fread (c : Client) (size nmemb : ℕ) : c.file.fread size nmemb =
    (⟨c.file.bytes, c.bufOffset + c.available size nmemb⟩, c.available size nmemb / size,
      c.buffer.mem.slice c.bufOffset (c.available size nmemb)) := by
  unfold PosixFile.fread PosixFile.read
  rw [file_pread, Mem.slice_length]
  rfl

/-- What `Read` does inside the file. -/
theorem StreamOk.read (hc : c.StreamOk) (n : ℕ) : c.read n =
    ({ c with bufOffset := c.bufOffset + min n (c.fileSize - c.bufOffset) },
      c.buffer.mem.slice c.bufOffset (min n (c.fileSize - c.bufOffset))) := by
  have hlt := hc.lt
  have hfile := hc.size_le
  have hoff := hc.offset_le
  unfold Client.read
  rw [subSize_of_le hoff (by omega)]
  dsimp only
  rw [Nat.mod_eq_of_lt (by omega)]

theorem fread_follows (hc : c.StreamOk) {size nmemb : ℕ} (hd : c.InDomain (.fread size nmemb)) :
    c.Follows (.fread size nmemb) ↔ c.Agrees (.fread size nmemb) := by
  have hb : c.available size nmemb < 2 ^ 63 := by
    have hmin : c.available size nmemb ≤ c.fileSize - c.bufOffset := min_le_right _ _
    have hlt := hc.lt
    have hfile := hc.size_le
    omega
  have hsame : min (size * nmemb % 2 ^ 64) (c.fileSize - c.bufOffset) = c.available size nmemb ↔
      size * nmemb < 2 ^ 64 ∨ c.fileSize - c.bufOffset ≤ size * nmemb % 2 ^ 64 := by
    unfold available
    omega
  have hparts : c.Follows (.fread size nmemb) ↔
      min (size * nmemb % 2 ^ 64) (c.fileSize - c.bufOffset) = c.available size nmemb ∧
        toSize (toInt (c.available size nmemb)) = c.available size nmemb / size := by
    unfold Follows stream PosixFile.stdio
    dsimp only
    rw [file_fread, hc.read]
    dsimp only
    rw [Mem.slice_length]
    constructor
    · intro h
      rw [Prod.mk.injEq, Ret.mk.injEq] at h
      obtain ⟨hf, hv, -, -⟩ := h
      have hk : c.bufOffset + min (size * nmemb % 2 ^ 64) (c.fileSize - c.bufOffset) =
          c.bufOffset + c.available size nmemb := congrArg PosixFile.offset hf
      have hk := Nat.add_left_cancel hk
      rw [hk] at hv
      exact ⟨hk, by exact_mod_cast hv⟩
    · rintro ⟨hk, hv⟩
      rw [hk, hv]
      rfl
  rw [hparts, hsame, toSize_toInt_eq_div_iff hb hd]
  rfl

/-- A seek to a position in the file. -/
theorem fseek_follows_iff {offset : ℤ} {whence : SeekFrom} (hd : c.InDomain (.fseek offset whence)) :
    c.Follows (.fseek offset whence) ↔ (offset + c.file.base whence) % 2 ^ 32 = 0 ∧
      ((c.seek offset whence.whence).bufOffset : ℤ) = offset + c.file.base whence := by
  have hbytes : (c.seek offset whence.whence).file = ⟨c.file.bytes, (c.seek offset whence.whence).bufOffset⟩ := by
    cases whence <;> rfl
  unfold Follows stream PosixFile.stdio PosixFile.lseek
  dsimp only
  rw [if_pos hd.1, hbytes]
  simp only [Option.isSome_some, if_true, Prod.mk.injEq, PosixFile.mk.injEq, Ret.mk.injEq, true_and, and_true]
  rw [toInt_eq_zero_iff]
  have hpos := hd.1
  constructor
  · rintro ⟨hoff, hzero⟩
    have hint : ((c.seek offset whence.whence).bufOffset : ℤ) = offset + c.file.base whence := by omega
    exact ⟨hint ▸ hzero, hint⟩
  · rintro ⟨hzero, hint⟩
    exact ⟨by omega, hint ▸ hzero⟩

/-- A seek that is not counted from the end goes to its target, or to the last
byte of the buffer. -/
theorem StreamOk.seek (hc : c.StreamOk) {offset : ℤ} {whence : SeekFrom} (hd : c.InDomain (.fseek offset whence))
    (hw : whence ≠ .fin) : ((c.seek offset whence.whence).bufOffset : ℤ) =
      min (offset + c.file.base whence) (c.buffer.size - 1) := by
  have hlt := hc.lt
  have hpos := hc.pos
  have hfile := hc.size_le
  have hlast : subSize c.buffer.size 1 = c.buffer.size - 1 := subSize_of_le hpos c.buffer.size_lt
  have hcut : ∀ t : ℤ, 0 ≤ t → t ≤ c.fileSize →
      ((min (toSize t) (subSize c.buffer.size 1) : ℕ) : ℤ) = min t (c.buffer.size - 1) := by
    intro t h0 hle
    have ht := toSize_of_range h0 (by omega)
    omega
  obtain ⟨hge, hle⟩ := hd
  cases whence with
  | set =>
    have htarget : offset + c.file.base .set = offset := add_zero offset
    rw [htarget] at hge hle ⊢
    exact hcut offset hge hle
  | cur => exact hcut (offset + c.bufOffset) hge hle
  | fin => exact absurd rfl hw

theorem fseek_follows (hc : c.StreamOk) {offset : ℤ} {whence : SeekFrom} (hd : c.InDomain (.fseek offset whence)) :
    c.Follows (.fseek offset whence) ↔ c.Agrees (.fseek offset whence) := by
  rw [fseek_follows_iff hd]
  cases whence with
  | set =>
    refine and_congr_right fun _ => ?_
    rw [hc.seek hd (by decide)]
    omega
  | cur =>
    refine and_congr_right fun _ => ?_
    rw [hc.seek hd (by decide)]
    omega
  | fin =>
    -- `Seek` goes to the end whatever the offset is
    have hend : c.file.base .fin = c.fileSize := Mem.slice_length _ _ _
    rw [hend]
    refine and_congr_right fun _ => ?_
    show ((c.fileSize : ℕ) : ℤ) = _ ↔ offset = 0
    omega

theorem follows_iff (hc : c.StreamOk) {x : StreamCall} (hd : c.InDomain x) : c.Follows x ↔ c.Agrees x := by
  cases x with
  | fread size nmemb => exact fread_follows hc hd
  | fseek offset whence => exact fseek_follows hc hd
  | ftello => exact ⟨fun _ => trivial, fun _ => rfl⟩

/-- No call leaves the file. -/
theorem StreamOk.stream (hc : c.StreamOk) {x : StreamCall} (hd : c.InDomain x) : (c.stream x).1.StreamOk := by
  have hfile := hc.size_le
  have hoff := hc.offset_le
  cases x with
  | fread size nmemb =>
    show (c.read (size * nmemb % 2 ^ 64)).1.StreamOk
    rw [hc.read]
    refine ⟨?_, hfile, hc.pos, hc.lt⟩
    show c.bufOffset + min (size * nmemb % 2 ^ 64) (c.fileSize - c.bufOffset) ≤ c.fileSize
    omega
  | fseek offset whence =>
    by_cases hw : whence = .fin
    · subst hw
      exact ⟨le_rfl, hfile, hc.pos, hc.lt⟩
    · have hseek := hc.seek hd hw
      have hle := hd.2
      have hin : (c.seek offset whence.whence).bufOffset ≤ c.fileSize := by omega
      cases whence <;> exact ⟨hin, hfile, hc.pos, hc.lt⟩
  | ftello => exact hc

/-- The calls of a sequence follow if and only if each agrees. -/
theorem allFollow_iff : ∀ (xs : List StreamCall) {c : Client}, c.StreamOk → c.AllInDomain xs →
    (c.AllFollow xs ↔ c.AllAgree xs)
  | [], _, _, _ => Iff.rfl
  | _ :: xs, _, hc, hd => and_congr (follows_iff hc hd.1) (allFollow_iff xs (hc.stream hd.1) hd.2)

end Client

/-- **When streams follow C stdio.** The wrappers of `fread`, `fseek` and `ftello64`
for a log's stream are `Client.stream` on its client; and for every content
and every sequence of calls in the domain, all calls do what `<stdio.h>` says
if and only if each of them meets its condition. -/
theorem stream_follows {N α : Type*} [DecidableEq N] [DecidableEq α] {c : Client} (hc : c.StreamOk)
    {xs : List StreamCall} (hd : c.AllInDomain xs) :
    (∀ (s : Process N) (fd : ℤ) (o : ℕ) (env : Env α) (orig : Ret) (x : StreamCall), s.resolve fd = some o →
      s.wrap env orig (x.posix fd) =
        ⟨{ s with clients := Function.update s.clients o ((s.clients o).stream x).1 }, ((s.clients o).stream x).2,
          false⟩) ∧
    (c.AllFollow xs ↔ c.AllAgree xs) :=
  ⟨fun _ _ _ env orig x hr => Process.wrap_stream hr env orig x, Client.allFollow_iff xs hc hd⟩

/-- Three bytes read one by one, from the start and again from the start. -/
theorem stream_follows_bytes :
    (tinyLog [7, 8, 9]).AllFollow [.fread 1 2, .ftello, .fseek (-2) .cur, .fread 1 9, .fseek 0 .set] := by
  refine (stream_follows (N := ℕ) (α := ℕ) ⟨by decide, by decide, by decide, by decide⟩ ?_).2.mpr ?_
  · exact ⟨by decide, by decide, by decide, by decide, by decide, trivial⟩
  · exact ⟨by decide, by decide, by decide, by decide, by decide, trivial⟩

/-- Of two items of two bytes each, `fread` returns 4. -/
theorem items_as_bytes : ((tinyLog [1, 2, 3, 4]).stream (.fread 2 2)).2.value = 4 ∧
    ¬ ∀ (c : Client) (xs : List StreamCall), c.StreamOk → c.AllInDomain xs → c.AllFollow xs := by
  refine ⟨by decide, ?_⟩
  intro h
  have hall := h (tinyLog [1, 2, 3, 4]) [.fread 2 2] ⟨by decide, by decide, by decide, by decide⟩ ⟨by decide, trivial⟩
  exact absurd (congrArg (fun r => r.2.value) hall.1) (by decide)

end ComputeSideLog
