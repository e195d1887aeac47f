/-
# Lines of the log

`GetLine` (`src/rdma/client.cc`) is documented after `fgets(3)`. Its loop
moves on before it looks at a byte: it never looks at the first one, and it
looks at the byte just behind the size limit or the end of the file, where a
newline makes the line one byte longer than `fgets` would. This file says
which calls agree with `fgets` (`getLine_fgets`), and that a file followed
by zeros is read completely, without a gap or an overlap, by any sequence of
calls with room for a byte (`lines_partition`).

Key definitions: `Client.file`, `Client.GetsLine`, `Client.LineApart`,
`Client.drain`.
Key theorems: `Client.lineLoop_cases`, `Client.length_eq_iff`,
`getLine_fgets`, `Client.getLine_advance`, `lines_partition`.
-/
import ComputeSideLog.Lib.PosixFile
import ComputeSideLog.Bounds

namespace ComputeSideLog

namespace Client

/-- The file that the client shows: its bytes and the offset. -/
def file (c : Client) : PosixFile := ⟨c.buffer.mem.slice 0 c.fileSize, c.bufOffset⟩

/-- `GetLine` does what `fgets` does with the file, and writes the line and a NUL
inside the caller's array. -/
def GetsLine (c : Client) (size : ℕ) : Prop :=
  c.getLine size = ({ c with bufOffset := (c.file.fgets size).1.offset }, (c.file.fgets size).2) ∧
    ∀ l, (c.getLine size).2 = some l → l.length + 1 ≤ size

/-- The number of bytes up to the size limit or the end of the file. -/
def room (c : Client) (size : ℕ) : ℕ := min (size - 1) (c.fileSize - c.bufOffset)

/-- The byte at distance `i` from the offset. -/
def ahead (c : Client) (i : ℕ) : UInt8 := c.buffer.mem (c.bufOffset + i)

/-- The first byte is a newline only if there is room for nothing else, and the
byte behind the room only if a newline comes before it, other than the first
byte. -/
def LineApart (c : Client) (size : ℕ) : Prop :=
  c.room size = 0 ∨ ((c.ahead 0 = newline → c.room size = 1) ∧
    (c.ahead (c.room size) = newline → ∃ j, 0 < j ∧ j < c.room size ∧ c.ahead j = newline))

/-! ### The loop -/

variable {c : Client}

/-- The loop ends after the first newline behind the byte it starts at, up to and
including the byte behind the room, and otherwise at the end of the room. -/
theorem lineLoop_cases (hc : c.Small) (n len : ℕ) (hlen : c.bufOffset + len < c.fileSize) :
    (∃ j, len < j ∧ j ≤ min (len + n) (c.fileSize - c.bufOffset) ∧ c.ahead j = newline ∧
        (∀ i, len < i → i < j → c.ahead i ≠ newline) ∧ c.lineLoop len n = j + 1) ∨
      ((∀ i, len < i → i ≤ min (len + n) (c.fileSize - c.bufOffset) → c.ahead i ≠ newline) ∧
        c.lineLoop len n = min (len + n) (c.fileSize - c.bufOffset)) := by
  induction n generalizing len with
  | zero => exact .inr ⟨fun i h1 h2 => by omega, by simp only [lineLoop]; omega⟩
  | succ n ih =>
    have hsize := hc.2
    unfold lineLoop
    by_cases hnl : c.buffer.mem (c.bufOffset + (len + 1)) = newline
    · rw [if_pos hnl]
      exact .inl ⟨len + 1, by omega, by omega, hnl, fun i h1 h2 => by omega, rfl⟩
    · rw [if_neg hnl, Nat.mod_eq_of_lt (by omega)]
      by_cases hend : c.fileSize ≤ c.bufOffset + (len + 1)
      · rw [if_pos hend]
        refine .inr ⟨fun i h1 h2 => ?_, by omega⟩
        have hi : i = len + 1 := by omega
        rw [hi]
        exact hnl
      · rw [if_neg hend]
        have hbound : len + 1 + n = len + (n + 1) := by omega
        rcases ih (len + 1) (by omega) with ⟨j, h1, h2, hj, hbefore, hl⟩ | ⟨hnone, hl⟩
        · refine .inl ⟨j, by omega, by omega, hj, fun i hi hij => ?_, hl⟩
          by_cases hi' : i = len + 1
          · rw [hi']
            exact hnl
          · exact hbefore i (by omega) hij
        · refine .inr ⟨fun i hi hir => ?_, by rw [hl, hbound]⟩
          by_cases hi' : i = len + 1
          · rw [hi']
            exact hnl
          · exact hnone i (by omega) (by omega)

theorem getLine_eof (h : c.fileSize ≤ c.bufOffset) (size : ℤ) : c.getLine size = (c, none) := by
  have he : c.eof = true := by simpa [eof] using h
  unfold getLine
  rw [he]
  rfl

/-- What `GetLine` copies, in terms of the bytes ahead. -/
theorem getLine_cases (hc : c.Small) (h : c.bufOffset < c.fileSize) {size : ℕ} (hs : 1 ≤ size) :
    ∃ len, c.getLine size =
        ({ c with bufOffset := (c.bufOffset + len) % 2 ^ 64 }, some (c.buffer.mem.slice c.bufOffset len)) ∧
      ((∃ j, 0 < j ∧ j ≤ c.room size ∧ c.ahead j = newline ∧ (∀ i, 0 < i → i < j → c.ahead i ≠ newline) ∧
          len = j + 1) ∨
        ((∀ i, 0 < i → i ≤ c.room size → c.ahead i ≠ newline) ∧ len = c.room size)) := by
  refine ⟨c.lineLoop 0 (size - 1), ?_, ?_⟩
  · have heof : c.eof = false := by simpa [eof] using h
    have hn : ((size : ℤ) - 1).toNat = size - 1 := by omega
    unfold getLine
    rw [heof, hn]
    rfl
  · have hloop := lineLoop_cases hc (size - 1) 0 h
    rw [Nat.zero_add] at hloop
    exact hloop

theorem fgets_eof (h : c.fileSize ≤ c.bufOffset) (size : ℕ) : c.file.fgets size = (c.file, none) := by
  unfold PosixFile.fgets
  rw [if_pos]
  show (c.buffer.mem.slice 0 c.fileSize).length ≤ c.bufOffset
  rw [Mem.slice_length]
  exact h

/-- What `fgets` copies, in the same terms. -/
theorem fgets_cases (h : c.bufOffset < c.fileSize) (size : ℕ) :
    ∃ len, c.file.fgets size =
        ({ c.file with offset := c.bufOffset + len }, some (c.buffer.mem.slice c.bufOffset len)) ∧
      ((∃ j, j < c.room size ∧ c.ahead j = newline ∧ (∀ i, i < j → c.ahead i ≠ newline) ∧ len = j + 1) ∨
        ((∀ i, i < c.room size → c.ahead i ≠ newline) ∧ len = c.room size)) := by
  have hlen : c.file.bytes.length = c.fileSize := Mem.slice_length _ _ _
  have hdrop : c.file.bytes.drop c.file.offset = c.buffer.mem.slice c.bufOffset (c.fileSize - c.bufOffset) := by
    show (c.buffer.mem.slice 0 c.fileSize).drop c.bufOffset = _
    rw [Mem.drop_slice, Nat.zero_add]
  have hget : ∀ i, i < c.room size →
      (c.buffer.mem.slice c.bufOffset (c.fileSize - c.bufOffset))[i]? = some (c.ahead i) :=
    fun i hi => Mem.getElem?_slice (by unfold room at hi; omega)
  have hfgets : c.file.fgets size =
      let line := PosixFile.takeLine (size - 1) (c.buffer.mem.slice c.bufOffset (c.fileSize - c.bufOffset))
      ({ c.file with offset := c.bufOffset + line.length }, some line) := by
    unfold PosixFile.fgets
    rw [if_neg (by rw [hlen]; exact Nat.not_le.mpr h), hdrop]
    rfl
  have htake : ∀ k, k ≤ c.room size →
      (c.buffer.mem.slice c.bufOffset (c.fileSize - c.bufOffset)).take k = c.buffer.mem.slice c.bufOffset k :=
    fun k hk => Mem.take_slice _ _ _ (by unfold room at hk; omega)
  have hroom : min (size - 1) (c.buffer.mem.slice c.bufOffset (c.fileSize - c.bufOffset)).length =
      c.room size := by
    rw [Mem.slice_length]
    rfl
  rcases PosixFile.takeLine_cases (size - 1) (c.buffer.mem.slice c.bufOffset (c.fileSize - c.bufOffset)) with
    ⟨j, hj, hnl, hbefore, hline⟩ | ⟨hnone, hline⟩
  · rw [hroom] at hj
    refine ⟨j + 1, ?_, .inl ⟨j, hj, ?_, fun i hi hc => ?_, rfl⟩⟩
    · rw [hfgets, hline, htake (j + 1) hj]
      simp only [Mem.slice_length]
    · rw [hget j hj] at hnl
      exact Option.some.inj hnl
    · exact hbefore i hi (by rw [hget i (by omega), hc]; rfl)
  · rw [hroom] at hnone hline
    refine ⟨c.room size, ?_, .inr ⟨fun i hi hc => ?_, rfl⟩⟩
    · rw [hfgets, hline, htake _ le_rfl]
      simp only [Mem.slice_length]
    · exact hnone i hi (by rw [hget i hi, hc]; rfl)

/-- A loop that stops at the first newline from the second byte on to the one
behind the room, and one that stops at the first newline in the room, stop at
the same place exactly when the line is apart. -/
theorem length_eq_iff {size len len' : ℕ}
    (hlen : (∃ j, 0 < j ∧ j ≤ c.room size ∧ c.ahead j = newline ∧ (∀ i, 0 < i → i < j → c.ahead i ≠ newline) ∧
        len = j + 1) ∨ ((∀ i, 0 < i → i ≤ c.room size → c.ahead i ≠ newline) ∧ len = c.room size))
    (hlen' : (∃ j, j < c.room size ∧ c.ahead j = newline ∧ (∀ i, i < j → c.ahead i ≠ newline) ∧ len' = j + 1) ∨
      ((∀ i, i < c.room size → c.ahead i ≠ newline) ∧ len' = c.room size)) :
    len = len' ↔ c.LineApart size := by
  unfold LineApart
  by_cases h0 : c.room size = 0
  · refine ⟨fun _ => .inl h0, fun _ => ?_⟩
    rcases hlen with ⟨j, h1, h2, -⟩ | ⟨-, rfl⟩
    · omega
    · rcases hlen' with ⟨j, h1, -⟩ | ⟨-, rfl⟩
      · omega
      · rfl
  constructor
  · rintro rfl
    right
    constructor
    · intro hfirst
      -- a newline at once ends the line of `fgets` after one byte
      have hone : len = 1 := by
        rcases hlen' with ⟨j, -, -, hbefore, rfl⟩ | ⟨hnone, -⟩
        · have hj : j = 0 := by
            by_contra hj
            exact hbefore 0 (by omega) hfirst
          omega
        · exact absurd hfirst (hnone 0 (by omega))
      rcases hlen with ⟨j, h1, -, -, -, hl⟩ | ⟨-, hl⟩
      · omega
      · omega
    · intro hend
      rcases hlen with ⟨j, h1, h2, hj, -, hl⟩ | ⟨hnone, -⟩
      · refine ⟨j, h1, ?_, hj⟩
        rcases hlen' with ⟨j', h3, -, -, hl'⟩ | ⟨-, hl'⟩
        · omega
        · omega
      · exact absurd hend (hnone _ (by omega) le_rfl)
  · rintro (h | ⟨hfirst, hend⟩)
    · exact absurd h h0
    · rcases hlen with ⟨j, h1, h2, hj, hbefore, rfl⟩ | ⟨hnone, rfl⟩
      · have hlt : j < c.room size := by
          by_contra hge
          have hje : j = c.room size := by omega
          obtain ⟨j', h3, h4, hj'⟩ := hend (hje ▸ hj)
          exact hbefore j' h3 (by omega) hj'
        rcases hlen' with ⟨j', h3, hj', hbefore', rfl⟩ | ⟨hnone', -⟩
        · have h5 : j' ≠ 0 := by
            rintro rfl
            have := hfirst hj'
            omega
          have h6 : ¬ j' < j := fun hlt => hbefore j' (by omega) hlt hj'
          have h7 : ¬ j < j' := fun hlt => hbefore' j hlt hj
          omega
        · exact absurd hj (hnone' j hlt)
      · rcases hlen' with ⟨j', h3, hj', -, rfl⟩ | ⟨-, rfl⟩
        · have h5 : j' = 0 := by
            by_contra h5
            exact hnone j' (by omega) (by omega) hj'
          subst h5
          exact hfirst hj'
        · rfl

theorem room_le (h : c.bufOffset < c.fileSize) (size : ℕ) :
    c.bufOffset + c.room size ≤ c.fileSize ∧ c.room size ≤ size - 1 := by
  unfold room
  omega

end Client

/-- **When `GetLine` is `fgets`.** In every state, for every size: at the end of
the file, or with room for no byte, or if the first byte is a newline only
when there is room for nothing else, and the byte behind the room only when
another newline comes before it. -/
theorem getLine_fgets {c : Client} (hc : c.Small) {size : ℕ} (hs : 1 ≤ size) : c.GetsLine size ↔ c.LineApart size := by
  by_cases heof : c.fileSize ≤ c.bufOffset
  · have hline : c.getLine size = (c, none) := Client.getLine_eof heof size
    refine ⟨fun _ => .inl (by unfold Client.room; omega), fun _ => ⟨?_, fun l hl => ?_⟩⟩
    · rw [hline, Client.fgets_eof heof]
      rfl
    · rw [hline] at hl
      cases hl
  · have hlt : c.bufOffset < c.fileSize := Nat.lt_of_not_le heof
    obtain ⟨len, hline, hlen⟩ := Client.getLine_cases hc hlt hs
    obtain ⟨len', hfgets, hlen'⟩ := Client.fgets_cases hlt size
    have hle : len' ≤ c.room size := by
      rcases hlen' with ⟨j, hj, -, -, rfl⟩ | ⟨-, rfl⟩
      · exact hj
      · exact le_rfl
    obtain ⟨hend, hsize⟩ := Client.room_le hlt size
    rw [← Client.length_eq_iff hlen hlen']
    constructor
    · rintro ⟨heq, -⟩
      rw [hline, hfgets] at heq
      have hbytes := congrArg List.length (Option.some.inj (Prod.mk.inj heq).2)
      rwa [Mem.slice_length, Mem.slice_length] at hbytes
    · rintro rfl
      have hmod : (c.bufOffset + len) % 2 ^ 64 = c.bufOffset + len :=
        Nat.mod_eq_of_lt (by have := hc.2; omega)
      refine ⟨?_, fun l hl => ?_⟩
      · rw [hline, hfgets, hmod]
      · rw [hline] at hl
        rw [← Option.some.inj hl, Mem.slice_length]
        omega

/-- A small log that holds the bytes, read from the start. -/
def tinyLog (bs : List UInt8) : Client := ((Client.fresh tiny).ops [.append bs, .seek 0 .seekSet]).1

/-- A line that ends in the middle of the file. -/
theorem getLine_fgets_line : (tinyLog [97, 10, 98]).LineApart 8 ∧ (tinyLog [97, 10, 98]).GetsLine 8 ∧
    ((tinyLog [97, 10, 98]).getLine 8).2 = some [97, 10] := by
  have hapart : (tinyLog [97, 10, 98]).LineApart 8 := by
    refine .inr ⟨fun h => ?_, fun h => ?_⟩
    · exact absurd h (by decide)
    · exact absurd h (by decide)
  exact ⟨hapart, (getLine_fgets ⟨by decide, by decide⟩ (by decide)).mpr hapart, by decide⟩

/-- An empty line before a line of one byte: both are returned as one. -/
theorem empty_line_missed : ¬ ∀ (c : Client) (size : ℕ), c.Small → 1 ≤ size → c.GetsLine size := by
  intro h
  have hline := (h (tinyLog [10, 97]) 4 ⟨by decide, by decide⟩ (by decide)).1
  have hbytes := congrArg Prod.snd hline
  revert hbytes
  decide

/-! ### Line by line to the end -/

/-- A call of `GetLine` that returned a line: the offsets around it and the line. -/
structure LineRead where
  before : ℕ
  after : ℕ
  line : List UInt8
  deriving DecidableEq, Repr

namespace Client

/-- `GetLine` until it returns null, call `i` with size `sizes i`: the client after
it and the lines; `none` if the number of calls does not do. -/
def drain (c : Client) (sizes : ℕ → ℤ) : ℕ → ℕ → Option (Client × List LineRead)
  | 0, _ => none
  | fuel + 1, i =>
    match c.getLine (sizes i) with
    | (c', none) => some (c', [])
    | (c', some line) =>
      (drain c' sizes fuel (i + 1)).map fun r => (r.1, ⟨c.bufOffset, c'.bufOffset, line⟩ :: r.2)

/-- Enough calls read the file to its end, leave the offset at `final`, move
forward inside the file each time, and return what they passed, which is all
of the file from the offset on. -/
def Drained (c : Client) (sizes : ℕ → ℤ) (final : ℕ) : Prop :=
  ∃ ls : List LineRead,
    (∀ fuel, c.fileSize - c.bufOffset < fuel → c.drain sizes fuel 0 = some ({ c with bufOffset := final }, ls)) ∧
    (∀ x ∈ ls, x.before < x.after ∧ x.after ≤ c.fileSize ∧
      x.line = c.buffer.mem.slice x.before (x.after - x.before)) ∧
    (ls.map LineRead.line).flatten = c.buffer.mem.slice c.bufOffset (c.fileSize - c.bufOffset)

variable {c : Client}

/-- One call on a file that no newline follows. -/
theorem getLine_advance (hc : c.Small) (h : c.bufOffset < c.fileSize) (hz : c.buffer.mem c.fileSize ≠ newline)
    {size : ℤ} (hs : 2 ≤ size) :
    ∃ len, 0 < len ∧ c.bufOffset + len ≤ c.fileSize ∧
      c.getLine size = ({ c with bufOffset := c.bufOffset + len }, some (c.buffer.mem.slice c.bufOffset len)) := by
  obtain ⟨n, rfl⟩ := Int.eq_ofNat_of_zero_le (show 0 ≤ size by omega)
  have hsmall := hc.2
  obtain ⟨hend, -⟩ := room_le h n
  have hpos : 0 < c.room n := by
    unfold room
    omega
  obtain ⟨len, hline, hlen⟩ := getLine_cases hc h (show 1 ≤ n by omega)
  have hbound : 0 < len ∧ c.bufOffset + len ≤ c.fileSize := by
    rcases hlen with ⟨j, h1, h2, hj, -, rfl⟩ | ⟨-, rfl⟩
    · refine ⟨Nat.succ_pos j, ?_⟩
      -- the newline is not the byte behind the file
      have hne : c.bufOffset + j ≠ c.fileSize := by
        intro heq
        unfold ahead at hj
        rw [heq] at hj
        exact hz hj
      omega
    · exact ⟨hpos, hend⟩
  refine ⟨len, hbound.1, hbound.2, ?_⟩
  rw [hline, Nat.mod_eq_of_lt (by omega)]

/-- By induction on the calls left, which the bytes left bound. -/
theorem drain_spec {sizes : ℕ → ℤ} (hs : ∀ i, 2 ≤ sizes i) (fuel i : ℕ) {c : Client} (hc : c.Small)
    (hz : c.buffer.mem c.fileSize ≠ newline) (hfuel : c.fileSize - c.bufOffset < fuel) :
    ∃ ls : List LineRead,
      (∀ fuel', c.fileSize - c.bufOffset < fuel' →
        c.drain sizes fuel' i = some ({ c with bufOffset := max c.bufOffset c.fileSize }, ls)) ∧
      (∀ x ∈ ls, x.before < x.after ∧ x.after ≤ c.fileSize ∧
        x.line = c.buffer.mem.slice x.before (x.after - x.before)) ∧
      (ls.map LineRead.line).flatten = c.buffer.mem.slice c.bufOffset (c.fileSize - c.bufOffset) := by
  induction fuel generalizing i c with
  | zero => exact absurd hfuel (Nat.not_lt_zero _)
  | succ fuel ih =>
    by_cases heof : c.fileSize ≤ c.bufOffset
    · refine ⟨[], fun fuel' hfuel' => ?_, by simp, ?_⟩
      · obtain ⟨k, rfl⟩ := Nat.exists_eq_add_of_lt hfuel'
        simp only [drain, getLine_eof heof, max_eq_left heof]
      · rw [Nat.sub_eq_zero_of_le heof]
        rfl
    · have hlt : c.bufOffset < c.fileSize := Nat.lt_of_not_le heof
      obtain ⟨len, hpos, hend, hline⟩ := getLine_advance hc hlt hz (hs i)
      have hc' : Client.Small { c with bufOffset := c.bufOffset + len } :=
        ⟨show c.bufOffset + len < 2 ^ 64 by have := hc.2; omega, hc.2⟩
      obtain ⟨ls, hdrain, hmoves, hall⟩ := ih (i + 1) hc' hz
        (show c.fileSize - (c.bufOffset + len) < fuel by omega)
      refine ⟨⟨c.bufOffset, c.bufOffset + len, c.buffer.mem.slice c.bufOffset len⟩ :: ls, fun fuel' hfuel' => ?_,
        fun x hx => ?_, ?_⟩
      · obtain ⟨k, rfl⟩ : ∃ k, fuel' = k + 1 := ⟨fuel' - 1, by omega⟩
        have hrest := hdrain k (show c.fileSize - (c.bufOffset + len) < k by omega)
        simp only [drain, hline, hrest, Option.map_some]
        simp only [max_eq_right hend, max_eq_right hlt.le]
      · rcases List.mem_cons.mp hx with rfl | hx
        · exact ⟨by show c.bufOffset < c.bufOffset + len; omega, hend, by simp⟩
        · exact hmoves x hx
      · rw [List.map_cons, List.flatten_cons, hall]
        have hsplit : c.fileSize - c.bufOffset = len + (c.fileSize - (c.bufOffset + len)) := by omega
        rw [hsplit]
        exact Mem.slice_append _ _ _ _

end Client

/-- **Repeated `GetLine` loses and repeats nothing.** On a file followed by zeros,
with any sizes of at least 2, it comes to an end; every call that returns a
line moves forward inside the file, the lines are the rest of the file, and
the offset is left at its end, or where it was if it was past it. -/
theorem lines_partition {c : Client} (hc : c.Small) (hsize : c.fileSize < c.seqOffset)
    (hz : ∀ x, c.fileSize ≤ x → x < c.seqOffset → c.buffer.mem x = 0) {sizes : ℕ → ℤ} (hs : ∀ i, 2 ≤ sizes i) :
    c.Drained sizes (max c.bufOffset c.fileSize) := by
  have hnl : c.buffer.mem c.fileSize ≠ newline := by
    rw [hz c.fileSize le_rfl hsize]
    decide
  exact Client.drain_spec hs _ 0 hc hnl (Nat.lt_succ_self _)

/-- Three lines, one of them empty, read with room for 2 and for 3 bytes in turn. -/
theorem lines_partition_tiny : (tinyLog [97, 98, 10, 10, 99]).Drained (fun i => if i % 2 = 0 then 3 else 4) 5 ∧
    ((tinyLog [97, 98, 10, 10, 99]).drain (fun i => if i % 2 = 0 then 3 else 4) 8 0).map
      (fun r => r.2.map LineRead.line) = some [[97, 98, 10], [10, 99]] := by
  refine ⟨lines_partition ⟨by decide, by decide⟩ (by decide) (fun x h1 h2 => ?_) (fun i => ?_), by decide⟩
  · have h5 : 5 ≤ x := h1
    have h8 : x < 8 := h2
    have hx : x = 5 ∨ x = 6 ∨ x = 7 := by omega
    rcases hx with rfl | rfl | rfl <;> decide
  · show (2 : ℤ) ≤ if i % 2 = 0 then 3 else 4
    split <;> decide

/-- The offset is past the end of an empty file and stays there. -/
theorem lines_past_end : ¬ ∀ (c : Client) (sizes : ℕ → ℤ), c.Small → c.fileSize < c.seqOffset →
    (∀ x, c.fileSize ≤ x → x < c.seqOffset → c.buffer.mem x = 0) → (∀ i, 2 ≤ sizes i) →
    c.Drained sizes c.fileSize := by
  intro h
  obtain ⟨ls, hdrain, -⟩ := h ((Client.fresh tiny).seek 5 .seekSet) (fun _ => 2) ⟨by decide, by decide⟩ (by decide)
    (fun _ _ _ => rfl) (fun _ => le_rfl)
  have hoff := congrArg (Option.map fun r => r.1.bufOffset) (hdrain 1 (by decide))
  simp only [Option.map_some] at hoff
  revert hoff
  decide

end ComputeSideLog
