/-
# The bytes past the end of the file

A hole must read as zeros, so the client counts on the bytes between
`file_size` and the trailer being zero. Writes below the trailer keep them
so. `Truncate` (`src/rdma/client.cc`) moves `file_size` down but clears the
bytes from the new length to `buf_offset`, not to the old size: when the
offset is not at the end of the file, what lies behind it stays, and a later
extension shows it again.

Key definitions: `LogOp.Below`, `StaysZero`, `LogOp.Clears`,
`LogOp.Misses`.
Key theorems: `truncate_zero_iff`, `zero_step_iff`, `past_end_zero`.
-/
import ComputeSideLog.Bounds

namespace ComputeSideLog

/-- Writes and truncations end at or below the trailer. -/
def LogOp.Below (c : Client) : LogOp → Prop
  | .append buf => c.bufOffset + buf.length ≤ c.seqOffset
  | .writePos buf pos => pos + buf.length ≤ c.seqOffset
  | .truncate length => (length : ℕ) ≤ c.seqOffset
  | .read _ => True
  | .readPos _ _ => True
  | .seek _ _ => True

instance (c : Client) : ∀ o : LogOp, Decidable (o.Below c)
  | .append _ => Nat.decLe _ _
  | .writePos _ _ => Nat.decLe _ _
  | .truncate _ => Nat.decLe _ _
  | .read _ => instDecidableTrue
  | .readPos _ _ => instDecidableTrue
  | .seek _ _ => instDecidableTrue

/-- Every operation of the run does when it is made. -/
def AllBelow : Client → List LogOp → Prop
  | _, [] => True
  | c, o :: os => o.Below c ∧ AllBelow (c.step o) os

instance : ∀ (c : Client) (os : List LogOp), Decidable (AllBelow c os)
  | _, [] => instDecidableTrue
  | c, o :: os =>
    haveI := instDecidableAllBelow (c.step o) os
    inferInstanceAs (Decidable (o.Below c ∧ AllBelow (c.step o) os))

/-- The bytes from the end of the file to the trailer are zero. -/
def ZeroPastEnd (c : Client) : Prop := ∀ x, x < c.seqOffset → c.fileSize ≤ x → c.buffer.mem x = 0

instance (c : Client) : Decidable (ZeroPastEnd c) :=
  inferInstanceAs (Decidable (∀ x, x < c.seqOffset → c.fileSize ≤ x → c.buffer.mem x = 0))

/-- They are in every state of the run. -/
def StaysZero : Client → List LogOp → Prop
  | c, [] => ZeroPastEnd c
  | c, o :: os => ZeroPastEnd c ∧ StaysZero (c.step o) os

instance : ∀ (c : Client) (os : List LogOp), Decidable (StaysZero c os)
  | c, [] => inferInstanceAs (Decidable (ZeroPastEnd c))
  | c, o :: os =>
    haveI := instDecidableStaysZero (c.step o) os
    inferInstanceAs (Decidable (ZeroPastEnd c ∧ StaysZero (c.step o) os))

/-- A truncation leaves no data behind: past both the new length and the offset
the file holds zeros only. -/
def LogOp.Clears (c : Client) : LogOp → Prop
  | .truncate length => ∀ x, x < c.fileSize → max (length : ℕ) c.bufOffset ≤ x → c.buffer.mem x = 0
  | _ => True

/-- Every truncation of the run does. -/
def AllClear : Client → List LogOp → Prop
  | _, [] => True
  | c, o :: os => o.Clears c ∧ AllClear (c.step o) os

instance (c : Client) : ∀ o : LogOp, Decidable (o.Clears c)
  | .truncate length =>
    inferInstanceAs (Decidable (∀ x, x < c.fileSize → max (length : ℕ) c.bufOffset ≤ x → c.buffer.mem x = 0))
  | .append _ => instDecidableTrue
  | .writePos _ _ => instDecidableTrue
  | .read _ => instDecidableTrue
  | .readPos _ _ => instDecidableTrue
  | .seek _ _ => instDecidableTrue

instance : ∀ (c : Client) (os : List LogOp), Decidable (AllClear c os)
  | _, [] => instDecidableTrue
  | c, o :: os =>
    haveI := instDecidableAllClear (c.step o) os
    inferInstanceAs (Decidable (o.Clears c ∧ AllClear (c.step o) os))

/-- The operation stores no data at `x`. -/
def LogOp.Misses (c : Client) (x : ℕ) : LogOp → Prop
  | .append buf => ¬ (c.bufOffset ≤ x ∧ x < c.bufOffset + buf.length)
  | .writePos buf pos => ¬ (pos ≤ x ∧ x < pos + buf.length)
  | _ => True

/-- No operation of the run does. -/
def AllMiss (x : ℕ) : Client → List LogOp → Prop
  | _, [] => True
  | c, o :: os => o.Misses c x ∧ AllMiss x (c.step o) os

instance (c : Client) (x : ℕ) : ∀ o : LogOp, Decidable (o.Misses c x)
  | .append _ => instDecidableNot
  | .writePos _ _ => instDecidableNot
  | .truncate _ => instDecidableTrue
  | .read _ => instDecidableTrue
  | .readPos _ _ => instDecidableTrue
  | .seek _ _ => instDecidableTrue

instance (x : ℕ) : ∀ (c : Client) (os : List LogOp), Decidable (AllMiss x c os)
  | _, [] => instDecidableTrue
  | c, o :: os =>
    haveI := instDecidableAllMiss x (c.step o) os
    inferInstanceAs (Decidable (o.Misses c x ∧ AllMiss x (c.step o) os))

/-! ### One operation -/

section

variable {c : Client}

/-- An operation below the trailer keeps the size below it. -/
theorem size_le_step (h : c.Wf) (hle : c.fileSize ≤ c.seqOffset) {o : LogOp} (ho : o.Below c) :
    (c.step o).fileSize ≤ c.seqOffset := by
  have hcall : ∀ w : Call, w.InBounds c → (c.call w).fileSize ≤ c.seqOffset := by
    intro w hw
    rw [Client.call_fileSize, Nat.mod_eq_of_lt (Client.end_lt h hw), Client.size_of_inBounds h hw]
    exact max_le hle hw
  cases o with
  | append buf => exact hcall (.append buf) ho
  | writePos buf pos => exact hcall (.writePos buf pos) ho
  | read size => exact hle
  | readPos size pos => exact hle
  | seek offset whence => rwa [(Client.step_seek offset whence).1]
  | truncate length => rwa [(Client.step_truncate length).1]

/-- A truncation leaves zeros past the new end if and only if it leaves no data
behind. -/
theorem truncate_zero_iff (hle : c.fileSize ≤ c.seqOffset) (hz : ZeroPastEnd c) (length : Fin (2 ^ 63)) :
    ZeroPastEnd (c.step (.truncate length)) ↔ (LogOp.truncate length).Clears c := by
  unfold ZeroPastEnd
  rw [Client.step_seqOffset, (Client.step_truncate length).1]
  show _ ↔ ∀ x, x < c.fileSize → max (length : ℕ) c.bufOffset ≤ x → c.buffer.mem x = 0
  constructor
  · intro h x hx hmax
    have hbyte := h x (by omega) (by omega)
    rwa [Client.truncate_mem, if_neg (by omega)] at hbyte
  · intro h x hx hlen
    rw [Client.truncate_mem]
    by_cases hcut : (length : ℕ) ≤ x ∧ x < c.bufOffset
    · rw [if_pos hcut]
    · rw [if_neg hcut]
      by_cases hfile : x < c.fileSize
      · exact h x hfile (by omega)
      · exact hz x hx (by omega)

/-- **One operation** keeps the bytes past the end zero if and only if it is not
a truncation that leaves data behind. -/
theorem zero_step_iff (h : c.Wf) (hle : c.fileSize ≤ c.seqOffset) (hz : ZeroPastEnd c) {o : LogOp}
    (ho : o.Below c) : ZeroPastEnd (c.step o) ↔ o.Clears c := by
  have htidy : c.Tidy := ⟨hle, fun x h1 h2 => hz x h2 h1⟩
  have hcall : ∀ w : Call, w.InBounds c → ZeroPastEnd (c.call w) :=
    fun w hw x h1 h2 => (htidy.call h hw).clean x h2 h1
  cases o with
  | append buf => exact ⟨fun _ => trivial, fun _ => hcall (.append buf) ho⟩
  | writePos buf pos => exact ⟨fun _ => trivial, fun _ => hcall (.writePos buf pos) ho⟩
  | read size => exact ⟨fun _ => trivial, fun _ => hz⟩
  | readPos size pos => exact ⟨fun _ => trivial, fun _ => hz⟩
  | seek offset whence =>
    refine ⟨fun _ => trivial, fun _ => ?_⟩
    unfold ZeroPastEnd
    rw [Client.step_seqOffset, (Client.step_seek offset whence).1, (Client.step_seek offset whence).2]
    exact hz
  | truncate length => exact truncate_zero_iff hle hz length

/-- A zero byte below the trailer stays zero under an operation that stores no
data there. -/
theorem zero_of_misses (h : c.Wf) {o : LogOp} {x : ℕ} (ho : o.Below c) (hx : x < c.seqOffset)
    (hm : o.Misses c x) (hbyte : c.buffer.mem x = 0) : (c.step o).buffer.mem x = 0 := by
  have hcall : ∀ w : Call, w.InBounds c → ¬ (w.off c ≤ x ∧ x < w.off c + w.buf.length) →
      (c.call w).buffer.mem x = 0 := by
    intro w hw hout
    rw [Client.call_mem_off, hbyte]
    unfold Call.Writes
    rw [Client.size_of_inBounds h hw, h.addr]
    omega
  cases o with
  | append buf => exact hcall (.append buf) ho hm
  | writePos buf pos => exact hcall (.writePos buf pos) ho hm
  | read size => exact hbyte
  | readPos size pos => exact hbyte
  | seek offset whence => rwa [(Client.step_seek offset whence).2]
  | truncate length =>
    rw [Client.truncate_mem]
    split
    · rfl
    · exact hbyte

end

/-! ### Runs -/

theorem staysZero_iff : ∀ (os : List LogOp) {c : Client}, c.Wf → c.fileSize ≤ c.seqOffset →
    ZeroPastEnd c → AllBelow c os → (StaysZero c os ↔ AllClear c os) := by
  intro os
  induction os with
  | nil => exact fun _ _ hz _ => ⟨fun _ => trivial, fun _ => hz⟩
  | cons o os ih =>
    intro c h hle hz ho
    have hstep := zero_step_iff h hle hz ho.1
    have hle' : (c.step o).fileSize ≤ (c.step o).seqOffset := by
      rw [Client.step_seqOffset]
      exact size_le_step h hle ho.1
    constructor
    · rintro ⟨-, hrest⟩
      have hz' : ZeroPastEnd (c.step o) := by
        cases os with
        | nil => exact hrest
        | cons o' os => exact hrest.1
      exact ⟨hstep.mp hz', (ih (h.step o) hle' hz' ho.2).mp hrest⟩
    · rintro ⟨hclear, hrest⟩
      exact ⟨hz, (ih (h.step o) hle' (hstep.mpr hclear) ho.2).mpr hrest⟩

/-- Where a run leads: the trailer in place, the size below it, and zeros past
the end. -/
theorem after_zero : ∀ (os : List LogOp) {c : Client}, c.Wf → c.fileSize ≤ c.seqOffset →
    ZeroPastEnd c → AllBelow c os → AllClear c os →
    (c.after os).Wf ∧ (c.after os).fileSize ≤ c.seqOffset ∧ ZeroPastEnd (c.after os) := by
  intro os
  induction os with
  | nil => exact fun h hle hz _ _ => ⟨h, hle, hz⟩
  | cons o os ih =>
    intro c h hle hz ho hc
    have hseq := Client.step_seqOffset c o
    have hrest := ih (h.step o) (by rw [hseq]; exact size_le_step h hle ho.1)
      ((zero_step_iff h hle hz ho.1).mpr hc.1) ho.2 hc.2
    rwa [hseq] at hrest

theorem zero_of_allMiss : ∀ (os : List LogOp) {c : Client} {x : ℕ}, c.Wf → AllBelow c os →
    x < c.seqOffset → AllMiss x c os → c.buffer.mem x = 0 → (c.after os).buffer.mem x = 0
  | [], _, _, _, _, _, _, hbyte => hbyte
  | o :: os, c, x, h, ho, hx, hm, hbyte => by
    refine zero_of_allMiss os (h.step o) ho.2 ?_ hm.2 (zero_of_misses h ho.1 hx hm.1 hbyte)
    rwa [Client.step_seqOffset]

theorem allBelow_append : ∀ (os os' : List LogOp) (c : Client),
    AllBelow c (os ++ os') ↔ AllBelow c os ∧ AllBelow (c.after os) os'
  | [], _, _ => by simp [AllBelow]
  | o :: os, os', c => by
    simp only [List.cons_append, AllBelow, Client.after_cons, allBelow_append os os', and_assoc]

theorem allClear_append : ∀ (os os' : List LogOp) (c : Client),
    AllClear c (os ++ os') ↔ AllClear c os ∧ AllClear (c.after os) os'
  | [], _, _ => by simp [AllClear]
  | o :: os, os', c => by
    simp only [List.cons_append, AllClear, Client.after_cons, allClear_append os os', and_assoc]

/-- A range of zeros inside the file reads as zeros. -/
theorem readPos_zero {c : Client} (h : c.Small) {pos size : ℕ} (hend : pos + size ≤ c.fileSize)
    (hbyte : ∀ x, pos ≤ x → x < pos + size → c.buffer.mem x = 0) :
    c.readPos size pos = List.replicate size 0 := by
  have hclamp : min size (subSize c.fileSize pos) = size := by
    rw [subSize_of_le (by omega) h.2]
    omega
  unfold Client.readPos
  rw [hclamp]
  refine List.eq_replicate_iff.mpr ⟨Mem.slice_length _ _ _, fun b hb => ?_⟩
  simp only [Mem.slice, List.mem_map, List.mem_range] at hb
  obtain ⟨i, hi, rfl⟩ := hb
  exact hbyte (pos + i) (by omega) (by omega)

/-- **Bytes past the end of the file** are zero in every state of a run of a
fresh client if and only if every truncation finds zeros, in the file, past
its length and the offset. Then what is behind a truncation reads as zeros,
however the file is extended, until data is written there. -/
theorem past_end_zero (g : Grant) (hg : g.buffer.mem = Mem.zero) {os : List LogOp}
    (hb : AllBelow g.client os) :
    (StaysZero g.client os ↔ AllClear g.client os) ∧
    ∀ pre length post, os = pre ++ LogOp.truncate length :: post → AllClear g.client os →
      ∀ pos size : ℕ, length ≤ pos → pos + size ≤ (g.client.after os).fileSize →
        (∀ x, x < pos + size → pos ≤ x →
          AllMiss x ((g.client.after pre).step (.truncate length)) post) →
        (g.client.after os).readPos size pos = List.replicate size 0 := by
  have hz : ZeroPastEnd g.client := fun x _ _ => congrFun hg x
  have hle : g.client.fileSize ≤ g.client.seqOffset := Nat.zero_le _
  refine ⟨staysZero_iff os g.wf hle hz hb, ?_⟩
  intro pre length post hos hc pos size hlen hend hmiss
  have hfit := (after_zero os g.wf hle hz hb hc).2.1
  refine readPos_zero (g.small.after os) hend fun x h1 h2 => ?_
  subst hos
  obtain ⟨hb₁, hbt⟩ := (allBelow_append _ _ _).mp hb
  obtain ⟨hc₁, hct⟩ := (allClear_append _ _ _).mp hc
  obtain ⟨hwf, hsize, hzero⟩ := after_zero pre g.wf hle hz hb₁ hc₁
  have hseq := Client.after_seqOffset pre g.client
  have hx : x < ((g.client.after pre).step (.truncate length)).seqOffset := by
    rw [Client.step_seqOffset, hseq]
    omega
  -- right after the truncation everything from its length to the trailer is zero
  have hcut := (zero_step_iff hwf (hsize.trans_eq hseq.symm) hzero hbt.1).mpr hct.1
  have hbyte := hcut x hx (by rw [(Client.step_truncate length).1]; omega)
  rw [Client.after_append]
  exact zero_of_allMiss post (hwf.step _) hbt.2 hx (hmiss x h2 h1) hbyte

theorem past_end_zero_tiny :
    let g : Grant := ⟨tiny.region Mem.zero, 16, by decide, by decide⟩
    let os : List LogOp := [.append [1, 2, 3], .truncate 1, .writePos [9] 5]
    AllBelow g.client os ∧ AllClear g.client os ∧ StaysZero g.client os ∧
      (g.client.after os).readPos 4 1 = List.replicate 4 0 := by
  intro g os
  have hb : AllBelow g.client os := by decide
  have hc : AllClear g.client os := by decide
  obtain ⟨hiff, hread⟩ := past_end_zero g rfl hb
  exact ⟨hb, hc, hiff.mpr hc, hread [.append [1, 2, 3]] 1 [.writePos [9] 5] rfl hc 1 4 (by decide)
    (by decide) (by decide)⟩

/-- Three bytes, the offset back at the start, and a truncation to one. -/
theorem truncated_bytes_stay : ¬ ∀ (g : Grant) (os : List LogOp), g.buffer.mem = Mem.zero →
    AllBelow g.client os → StaysZero g.client os := by
  intro h
  have hrun := h ⟨tiny.region Mem.zero, 16, by decide, by decide⟩
    [.append [1, 2, 3], .seek 0 .seekSet, .truncate 1] rfl (by decide)
  revert hrun
  decide

end ComputeSideLog
