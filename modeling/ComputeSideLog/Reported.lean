/-
# The size a server reports

A server keeps no size for a file; `GET_INFO` answers with what `findSize`
makes of the region, the least length behind which everything up to the
trailer is zero. After any sequence of write calls that ends up completely
at a server, that is the file without the zeros at its end. The exception is
a call of `2^32` bytes or more, of which the server gets a part only; the
reported size is then still no larger than the file.

Key definition: `SizeReported`.
Key theorems: `findSize_isLeast`, `posts_zero`, `reported_size`.
-/
import ComputeSideLog.Image

namespace ComputeSideLog

/-- What the reply about the region says of the client's file: no more than its
size, exactly its size if the file does not end in a zero, and otherwise only
zeros less. -/
def SizeReported (c : Client) (b : Buffer) : Prop :=
  (getInfo b).size ≤ c.fileSize ∧
    ((getInfo b).size = c.fileSize ↔ c.fileSize = 0 ∨ c.buffer.mem (c.fileSize - 1) ≠ 0) ∧
    ∀ x, (getInfo b).size ≤ x → x < c.fileSize → c.buffer.mem x = 0

theorem findSize_isLeast {b : Buffer} (hb : seqWidth ≤ b.size) :
    IsLeast {n | ∀ x, n ≤ x → x < b.size - seqWidth → b.mem x = 0} (findSize b) :=
  ⟨(findSize_le_iff hb).mp le_rfl, fun _ hn => (findSize_le_iff hb).mpr hn⟩

/-- What a server has applied leaves the region zero behind `file_size`, also
when the lengths posted are cut. -/
theorem posts_zero {ws : List Call} {c : Client} {m : Mem} (hc : c.Wf) (ha : AllIn c ws)
    (hm : ∀ x, c.fileSize ≤ x → x < c.seqOffset → m x = 0) {x : ℕ} (hf : (c.run ws).fileSize ≤ x)
    (hx : x < c.seqOffset) : applyAll m (posts c ws) x = 0 := by
  have hmiss := posts_past_end ws hc ha (by omega) hf
  calc applyAll m (posts c ws) x = m x := applyAll_out _ hmiss
    _ = 0 := hm x ((fileSize_le_run ws c).trans hf) hx

/-- A region with the client's data: the reply is the file without the zeros at
its end. -/
theorem sizeReported_of_same {L : Layout} {c : Client} {m : Mem} (ht : c.Tidy) (hL : c.seqOffset = L.seqOffset)
    (hm : ∀ x, x < L.seqOffset → m x = c.buffer.mem x) : SizeReported c (L.region m) := by
  have hused : (getInfo (L.region m)).size = c.buffer.mem.used L.seqOffset := by
    rw [← Mem.used_congr hm]
    exact L.findSize_region m
  have hle : c.buffer.mem.used L.seqOffset ≤ c.fileSize := by
    rw [Mem.used_le_iff, ← hL]
    exact ht.clean
  have hsize : c.fileSize ≤ L.seqOffset := hL ▸ ht.size_le
  refine ⟨hused ▸ hle, ?_, fun x hx hlt => ?_⟩
  · rw [hused]
    constructor
    · intro heq
      have hlast := Mem.used_last c.buffer.mem L.seqOffset
      rwa [heq] at hlast
    · intro hlast
      by_contra hne
      have hlt : c.buffer.mem.used L.seqOffset < c.fileSize := lt_of_le_of_ne hle hne
      rcases hlast with hzero | hbyte
      · omega
      · exact hbyte (Mem.zero_of_used_le _ L.seqOffset _ (by omega) (by omega))
  · rw [hused] at hx
    exact Mem.zero_of_used_le _ L.seqOffset x hx (hlt.trans_le hsize)

/-- **What the server can know of a file's size.** On every region with a trailer
`findSize` is the least length with only zeros behind it. After any calls in
bounds the size reported is at most `file_size`, and after calls shorter than
`2^32` it is the file's size without the zeros at its end. -/
theorem reported_size {L : Layout} {ws : List Call} (ha : AllIn (Client.fresh L) ws) :
    (∀ b : Buffer, seqWidth ≤ b.size →
      IsLeast {n | ∀ x, n ≤ x → x < b.size - seqWidth → b.mem x = 0} (findSize b)) ∧
    (getInfo (L.region (applyAll Mem.zero (posts (Client.fresh L) ws)))).size ≤
      ((Client.fresh L).run ws).fileSize ∧
    (AllShort ws →
      SizeReported ((Client.fresh L).run ws) (L.region (applyAll Mem.zero (posts (Client.fresh L) ws)))) := by
  have hwf := Client.fresh_wf L
  have hoff := Client.fresh_seqOffset L
  refine ⟨fun b hb => findSize_isLeast hb, ?_, fun hs => ?_⟩
  · refine (findSize_le_iff L.trailer_le).mpr fun x hf hx => ?_
    exact posts_zero hwf ha (fun _ _ _ => rfl) hf (by rw [hoff]; exact hx)
  · refine sizeReported_of_same (Client.tidy_run ws _ hwf (Client.fresh_tidy L) ha) ?_ fun x _ => ?_
    · rw [Client.run_seqOffset, hoff]
    · exact applyAll_posts ws hwf ha hs rfl

/-- A hole, and a zero at the end that the server does not see. -/
theorem reported_size_tiny : AllIn (Client.fresh tiny) [.append [1, 2], .writePos [3, 0] 4] ∧
    ((Client.fresh tiny).run [.append [1, 2], .writePos [3, 0] 4]).fileSize = 6 ∧
    (getInfo (tiny.region (applyAll Mem.zero
      (posts (Client.fresh tiny) [.append [1, 2], .writePos [3, 0] 4])))).size = 5 ∧
    SizeReported ((Client.fresh tiny).run [.append [1, 2], .writePos [3, 0] 4]) (tiny.region (applyAll Mem.zero
      (posts (Client.fresh tiny) [.append [1, 2], .writePos [3, 0] 4]))) :=
  ⟨by decide, by decide, by decide, (reported_size (by decide)).2.2 (by decide)⟩

theorem not_sizeReported_long {n : ℕ} (hn : n = 2 ^ 32 + 1) :
    ¬ SizeReported ((Client.fresh huge).run [filling n])
      (huge.region (applyAll Mem.zero (posts (Client.fresh huge) [filling n]))) := by
  have hwf := Client.fresh_wf huge
  have hoff := Client.fresh_seqOffset huge
  rintro ⟨-, -, hrest⟩
  have hone : (getInfo (huge.region (applyAll Mem.zero (posts (Client.fresh huge) [filling n])))).size ≤ 1 := by
    refine (findSize_le_iff (b := huge.region _) huge.trailer_le).mpr fun x h1 hx => ?_
    rw [posts, posts, List.append_nil]
    exact filling_pair hn hoff hwf h1 hx rfl
  have hlong : 1 < ((Client.fresh huge).run [filling n]).fileSize := by
    rw [Client.run_cons, Client.run_nil, Client.call_fileSize, filling_size hn hoff hwf]
    refine lt_max_of_lt_right ?_
    show 1 < (0 + n) % 2 ^ 64
    omega
  exact filling_image hn hoff hwf (hrest 1 hone hlong)

/-- A call of `2^32 + 1` bytes, of which one is posted: the server reports 1. -/
theorem long_call_unreported : ¬ ∀ (L : Layout) (ws : List Call), AllIn (Client.fresh L) ws →
    SizeReported ((Client.fresh L).run ws) (L.region (applyAll Mem.zero (posts (Client.fresh L) ws))) := by
  intro h
  refine not_sizeReported_long (n := 2 ^ 32 + 1) rfl (h huge [filling (2 ^ 32 + 1)] ⟨?_, trivial⟩)
  exact filling_inBounds rfl (Client.fresh_seqOffset huge)

end ComputeSideLog
