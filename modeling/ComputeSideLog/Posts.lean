/-
# What a client posts to its peers

Every `Append` and `WritePos` ends in `WriteQuorum`, which posts two RDMA
writes to each peer with `writeTwoPlace`: the data, and then the trailer.
Lengths are 32 bits wide, so the data's length is taken modulo `2^32`. This
file lists the writes of an epoch with their source bytes as of the post
(`posts`) and says what a peer holds that has applied a prefix of them: the
client's buffer after as many calls, with the data possibly one call ahead
of the trailer (`prefix_data`, `prefix_trailer`).

Key definitions: `RdmaWrite`, `Client.writeTwoPlace`, `posts`.
Key theorems: `applyAll_posts`, `prefix_data`, `prefix_trailer`, `prefix_seq`.
-/
import ComputeSideLog.Client
import ComputeSideLog.Server

namespace ComputeSideLog

/-- One RDMA write: a range and the source buffer as of the post. -/
structure RdmaWrite where
  off : ℕ
  len : ℕ
  src : Mem

/-- The remote memory after the write. -/
def RdmaWrite.apply (m : Mem) (o : RdmaWrite) : Mem := m.copy o.src o.off o.len

/-- The remote memory after the writes, in posting order. -/
def applyAll (m : Mem) (os : List RdmaWrite) : Mem := os.foldl RdmaWrite.apply m

/-- `writeTwoPlace` as the client calls it: `size` bytes at `off`, and the
trailer. The local and the remote offsets are the same at every call. -/
def Client.writeTwoPlace (c : Client) (off size : ℕ) : List RdmaWrite :=
  [⟨off, size % 2 ^ 32, c.buffer.mem⟩, ⟨c.seqOffset, seqWidth, c.buffer.mem⟩]

/-- What the calls post to each peer, in order. -/
def posts : Client → List Call → List RdmaWrite
  | _, [] => []
  | c, w :: ws => (c.call w).writeTwoPlace (w.off c) (w.size c) ++ posts (c.call w) ws

/-- Every call is shorter than what a 32-bit length can say. -/
def AllShort (ws : List Call) : Prop := ∀ w ∈ ws, w.buf.length < 2 ^ 32

instance (ws : List Call) : Decidable (AllShort ws) :=
  inferInstanceAs (Decidable (∀ w ∈ ws, w.buf.length < 2 ^ 32))

theorem posts_length : ∀ (ws : List Call) (c : Client), (posts c ws).length = 2 * ws.length
  | [], _ => rfl
  | w :: ws, c => by
    simp only [posts, Client.writeTwoPlace, List.length_append, List.length_cons, List.length_nil,
      posts_length ws]
    ring

theorem posts_append : ∀ (ws ws' : List Call) (c : Client),
    posts c (ws ++ ws') = posts c ws ++ posts (c.run ws) ws'
  | [], _, _ => rfl
  | w :: ws, ws', c => by
    simp only [List.cons_append, posts, posts_append ws ws', Client.run_cons, List.append_assoc]

theorem applyAll_append (m : Mem) (os os' : List RdmaWrite) :
    applyAll m (os ++ os') = applyAll (applyAll m os) os' := List.foldl_append

/-- The data arrives, and then the trailer. -/
theorem applyAll_writeTwoPlace (m : Mem) (c : Client) (off size : ℕ) : applyAll m (c.writeTwoPlace off size) =
    (m.copy c.buffer.mem off (size % 2 ^ 32)).copy c.buffer.mem c.seqOffset seqWidth := rfl

/-- A byte outside of the range of every write stays, at a peer. -/
theorem applyAll_out : ∀ (os : List RdmaWrite) {m : Mem} {x : ℕ},
    (∀ o ∈ os, ¬ (o.off ≤ x ∧ x < o.off + o.len)) → applyAll m os x = m x
  | [], _, _, _ => rfl
  | o :: os, m, x, h => by
    show applyAll (o.apply m) os x = _
    rw [applyAll_out os fun o' ho => h o' (List.mem_cons_of_mem _ ho)]
    exact Mem.copy_out (h o List.mem_cons_self)

/-- A posted write is the data or the trailer of the first call, or one of a later
call. -/
theorem mem_posts_cons {c : Client} {w : Call} {ws : List Call} {o : RdmaWrite} (h : o ∈ posts c (w :: ws)) :
    o = ⟨w.off c, w.size c % 2 ^ 32, (c.call w).buffer.mem⟩ ∨
      o = ⟨c.seqOffset, seqWidth, (c.call w).buffer.mem⟩ ∨ o ∈ posts (c.call w) ws := by
  simpa only [posts, Client.writeTwoPlace, Client.call_seqOffset, List.cons_append, List.nil_append,
    List.mem_cons] using h

/-! ### One call at a peer -/

/-- A call in bounds and not too long, on a client whose trailer is in place. -/
structure Sent (c : Client) (w : Call) : Prop where
  wf : c.Wf
  inBounds : w.InBounds c
  short : w.buf.length < 2 ^ 32

theorem Sent.len {c : Client} {w : Call} (h : Sent c w) : w.size c % 2 ^ 32 = w.size c := by
  rw [Client.size_of_inBounds h.wf h.inBounds]
  exact Nat.mod_eq_of_lt h.short

theorem Sent.end_le {c : Client} {w : Call} (h : Sent c w) : w.off c + w.size c ≤ c.seqOffset := by
  rw [Client.size_of_inBounds h.wf h.inBounds]
  exact h.inBounds

/-- The data write brings the data region up to the call. -/
theorem data_apply {c : Client} {w : Call} (h : Sent c w) {m : Mem} {x : ℕ} (hx : x < c.seqOffset)
    (hm : m x = c.buffer.mem x) :
    RdmaWrite.apply m ⟨w.off c, w.size c % 2 ^ 32, (c.call w).buffer.mem⟩ x =
      (c.call w).buffer.mem x := by
  rw [h.len, RdmaWrite.apply]
  by_cases hin : w.off c ≤ x ∧ x < w.off c + w.size c
  · exact Mem.copy_in hin
  · have hout : ¬ w.Writes c x := by
      rintro (h1 | h1)
      · exact hin h1
      · rw [h.wf.addr] at h1
        omega
    rw [Mem.copy_out hin, hm, Client.call_mem_off hout]

/-- The pair brings every byte up to the call. -/
theorem pair_apply {c : Client} {w : Call} (h : Sent c w) {m : Mem} {x : ℕ}
    (hm : m x = c.buffer.mem x ∨ (c.seqOffset ≤ x ∧ x < c.seqOffset + seqWidth)) :
    applyAll m ((c.call w).writeTwoPlace (w.off c) (w.size c)) x = (c.call w).buffer.mem x := by
  rw [applyAll_writeTwoPlace, Client.call_seqOffset]
  by_cases ht : c.seqOffset ≤ x ∧ x < c.seqOffset + seqWidth
  · exact Mem.copy_in ht
  · rw [Mem.copy_out ht]
    have hm := hm.resolve_right ht
    by_cases hx : x < c.seqOffset
    · exact data_apply h hx hm
    · have hend := h.end_le
      have hout : ¬ w.Writes c x := by
        unfold Call.Writes
        rw [h.wf.addr]
        omega
      have hrange : ¬ (w.off c ≤ x ∧ x < w.off c + w.size c) := by omega
      rw [h.len, Mem.copy_out hrange, hm, Client.call_mem_off hout]

/-! ### A whole epoch -/

/-- A byte that agrees with the client's before the calls agrees after all of
them are applied. -/
theorem applyAll_posts : ∀ (ws : List Call) {c : Client} {m : Mem} {x : ℕ}, c.Wf → AllIn c ws →
    AllShort ws → m x = c.buffer.mem x → applyAll m (posts c ws) x = (c.run ws).buffer.mem x
  | [], _, _, _, _, _, _, hm => hm
  | w :: ws, c, m, x, hc, ha, hs, hm => by
    rw [posts, applyAll_append, Client.run_cons]
    refine applyAll_posts ws (hc.call w) ha.2 (fun v hv => hs v (List.mem_cons_of_mem _ hv)) ?_
    exact pair_apply ⟨hc, ha.1, hs w List.mem_cons_self⟩ (.inl hm)

/-- Calls do not shorten the file. -/
theorem fileSize_le_run : ∀ (ws : List Call) (c : Client), c.fileSize ≤ (c.run ws).fileSize := by
  intro ws
  induction ws with
  | nil => exact fun _ => le_rfl
  | cons w ws ih =>
    intro c
    have hstep : c.fileSize ≤ (c.call w).fileSize := by
      rw [Client.call_fileSize]
      exact le_max_left _ _
    exact hstep.trans (ih (c.call w))

/-- Past the end of the file, and apart from the trailer, no write of the calls
lands. -/
theorem posts_past_end : ∀ (ws : List Call) {c : Client} {x : ℕ}, c.Wf → AllIn c ws →
    ¬ (c.seqOffset ≤ x ∧ x < c.seqOffset + seqWidth) → (c.run ws).fileSize ≤ x →
    ∀ o ∈ posts c ws, ¬ (o.off ≤ x ∧ x < o.off + o.len) := by
  intro ws
  induction ws with
  | nil => exact fun _ _ _ _ o ho => absurd ho List.not_mem_nil
  | cons w ws ih =>
    intro c x h ha ht hx o ho
    have hmod := Nat.mod_le (w.size c) (2 ^ 32)
    have hgrow := fileSize_le_run ws (c.call w)
    have hfile := Client.call_fileSize c w
    rw [Nat.mod_eq_of_lt (Client.end_lt h ha.1)] at hfile
    rw [Client.run_cons] at hx
    rcases mem_posts_cons ho with rfl | rfl | ho
    · show ¬ (w.off c ≤ x ∧ x < w.off c + w.size c % 2 ^ 32)
      omega
    · exact ht
    · exact ih (h.call w) ha.2 (by rwa [Client.call_seqOffset]) hx o ho

/-- One call is enough for the trailer, whatever it was before. -/
theorem applyAll_posts_trailer : ∀ (ws : List Call) {c : Client} {m : Mem} {x : ℕ},
    c.seqOffset ≤ x ∧ x < c.seqOffset + seqWidth → m x = c.buffer.mem x ∨ ws ≠ [] →
    applyAll m (posts c ws) x = (c.run ws).buffer.mem x := by
  intro ws
  induction ws with
  | nil => exact fun _ hm => hm.resolve_right fun h => h rfl
  | cons w ws ih =>
    intro c m x hx _
    rw [posts, applyAll_append, Client.run_cons]
    refine ih (by simpa using hx) (.inl ?_)
    rw [applyAll_writeTwoPlace, Client.call_seqOffset]
    exact Mem.copy_in hx

/-- The trailer after at least one call. -/
theorem run_trailer_of {c : Client} (hc : c.Wf) (hs : c.seq < 2 ^ 64) {ws : List Call} (hne : ws ≠ []) :
    (c.run ws).buffer.mem.getLE c.seqOffset seqWidth = (c.seq + (ws.length - 1)) % 2 ^ 64 := by
  obtain ⟨ws', w, rfl⟩ := (List.eq_nil_or_concat ws).resolve_left hne
  have h := Client.call_trailer (hc.run ws') w
  rw [Client.run_seqOffset, Client.run_seq ws' _ hs, Nat.mod_mod] at h
  rw [List.concat_eq_append, Client.run_concat, h, List.length_append]
  rfl

/-- The trailer of a fresh client after the calls. -/
theorem run_trailer (L : Layout) (ws : List Call) :
    ((Client.fresh L).run ws).buffer.mem.getLE L.seqOffset seqWidth =
      if ws.length = 0 then 0 else (ws.length - 1) % 2 ^ 64 := by
  by_cases hne : ws = []
  · subst hne
    exact Mem.getLE_zero _ _
  · have h := run_trailer_of (Client.fresh_wf L) (show 0 < 2 ^ 64 by norm_num) hne
    rw [Client.fresh_seqOffset] at h
    rw [h, if_neg fun h0 => hne (List.length_eq_zero_iff.mp h0)]
    simp [Client.fresh, Client.init]

/-! ### A prefix of an epoch

An even prefix of the single writes is that of as many calls; an odd one
ends between a data write and its trailer. -/

theorem posts_take_even : ∀ (k : ℕ) (ws : List Call) (c : Client),
    (posts c ws).take (2 * k) = posts c (ws.take k)
  | 0, _, _ => rfl
  | _ + 1, [], _ => rfl
  | k + 1, w :: ws, c => by
    rw [List.take_succ_cons, posts, posts, ← posts_take_even k ws,
      show 2 * (k + 1) = ((c.call w).writeTwoPlace (w.off c) (w.size c)).length + 2 * k by
        simp [Client.writeTwoPlace]; ring,
      List.take_length_add_append]

theorem posts_take_odd (k : ℕ) (ws : List Call) (c : Client) :
    (posts c ws).take (2 * k + 1) = posts c (ws.take k) ++ (posts (c.run (ws.take k)) (ws.drop k)).take 1 := by
  conv_lhs => rw [← List.take_append_drop k ws]
  rw [posts_append]
  by_cases hk : k ≤ ws.length
  · have hl : (posts c (ws.take k)).length = 2 * k := by
      rw [posts_length, List.length_take, min_eq_left hk]
    rw [← hl, List.take_length_add_append]
  · have hd : ws.drop k = [] := List.drop_eq_nil_of_le (by omega)
    rw [hd, posts, List.append_nil, List.take_nil, List.append_nil]
    refine List.take_of_length_le ?_
    rw [posts_length, List.length_take]
    omega

theorem allIn_take {ws : List Call} {c : Client} (h : AllIn c ws) (k : ℕ) : AllIn c (ws.take k) := by
  rw [← List.take_append_drop k ws, allIn_append] at h
  exact h.1

theorem AllShort.take {ws : List Call} (h : AllShort ws) (k : ℕ) : AllShort (ws.take k) :=
  fun w hw => h w (List.mem_of_mem_take hw)

section Prefix

variable {L : Layout} {ws : List Call} (ha : AllIn (Client.fresh L) ws)
include ha

/-- The call after the first `k` is in bounds. -/
theorem inBounds_drop {k : ℕ} {w : Call} {rest : List Call} (hd : ws.drop k = w :: rest) :
    w.InBounds ((Client.fresh L).run (ws.take k)) := by
  rw [← List.take_append_drop k ws, hd, allIn_append] at ha
  exact ha.2.1

/-- After `j` single writes the trailer is that of `⌊j / 2⌋` calls. -/
theorem prefix_trailer (j : ℕ) {x : ℕ} (hx : L.seqOffset ≤ x ∧ x < L.seqOffset + seqWidth) :
    applyAll Mem.zero ((posts (Client.fresh L) ws).take j) x =
      ((Client.fresh L).run (ws.take (j / 2))).buffer.mem x := by
  have hw := Client.fresh_wf L
  have hk (k : ℕ) : applyAll Mem.zero (posts (Client.fresh L) (ws.take k)) x =
      ((Client.fresh L).run (ws.take k)).buffer.mem x :=
    applyAll_posts_trailer _ (by rwa [Client.fresh_seqOffset]) (.inl rfl)
  rcases Nat.even_or_odd' j with ⟨k, rfl | rfl⟩
  · rw [posts_take_even, show 2 * k / 2 = k by omega]
    exact hk k
  · rw [posts_take_odd, applyAll_append, show (2 * k + 1) / 2 = k by omega, ← hk k]
    cases hd : ws.drop k with
    | nil => rfl
    | cons w rest =>
      -- the data write of the next call ends below the trailer
      have hb := inBounds_drop ha hd
      have hsz := Client.size_of_inBounds (hw.run _) hb
      unfold Call.InBounds at hb
      rw [Client.run_seqOffset, Client.fresh_seqOffset] at hb
      have hle := Nat.mod_le (w.size ((Client.fresh L).run (ws.take k))) (2 ^ 32)
      simp only [posts, Client.writeTwoPlace, List.cons_append, List.take_succ_cons, List.take_zero,
        applyAll, List.foldl_cons, List.foldl_nil, RdmaWrite.apply]
      exact Mem.copy_out (by omega)

/-- After `j` single writes the data region is that of `⌈j / 2⌉` calls. -/
theorem prefix_data (hs : AllShort ws) (j : ℕ) {x : ℕ} (hx : x < L.seqOffset) :
    applyAll Mem.zero ((posts (Client.fresh L) ws).take j) x =
      ((Client.fresh L).run (ws.take ((j + 1) / 2))).buffer.mem x := by
  have hw := Client.fresh_wf L
  have hk (k : ℕ) : applyAll Mem.zero (posts (Client.fresh L) (ws.take k)) x =
      ((Client.fresh L).run (ws.take k)).buffer.mem x :=
    applyAll_posts _ hw (allIn_take ha k) (hs.take k) rfl
  rcases Nat.even_or_odd' j with ⟨k, rfl | rfl⟩
  · rw [posts_take_even, show (2 * k + 1) / 2 = k by omega]
    exact hk k
  · rw [posts_take_odd, applyAll_append, show (2 * k + 1 + 1) / 2 = k + 1 by omega]
    cases hd : ws.drop k with
    | nil =>
      have hle : ws.length ≤ k := List.drop_eq_nil_iff.mp hd
      have htake : ws.take (k + 1) = ws.take k := by
        rw [List.take_of_length_le hle, List.take_of_length_le (hle.trans k.le_succ)]
      rw [htake]
      exact hk k
    | cons w rest =>
      have htake : ws.take (k + 1) = ws.take k ++ [w] := by
        rw [List.take_add_one, ← List.head?_drop, hd]
        rfl
      have hmem : w ∈ ws := List.mem_of_mem_drop (hd ▸ List.mem_cons_self)
      rw [htake, Client.run_concat]
      refine data_apply ⟨hw.run _, inBounds_drop ha hd, hs w hmem⟩ ?_ (hk k)
      rwa [Client.run_seqOffset, Client.fresh_seqOffset]

/-- The sequence number a peer reports after `j` single writes: one less than
the number of trailers it has applied, or 0 if it has none. -/
theorem prefix_seq (j : ℕ) :
    readSeqNum (L.region (applyAll Mem.zero ((posts (Client.fresh L) ws).take j))) =
      if min (j / 2) ws.length = 0 then 0 else (min (j / 2) ws.length - 1) % 2 ^ 64 := by
  rw [L.readSeqNum_region, Mem.getLE_congr fun x h1 h2 => prefix_trailer ha j ⟨h1, h2⟩,
    ← List.length_take]
  exact run_trailer L _

end Prefix

end ComputeSideLog
