/-
# Where client and server look for the trailer

A client writes its sequence number at `buf_size - 8`, counted from the size
it asked for (`init` in `src/rdma/client.cc`); the server reads it from the
last eight bytes of the region and takes everything before them for data
(`ReadSeqNum`, `findSize` in `src/rdma/server.cc`). The region comes from
the pool, which hands out the smallest free one that is large enough
(`src/rdma/mr_pool.cc`), so it can be larger than what was asked for. Then
the server looks for the trailer behind the one the client writes.

Key definitions: `Server.Introduces`, `Server.Agrees`.
Key theorems: `agrees_of_size`, `disagrees_of_larger`, `trailer_agreement`.
-/
import ComputeSideLog.Serve
import ComputeSideLog.Bounds
import ComputeSideLog.Kept

namespace ComputeSideLog

/-! ### What the server reads -/

namespace Server

variable {F : Type*} [DecidableEq F]

/-- A new client introduces its file: by its connection, or by `OPEN_FILE` on a
connection that was kept. -/
def Introduces (s : Server F) (addr socket : ℕ) (fileId : F) (size : ℕ) (r : Handled F) : Prop :=
  s.handleIncomingConnection addr socket fileId size = some r ∨
    (socket ∈ s.existingQps ∧ s.openFile addr socket fileId size = some r)

/-- Once all writes of the calls are applied to the file's region, `ReadSeqNum`
is the number the client stored last, and `findSize` is not above its
`file_size`. -/
def Agrees (s : Server F) (fileId : F) (g : Grant) (ws : List Call) : Prop :=
  ∃ mr, s.region fileId = some mr ∧
    readSeqNum (mr.buffer (applyAll (s.pool.mem mr.addr) (posts g.client ws))) =
      (g.client.run ws).buffer.mem.getLE g.client.seqAddr seqWidth ∧
    findSize (mr.buffer (applyAll (s.pool.mem mr.addr) (posts g.client ws))) ≤ (g.client.run ws).fileSize

/-- The file gets the region that the pool hands out, zeroed. -/
theorem Introduces.region {s : Server F} {addr socket size : ℕ} {fileId : F} {r : Handled F}
    (h : s.Introduces addr socket fileId size r) (hp : s.pool.FreeSet) (hs : size < 2 ^ 64)
    (hf : s.localCons fileId = none) : ∃ q mr, s.pool.getMRofSize size addr = some (q, mr) ∧
      r.server.region fileId = some mr ∧ r.server.pool.mem mr.addr = Mem.zero := by
  rcases h with h | ⟨hqp, h⟩
  · unfold handleIncomingConnection at h
    rw [hf] at h
    dsimp only at h
    split at h
    · cases h
    · rename_i pool mr hget
      cases h
      exact ⟨pool, mr, hget, by rw [region_bind, if_pos rfl], Function.update_self _ _ _⟩
  · unfold Server.openFile at h
    rw [hf] at h
    dsimp only at h
    rw [if_pos hqp] at h
    split at h
    · cases h
    · rename_i pool mr hget
      cases h
      exact ⟨pool, mr, hget, by rw [region_bind, if_pos rfl], (hp.handed hs hget).2.2.2⟩

end Server

section

variable {g : Grant} {mr : Mr} {ws : List Call}

theorem Mr.buffer_size {m : Mem} (h : mr.size < 2 ^ 64) : (mr.buffer m).size = mr.size := Nat.mod_eq_of_lt h

theorem Mr.readSeqNum_buffer {m : Mem} (h : mr.size < 2 ^ 64) :
    readSeqNum (mr.buffer m) = m.getLE (mr.size - seqWidth) seqWidth := by
  unfold readSeqNum
  rw [Mr.buffer_size h]
  rfl

/-- The trailer of the region is that of the client. -/
theorem applied_trailer (hne : ws ≠ []) : (applyAll Mem.zero (posts g.client ws)).getLE g.client.seqOffset seqWidth =
    (g.client.run ws).buffer.mem.getLE g.client.seqAddr seqWidth := by
  rw [g.wf.addr]
  exact Mem.getLE_congr fun x h1 h2 => applyAll_posts_trailer ws ⟨h1, h2⟩ (.inr hne)

/-- On a region of the size asked for, the server finds what the client wrote. -/
theorem agrees_of_size (hs : mr.size = g.bufSize) (hlt : mr.size < 2 ^ 64) (hne : ws ≠ [])
    (ha : AllIn g.client ws) :
    readSeqNum (mr.buffer (applyAll Mem.zero (posts g.client ws))) =
        (g.client.run ws).buffer.mem.getLE g.client.seqAddr seqWidth ∧
      findSize (mr.buffer (applyAll Mem.zero (posts g.client ws))) ≤ (g.client.run ws).fileSize := by
  have hoff := g.seqOffset_eq
  refine ⟨?_, ?_⟩
  · rw [Mr.readSeqNum_buffer hlt, hs, ← hoff]
    exact applied_trailer hne
  · rw [findSize_le_iff (by rw [Mr.buffer_size hlt, hs]; exact g.trailer_le), Mr.buffer_size hlt, hs, ← hoff]
    intro x hfile hx
    exact applyAll_out _ (posts_past_end ws g.wf ha (by omega) hfile)

/-- Two calls without data: the sequence number stored last is 1. -/
def touches : List Call := [.writePos [] 0, .writePos [] 0]

theorem touches_fileSize (g : Grant) : (g.client.run touches).fileSize = 0 := by
  have hsize : ∀ c : Client, (Call.writePos [] 0).size c = 0 := fun c => Nat.zero_min _
  have hcall : ∀ c : Client, c.fileSize = 0 → (c.call (.writePos [] 0)).fileSize = 0 := by
    intro c hc
    rw [Client.call_fileSize, hsize, hc]
    rfl
  exact hcall _ (hcall _ rfl)

/-- On a larger region, the last eight bytes start behind the low byte of the
trailer, so the server reads 0 after these calls. -/
theorem disagrees_of_larger (hs : g.bufSize < mr.size) (hlt : mr.size < 2 ^ 64) :
    AllIn g.client touches ∧ readSeqNum (mr.buffer (applyAll Mem.zero (posts g.client touches))) ≠
      (g.client.run touches).buffer.mem.getLE g.client.seqAddr seqWidth := by
  have hin : AllIn g.client touches := ⟨Nat.zero_le _, Nat.zero_le _, trivial⟩
  refine ⟨hin, ?_⟩
  have hone : (g.client.run touches).buffer.mem.getLE g.client.seqAddr seqWidth = 1 := by
    rw [g.wf.addr, run_trailer_of g.wf (by show 0 < 2 ^ 64; norm_num) (by simp [touches])]
    rfl
  have hfile := touches_fileSize g
  have hroom := g.trailer_le
  have hoff := g.seqOffset_eq
  -- every byte above the first of the trailer is zero
  have hzero : ∀ x, g.client.seqOffset < x → applyAll Mem.zero (posts g.client touches) x = 0 := by
    intro x hx
    by_cases ht : g.client.seqOffset ≤ x ∧ x < g.client.seqOffset + seqWidth
    · rw [applyAll_posts_trailer touches ht (.inr (by simp [touches]))]
      show ((g.client.call (.writePos [] 0)).call (.writePos [] 0)).buffer.mem x = 0
      rw [Client.call_mem, Client.call_seqAddr, g.wf.addr, Mem.putLE_in ht, Client.call_seq]
      have hpow : 1 < 256 ^ (x - g.client.seqOffset) := Nat.one_lt_pow (by omega) (by norm_num)
      have hseq : (g.client.seq + 1) % 2 ^ 64 = 1 := rfl
      rw [hseq, Nat.div_eq_of_lt hpow]
      rfl
    · exact applyAll_out _ (posts_past_end touches g.wf hin ht (by omega))
  have hread : (applyAll Mem.zero (posts g.client touches)).getLE (mr.size - seqWidth) seqWidth = 0 := by
    rw [← Mem.getLE_zero seqWidth (mr.size - seqWidth)]
    exact Mem.getLE_congr fun x h1 _ => hzero x (by omega)
  rw [hone, Mr.readSeqNum_buffer hlt, hread]
  exact Nat.zero_ne_one

end

/-- **When client and server agree on the trailer.** A server whose pool can
meet the request accepts a new file. It then agrees with the client after
every non-empty sequence of calls in bounds if and only if the pool had no
free region, or one of exactly the size the client asked for. -/
theorem trailer_agreement {F : Type*} [DecidableEq F] {s : Server F} (hp : s.pool.FreeSet) {fileId : F}
    (hf : s.localCons fileId = none) {g : Grant} (ha : s.pool.Adequate g.bufSize) (addr socket : ℕ) :
    (∃ r, s.handleIncomingConnection addr socket fileId g.bufSize = some r) ∧
    ∀ r, s.Introduces addr socket fileId g.bufSize r →
      ((∀ ws, ws ≠ [] → AllIn g.client ws → r.server.Agrees fileId g ws) ↔ s.pool.Exact g.bufSize) := by
  have hs : g.bufSize < 2 ^ 64 := g.size_le.trans_lt g.buffer.size_lt
  constructor
  · obtain ⟨q, mr, hget⟩ := ha.getMRofSize addr
    unfold Server.handleIncomingConnection
    rw [hf, hget]
    exact ⟨_, rfl⟩
  · intro r hr
    obtain ⟨q, mr, hget, hregion, hzero⟩ := hr.region hp hs hf
    obtain ⟨hexact, hle, hlt, -⟩ := hp.handed hs hget
    rw [← hexact]
    constructor
    · intro h
      by_contra hne
      have hlarger : g.bufSize < mr.size := lt_of_le_of_ne hle (Ne.symm hne)
      obtain ⟨hin, hbad⟩ := disagrees_of_larger hlarger hlt
      obtain ⟨mr', hmr', hseq, -⟩ := h touches (by simp [touches]) hin
      rw [hregion, Option.some.injEq] at hmr'
      subst hmr'
      rw [hzero] at hseq
      exact hbad hseq
    · intro hsize ws hne hin
      refine ⟨mr, hregion, ?_⟩
      rw [hzero]
      exact agrees_of_size hsize hlt hne hin

/-- A server without files whose pool has these free regions. -/
def idleServer (mrs : List Mr) : Server ℕ := ⟨[], ⟨mrs, fun _ => Mem.zero, mrs⟩, fun _ => none⟩

/-- Regions of 16 and 32 bytes are free, and the client asks for 16. -/
theorem trailer_agreement_exact :
    let s := idleServer [⟨0, 16⟩, ⟨1, 32⟩]
    let g : Grant := ⟨tiny.region Mem.zero, 16, by decide, by decide⟩
    ∃ r, s.handleIncomingConnection 2 5 0 16 = some r ∧
      ∀ ws, ws ≠ [] → AllIn g.client ws → r.server.Agrees 0 g ws := by
  intro s g
  have hp : s.pool.FreeSet := ⟨by decide, by decide, fun _ _ => rfl⟩
  have hex : s.pool.Exact 16 := .inr ⟨⟨0, 16⟩, by decide, rfl⟩
  have hf : s.localCons 0 = none := rfl
  have ha : s.pool.Adequate g.bufSize := .inr ⟨⟨0, 16⟩, by decide, by decide⟩
  obtain ⟨⟨r, hr⟩, hiff⟩ := trailer_agreement hp hf ha 2 5
  exact ⟨r, hr, (hiff r (.inl hr)).mpr hex⟩

/-- Only a region of 32 bytes is free, and the client asks for 16: after two
appends the server reads the sequence number 0, and takes the client's
trailer for data. -/
theorem trailer_misplaced : ¬ ∀ (s : Server ℕ) (fileId : ℕ) (g : Grant) (addr socket : ℕ) (r : Handled ℕ)
    (ws : List Call), s.pool.FreeSet → s.localCons fileId = none → 16 ≤ g.bufSize →
    s.pool.Adequate g.bufSize → s.handleIncomingConnection addr socket fileId g.bufSize = some r →
    ws ≠ [] → AllIn g.client ws → r.server.Agrees fileId g ws := by
  intro h
  obtain ⟨mr, hmr, hseq, -⟩ := h (idleServer [⟨0, 32⟩]) 0 ⟨tiny.region Mem.zero, 16, by decide, by decide⟩ 1 5 _
    [.append [7], .append [8]] ⟨by decide, by decide, fun _ _ => rfl⟩ rfl (by decide)
    (.inr ⟨⟨0, 32⟩, by decide, by decide⟩) rfl (by decide) (by decide)
  obtain rfl : mr = ⟨0, 32⟩ := (Option.some.inj hmr).symm
  revert hseq
  decide

end ComputeSideLog
