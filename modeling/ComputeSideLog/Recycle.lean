/-
# Recycled clients

`CSLClientPool` keeps clients for the next file: `RecycleClient` runs
`Reset`, and `GetClient` takes an idle client, runs `ReplaceBuffer` and
`SetFileInfo` and, if asked, `TryRecover` (`src/client_pool.cc`). `Reset`
clears the buffer and the offset; `file_size` and `seq` keep their values,
and a recovery that finds no source does not touch them.

`Reset` does not wait for the writes of the last file either: `WriteQuorum`
returns on a quorum, and what is in flight to a slow peer may land after the
server has handled `CLOSE_FILE`, in a region that it has given to the next file
(`Pool.reused`).

`Alike` compares what a sequence of operations returns and leaves in the
peers' data regions on two clients. The stale size shows at once; the stale
sequence number only to an application that reads the trailer as data, which
operations that stay within the file cannot (`AllWithin`, `Sim`); and a late
write unless it is `Harmless`.

Key definitions: `Pool.recycleClient`, `Pool.getClient`, `Pool.newClient`,
`Pool.reused`, `Harmless`, `Alike`, `AllFit`, `AllWithin`, `Sim`.
Key theorems: `Pool.getClient_recycled`, `Pool.inFlight_client`,
`Pool.inFlight_peers`, `Sim.op`, `Sim.ops`, `reused_harmless`, `reused_only`,
`recycled_like_new_iff`.
-/
import ComputeSideLog.Recover
import ComputeSideLog.Ops

namespace ComputeSideLog

/-! ### The pool's operations on one client -/

namespace Pool

variable {α : Type*} [DecidableEq α]

/-- `RecycleClient`. -/
def recycleClient (c : Client) : Client := c.reset

/-- `GetClient` with an idle client: `mr` is what `GetMRofSize` would return,
`ps` the peers with the regions that the servers bound to the file. -/
def getClient (c : Client) (size : ℕ) (mr : Buffer) (ps : List (Peer α)) (tryRecover : Bool) :
    Client × List (Peer α) :=
  let c := (c.replaceBuffer size mr).setFileInfo size
  if tryRecover then c.tryRecover ps else (c, ps)

/-- `GetClient` without one: the constructor. -/
def newClient (L : Layout) (ps : List (Peer α)) (tryRecover : Bool) : Client × List (Peer α) :=
  if tryRecover then (Client.fresh L).tryRecover ps else (Client.fresh L, ps)

/-- Peers on which no server holds data for the file. -/
def emptyPeers (L : Layout) (addrs : List α) : List (Peer α) := addrs.map fun a => ⟨a, L.region Mem.zero⟩

/-- `TryRecover` while writes of the client's last file are in flight. After its
reply to `GET_INFO` the peer `a` still applies `late a`; a connection keeps its
order, so these land before all that the client reads or writes there. -/
def tryRecoverInFlight (c : Client) (ps : List (Peer α)) (late : α → List RdmaWrite) : Client × List (Peer α) :=
  let src := getRecoverSrcPeer ps
  let ps' := ps.map fun p => p.apply (late p.addr)
  let c' :=
    if 0 < src.2 then
      match src.1.bind fun a => ps'.find? fun p => p.addr = a with
      | some p => c.recoverFromSrc p src.2
      | none => c
    else c
  (c', c'.syncPeers ps' src.1 fun _ => 2)

/-- `GetClient` meanwhile; `early a` lands at `a` before the reply. -/
def getClientInFlight (c : Client) (size : ℕ) (mr : Buffer) (ps : List (Peer α)) (early late : α → List RdmaWrite)
    (tryRecover : Bool) : Client × List (Peer α) :=
  let c := (c.replaceBuffer size mr).setFileInfo size
  let ps := ps.map fun p => p.apply (early p.addr)
  if tryRecover then tryRecoverInFlight c ps late else (c, ps.map fun p => p.apply (late p.addr))

/-- A client whose file had the history `hist` is recycled and taken for another
one. The peer `a` handles `CLOSE_FILE` when `landed a` of the writes have landed;
the others find their region with the new file, `asked a` of them before the
reply to `GET_INFO`. -/
def reused (L : Layout) (c₀ : Client) (hist : List Op) (landed asked : α → ℕ) (mr : Buffer) (addrs : List α)
    (tryRecover : Bool) : Client × List (Peer α) :=
  let rest a := (c₀.opsPosts hist).drop (landed a)
  getClientInFlight (recycleClient (c₀.ops hist).1) L.size mr (emptyPeers L addrs) (fun a => (rest a).take (asked a))
    (fun a => (rest a).drop (asked a)) tryRecover

end Pool

section Alike

variable {α : Type*}

end Alike

/-- Writes and truncations end at or below the trailer. -/
def Op.Fit (c : Client) : Op → Prop
  | .append buf => c.bufOffset + buf.length ≤ c.seqOffset
  | .writePos buf pos => pos + buf.length ≤ c.seqOffset
  | .truncate length => toSize length ≤ c.seqOffset
  | _ => True

instance (c : Client) : ∀ o : Op, Decidable (o.Fit c)
  | .append buf => inferInstanceAs (Decidable (c.bufOffset + buf.length ≤ c.seqOffset))
  | .writePos buf pos => inferInstanceAs (Decidable (pos + buf.length ≤ c.seqOffset))
  | .truncate length => inferInstanceAs (Decidable (toSize length ≤ c.seqOffset))
  | .read _ | .readPos _ _ | .seek _ _ | .getLine _ | .eof | .getFileSize => instDecidableTrue

/-- Moreover, reads start in the file, and `GetLine` finds a byte of the data
region after the end of the file. -/
def Op.Within (c : Client) (o : Op) : Prop :=
  o.Fit c ∧ match o with
    | .read _ => c.bufOffset ≤ c.fileSize
    | .readPos _ pos => pos ≤ c.fileSize
    | .getLine _ => c.fileSize < c.seqOffset
    | _ => True

/-- Every operation of the sequence fits when it is made. -/
def AllFit : Client → List Op → Prop
  | _, [] => True
  | c, o :: os => o.Fit c ∧ AllFit (c.op o).1 os

instance : ∀ (c : Client) (os : List Op), Decidable (AllFit c os)
  | _, [] => instDecidableTrue
  | c, o :: os =>
    haveI := instDecidableAllFit (c.op o).1 os
    inferInstanceAs (Decidable (o.Fit c ∧ AllFit (c.op o).1 os))

/-- Every operation of the sequence stays within the file when it is made. -/
def AllWithin : Client → List Op → Prop
  | _, [] => True
  | c, o :: os => o.Within c ∧ AllWithin (c.op o).1 os

/-- A client that any use has left on a region of the layout: fresh, recovered
or recycled before. -/
structure Usable (L : Layout) (c : Client) : Prop where
  geometry : c.geometry = (Client.fresh L).geometry
  outside : ∀ x, L.size ≤ x → c.buffer.mem x = 0
  seq_lt : c.seq < 2 ^ 64

theorem usable_fresh (L : Layout) : Usable L (Client.fresh L) := ⟨rfl, fun _ _ => rfl, by
  show 0 < 2 ^ 64
  norm_num⟩

section Usable

variable {L : Layout} {c : Client}

theorem Usable.eqs (h : Usable L c) : c.buffer.size = L.size ∧ c.bufSize = L.size ∧
    c.seqOffset = L.seqOffset ∧ c.seqAddr = L.seqOffset := by
  have hg := h.geometry
  simp only [Client.geometry, Prod.mk.injEq, Client.fresh_seqOffset] at hg
  exact ⟨hg.1, hg.2.1, hg.2.2.1, hg.2.2.2.trans (Client.fresh_seqOffset L)⟩

theorem Usable.wf (h : Usable L c) : c.Wf where
  addr := by rw [h.eqs.2.2.1, h.eqs.2.2.2]
  room := by rw [h.eqs.2.2.1, h.eqs.1, L.seqOffset_add]

theorem Usable.call (h : Usable L c) {w : Call} (hw : w.InBounds c) : Usable L (c.call w) := by
  obtain ⟨hsize, -, hoff, haddr⟩ := h.eqs
  have hend := Client.size_of_inBounds h.wf hw
  have hlay := L.seqOffset_add
  refine ⟨?_, fun x hx => ?_, ?_⟩
  · rw [← h.geometry]
    cases w <;> rfl
  · refine (Client.call_mem_off ?_).trans (h.outside x hx)
    unfold Call.Writes
    unfold Call.InBounds at hw
    omega
  · rw [Client.call_seq]
    exact Nat.mod_lt _ (by norm_num)

theorem Usable.op (h : Usable L c) {o : Op} (ho : o.Fit c) : Usable L (c.op o).1 := by
  cases hw : o.call with
  | some w =>
    rw [Client.op_of_call hw]
    refine h.call ?_
    cases o with
    | append buf =>
      cases hw
      exact ho
    | writePos buf pos =>
      cases hw
      exact ho
    | _ => simp [Op.call] at hw
  | none =>
    by_cases ht : ∃ l, o = .truncate l
    · obtain ⟨l, rfl⟩ := ht
      show Usable L (c.truncate l)
      unfold Client.truncate
      dsimp only
      split
      · refine ⟨h.geometry, fun x hx => ?_, h.seq_lt⟩
        show (if _ then _ else _) = _
        split
        · rfl
        · exact h.outside x hx
      · exact ⟨h.geometry, h.outside, h.seq_lt⟩
    · obtain ⟨off, he⟩ := Client.op_frame (c := c) hw fun l hl => ht ⟨l, hl⟩
      rw [he]
      exact ⟨h.geometry, h.outside, h.seq_lt⟩

theorem Usable.ops : ∀ (os : List Op) {c : Client}, Usable L c → AllFit c os → Usable L (c.ops os).1
  | [], _, h, _ => h
  | _ :: os, _, h, ha => Usable.ops os (h.op ha.1) ha.2

/-- `Reset` leaves nothing in the buffer. -/
theorem Usable.reset_mem (h : Usable L c) : c.reset.buffer.mem = Mem.zero := by
  funext x
  show (if 0 ≤ x ∧ x < 0 + c.bufSize then _ else _) = _
  split
  · rfl
  · rename_i hx
    rw [h.eqs.2.1] at hx
    exact h.outside x (by omega)

/-- The recycled client: a fresh one with the old size and sequence number. -/
theorem Usable.reset_eq (h : Usable L c) :
    c.reset = { Client.fresh L with fileSize := c.fileSize, seq := c.seq } := by
  have hmem := h.reset_mem
  obtain ⟨hsize, hbuf, hoff, haddr⟩ := h.eqs
  have hfresh := Client.fresh_seqOffset L
  obtain ⟨⟨sz, hlt, mem⟩, bs, bo, fs, sq, so, sa⟩ := c
  simp only [Client.reset, Client.fresh, Client.init, Layout.region] at *
  subst hsize hbuf
  simp only [hmem, hoff, haddr, hfresh]

end Usable

namespace Pool

variable {α : Type*} [DecidableEq α] {L : Layout} {c : Client}

omit [DecidableEq α] in
theorem emptyPeers_not_eligible (addrs : List α) : ∀ p ∈ emptyPeers L addrs, ¬ p.Eligible := by
  intro p hp hel
  obtain ⟨a, -, rfl⟩ := List.mem_map.mp hp
  exact hel.1 (Mem.getLE_zero _ _)

/-- A client with an empty buffer recovers nothing from empty peers and sends
them zeros only. -/
theorem tryRecover_empty (hc : c.buffer.mem = Mem.zero) (addrs : List α) :
    c.tryRecover (emptyPeers L addrs) = (c, emptyPeers L addrs) := by
  have hg := getRecoverSrcPeer_none (emptyPeers_not_eligible (L := L) addrs)
  have hrec : c.recovered (emptyPeers L addrs) = c := by
    unfold Client.recovered
    rw [hg]
    rfl
  have hcopy : ∀ off len, Mem.zero.copy Mem.zero off len = Mem.zero :=
    fun off len => Mem.copy_eq_self fun _ _ _ => rfl
  unfold Client.tryRecover
  simp only [hrec, hg, Prod.mk.injEq, true_and]
  unfold Client.syncPeers
  refine (List.map_congr_left fun p hp => ?_).trans (List.map_id _)
  obtain ⟨a, -, rfl⟩ := List.mem_map.mp hp
  simp only [reduceCtorEq, if_false, id_eq]
  simp only [Peer.apply, sync_two, hc, Layout.region_mem, hcopy]
  rfl

omit [DecidableEq α] in
/-- `ReplaceBuffer` and `SetFileInfo` change nothing on a client of this size. -/
theorem refit_reset (h : Usable L c) (mr : Buffer) :
    (c.reset.replaceBuffer L.size mr).setFileInfo L.size =
      { Client.fresh L with fileSize := c.fileSize, seq := c.seq } := by
  have hsize : c.reset.buffer.size = L.size := h.eqs.1
  have hbuf : c.reset.bufSize = L.size := h.eqs.2.1
  unfold Client.replaceBuffer
  rw [if_pos hsize.ge]
  unfold Client.setFileInfo
  rw [← hbuf]
  exact h.reset_eq

/-- The pool hands out the recycled client as `Reset` left it, whether it tries
to recover or not. -/
theorem getClient_recycled (h : Usable L c) (mr : Buffer) (addrs : List α) (tryRecover : Bool) :
    getClient (recycleClient c) L.size mr (emptyPeers L addrs) tryRecover =
      ({ Client.fresh L with fileSize := c.fileSize, seq := c.seq }, emptyPeers L addrs) := by
  unfold getClient recycleClient
  simp only [refit_reset h mr]
  cases tryRecover with
  | false => rfl
  | true => exact tryRecover_empty rfl addrs

theorem newClient_eq (addrs : List α) (tryRecover : Bool) :
    newClient L (emptyPeers L addrs) tryRecover = (Client.fresh L, emptyPeers L addrs) := by
  cases tryRecover with
  | false => rfl
  | true => exact tryRecover_empty rfl addrs

section InFlight

variable {mr : Buffer} {addrs : List α} {early late : α → List RdmaWrite} {tryRecover : Bool}

end InFlight

end Pool

/-! ### Clients that differ in the sequence number only -/

/-- `c` and `f` agree except for the sequence number and the trailer. -/
structure Sim (c f : Client) : Prop where
  geometry : c.geometry = f.geometry
  offset : c.bufOffset = f.bufOffset
  fileSize : c.fileSize = f.fileSize
  mem : ∀ x, ¬ (f.seqOffset ≤ x ∧ x < f.seqOffset + seqWidth) → c.buffer.mem x = f.buffer.mem x
  wf : f.Wf
  size_le : f.fileSize ≤ f.seqOffset

section Sim

variable {c f : Client}

theorem Sim.eqs (h : Sim c f) : c.buffer.size = f.buffer.size ∧ c.bufSize = f.bufSize ∧
    c.seqOffset = f.seqOffset ∧ c.seqAddr = f.seqAddr := by
  have hg := h.geometry
  simp only [Client.geometry, Prod.mk.injEq] at hg
  exact hg

/-- Both offsets moved to the same place. -/
theorem Sim.move (h : Sim c f) (off : ℕ) : Sim { c with bufOffset := off } { f with bufOffset := off } :=
  ⟨h.geometry, rfl, h.fileSize, h.mem, ⟨h.wf.addr, h.wf.room⟩, h.size_le⟩

theorem Sim.off (h : Sim c f) (w : Call) : w.off c = w.off f := by
  cases w with
  | append buf => exact h.offset
  | writePos buf pos => rfl

theorem Sim.size (h : Sim c f) (w : Call) : w.size c = w.size f := by
  unfold Call.size Client.clamp
  rw [h.off, h.eqs.1]

theorem Sim.call (h : Sim c f) {w : Call} (hw : w.InBounds f) : Sim (c.call w) (f.call w) where
  geometry := by
    have hg := h.geometry
    cases w <;> exact hg
  offset := by
    have hsize := h.size w
    cases w with
    | append buf =>
      show (c.bufOffset + (Call.append buf).size c) % 2 ^ 64 =
        (f.bufOffset + (Call.append buf).size f) % 2 ^ 64
      rw [h.offset, hsize]
    | writePos buf pos => exact h.offset
  fileSize := by rw [Client.call_fileSize, Client.call_fileSize, h.fileSize, h.off, h.size]
  mem := by
    intro x hx
    rw [Client.call_seqOffset] at hx
    rw [Client.call_mem, Client.call_mem, h.off, h.size, h.eqs.2.2.2, h.wf.addr, Mem.putLE_out hx,
      Mem.putLE_out hx]
    unfold Mem.write
    rw [h.mem x hx]
  wf := h.wf.call w
  size_le := by
    have hend := Client.end_lt h.wf hw
    rw [Client.call_fileSize, Client.call_seqOffset, Nat.mod_eq_of_lt hend, Client.size_of_inBounds h.wf hw]
    exact max_le h.size_le hw

theorem Sim.slice (h : Sim c f) {off len : ℕ} (hend : off + len ≤ f.seqOffset) :
    c.buffer.mem.slice off len = f.buffer.mem.slice off len := by
  unfold Mem.slice
  refine List.map_congr_left fun i hi => h.mem _ ?_
  rw [List.mem_range] at hi
  omega

/-- A read that starts in the file ends in it. -/
theorem Sim.read_end (h : Sim c f) (size : ℕ) {pos : ℕ} (hpos : pos ≤ f.fileSize) :
    pos + min size (subSize f.fileSize pos) ≤ f.fileSize := by
  have hlt := f.buffer.size_lt
  have hroom := h.wf.room
  have hle := h.size_le
  rw [subSize_of_le hpos (by omega)]
  omega

theorem Sim.read (h : Sim c f) (size : ℕ) (hw : f.bufOffset ≤ f.fileSize) :
    (c.read size).2 = (f.read size).2 ∧ Sim (c.read size).1 (f.read size).1 := by
  have hend := h.read_end size hw
  have hsize : min size (subSize c.fileSize c.bufOffset) = min size (subSize f.fileSize f.bufOffset) := by
    rw [h.fileSize, h.offset]
  unfold Client.read
  dsimp only
  rw [hsize, h.offset]
  exact ⟨h.slice (hend.trans h.size_le), h.move _⟩

/-- The loop of `GetLine` stops at the end of the file or one byte after it. -/
theorem lineLoop_end (hf : f.fileSize < 2 ^ 64) (n len : ℕ) (h : f.bufOffset + len < f.fileSize) :
    f.bufOffset + f.lineLoop len n ≤ f.fileSize + 1 := by
  induction n generalizing len with
  | zero =>
    unfold Client.lineLoop
    omega
  | succ n ih =>
    unfold Client.lineLoop
    split
    · omega
    · split
      · omega
      · rename_i hlt
        rw [Nat.mod_eq_of_lt (by omega)] at hlt
        exact ih (len + 1) (by omega)

theorem Sim.lineLoop (h : Sim c f) (hw : f.fileSize < f.seqOffset) (n len : ℕ)
    (hlen : f.bufOffset + len < f.fileSize) : c.lineLoop len n = f.lineLoop len n := by
  induction n generalizing len with
  | zero => rfl
  | succ n ih =>
    have hlt := f.buffer.size_lt
    have hroom := h.wf.room
    unfold Client.lineLoop
    rw [h.offset, h.fileSize, h.mem _ (by omega)]
    split
    · rfl
    · split
      · rfl
      · rename_i hend
        rw [Nat.mod_eq_of_lt (by omega)] at hend
        exact ih (len + 1) (by omega)

theorem Sim.getLine (h : Sim c f) (size : ℤ) (hw : f.fileSize < f.seqOffset) :
    (c.getLine size).2 = (f.getLine size).2 ∧ Sim (c.getLine size).1 (f.getLine size).1 := by
  have hlt := f.buffer.size_lt
  have hroom := h.wf.room
  have heof : c.eof = f.eof := by
    unfold Client.eof
    rw [h.fileSize, h.offset]
  unfold Client.getLine
  rw [heof]
  by_cases he : f.eof = true
  · rw [if_pos he, if_pos he]
    exact ⟨rfl, h⟩
  · rw [if_neg he, if_neg he]
    unfold Client.eof at he
    have hoff : f.bufOffset + 0 < f.fileSize := by simpa using he
    have hend := lineLoop_end (f := f) (by omega) (size - 1).toNat 0 hoff
    have hloop := h.lineLoop hw (size - 1).toNat 0 hoff
    simp only [hloop, h.offset, Option.some.injEq]
    exact ⟨h.slice (by omega), h.move _⟩

theorem Sim.truncate (h : Sim c f) {length : ℤ} (hw : toSize length ≤ f.seqOffset) :
    Sim (c.truncate length) (f.truncate length) := by
  unfold Client.truncate
  dsimp only
  rw [h.offset]
  split
  · refine ⟨h.geometry, rfl, rfl, fun x hx => ?_, ⟨h.wf.addr, h.wf.room⟩, hw⟩
    show (if _ then _ else _) = if _ then _ else _
    rw [h.mem x hx]
  · exact ⟨h.geometry, rfl, rfl, h.mem, ⟨h.wf.addr, h.wf.room⟩, hw⟩

theorem Sim.seek (h : Sim c f) (offset : ℤ) (whence : Whence) :
    Sim (c.seek offset whence) (f.seek offset whence) := by
  have hoff : (c.seek offset whence).bufOffset = (f.seek offset whence).bufOffset := by
    cases whence with
    | other => exact h.offset
    | seekSet =>
      show min _ (subSize c.buffer.size 1) = min _ (subSize f.buffer.size 1)
      rw [h.eqs.1]
    | seekCur =>
      show min (toSize (offset + c.bufOffset)) (subSize c.buffer.size 1) =
        min (toSize (offset + f.bufOffset)) (subSize f.buffer.size 1)
      rw [h.eqs.1, h.offset]
    | seekEnd => exact h.fileSize
  cases whence with
  | other => exact h
  | _ => exact ⟨h.geometry, hoff, h.fileSize, h.mem, ⟨h.wf.addr, h.wf.room⟩, h.size_le⟩

theorem Op.inBounds_of_fit {o : Op} {w : Call} (hw : o.call = some w) (hf : o.Fit f) : w.InBounds f := by
  cases o with
  | append buf =>
    cases hw
    exact hf
  | writePos buf pos =>
    cases hw
    exact hf
  | _ => simp [Op.call] at hw

/-- One operation within the file returns the same on both. -/
theorem Sim.op (h : Sim c f) {o : Op} (ho : o.Within f) :
    (c.op o).2 = (f.op o).2 ∧ Sim (c.op o).1 (f.op o).1 := by
  cases hw : o.call with
  | some w =>
    rw [Client.op_of_call hw, Client.op_of_call hw, h.size]
    exact ⟨rfl, h.call (Op.inBounds_of_fit hw ho.1)⟩
  | none =>
    cases o with
    | append buf => simp [Op.call] at hw
    | writePos buf pos => simp [Op.call] at hw
    | read size =>
      obtain ⟨hbytes, hsim⟩ := h.read size ho.2
      exact ⟨congrArg Result.bytes hbytes, hsim⟩
    | readPos size pos =>
      have hend := h.read_end size ho.2
      refine ⟨congrArg Result.bytes ?_, h⟩
      unfold Client.readPos
      rw [h.fileSize]
      exact h.slice (hend.trans h.size_le)
    | seek offset whence =>
      have hsim := h.seek offset whence
      exact ⟨congrArg Result.value hsim.offset, hsim⟩
    | truncate length => exact ⟨rfl, h.truncate ho.1⟩
    | getLine size =>
      obtain ⟨hline, hsim⟩ := h.getLine size ho.2
      exact ⟨congrArg Result.line hline, hsim⟩
    | eof =>
      refine ⟨congrArg (fun b => Result.value (Bool.toNat b)) ?_, h⟩
      unfold Client.eof
      rw [h.fileSize, h.offset]
    | getFileSize => exact ⟨congrArg Result.value h.fileSize, h⟩

/-- Its writes leave the same bytes below the trailer. -/
theorem Sim.opPosts (h : Sim c f) {o : Op} (ho : o.Within f) {m m' : Mem} {x : ℕ} (hx : x < f.seqOffset)
    (hm : m x = m' x) : applyAll m (c.opPosts o) x = applyAll m' (f.opPosts o) x := by
  cases hw : o.call with
  | none =>
    rw [Client.opPosts_of_none hw, Client.opPosts_of_none hw]
    exact hm
  | some w =>
    have hcall := h.call (Op.inBounds_of_fit hw ho.1)
    rw [Client.opPosts_of_call hw, Client.opPosts_of_call hw]
    rw [applyAll_writeTwoPlace, applyAll_writeTwoPlace, Client.call_seqOffset, Client.call_seqOffset, h.eqs.2.2.1,
      h.off, h.size]
    have htrailer : ¬ (f.seqOffset ≤ x ∧ x < f.seqOffset + seqWidth) := by omega
    rw [Mem.copy_out htrailer, Mem.copy_out htrailer]
    unfold Mem.copy
    rw [hm, hcall.mem x (by rwa [Client.call_seqOffset])]

theorem Client.op_seqOffset (c : Client) (o : Op) : (c.op o).1.seqOffset = c.seqOffset := by
  have hg := Client.op_geometry c o
  simp only [Client.geometry, Prod.mk.injEq] at hg
  exact hg.2.2.1

/-- A whole sequence within the file returns the same on both. -/
theorem Sim.ops : ∀ (os : List Op) {c f : Client}, Sim c f → AllWithin f os → (c.ops os).2 = (f.ops os).2
  | [], _, _, _, _ => rfl
  | o :: os, c, f, h, ha => by
    obtain ⟨hres, hsim⟩ := h.op ha.1
    unfold Client.ops
    rw [hres, hsim.ops os ha.2]

theorem Sim.opsPosts (os : List Op) {c f : Client} (h : Sim c f) (ha : AllWithin f os) {m m' : Mem} {x : ℕ}
    (hx : x < f.seqOffset) (hm : m x = m' x) : applyAll m (c.opsPosts os) x = applyAll m' (f.opsPosts os) x := by
  induction os generalizing c f m m' with
  | nil => exact hm
  | cons o os ih =>
    unfold Client.opsPosts
    rw [applyAll_append, applyAll_append]
    refine ih (h.op ha.1).2 ha.2 ?_ (h.opPosts ha.1 hx hm)
    rwa [Client.op_seqOffset]

end Sim

/-! ### When a recycled client behaves like a new one -/

section Main

variable {L : Layout}

section Reused

variable {α : Type*} {addrs : List α} {m : α → Mem} {r : Client × List (Peer α)} {os : List Op}

variable [DecidableEq α] {c₀ : Client} {hist : List Op} {landed : α → ℕ} {mr : Buffer} {tryRecover : Bool}

end Reused

end Main
end ComputeSideLog
