/-
# A file that outlives its process

A session is a process that opens the log, makes any POSIX calls on it and
crashes when its RDMA writes are applied at all peers (`crashed`; `Lossy.lean`
has the others); the next one opens it again with a new client, which recovers
from the peers (`TryRecover`, `src/rdma/client.cc`). Seen from the application
this should be one file with a new descriptor for each session
(`PosixFile.reopen`).

`Epochs.lean` carries the peers over a crash for sequences of write calls.
Here a session moves the offset by reads and seeks between its writes: what
it leaves in the client and at the peers is what the positioned writes
`stores` leave (`run_stores`, `posts_stores`). The conditions are on the
file alone (`Fits`, `Found`): the session ends with a non-empty file whose
last byte is not zero, after no write at all or a number of writes that is
neither 0 nor 1 modulo `2^64`. `starts_iff` says that these are exact, and
`sessions_refine_file` that the results of all sessions are then those of
the file.

Key definitions: `FileCall.Fits`, `stores`, `crashed`, `sessions`, `Found`.
Key theorems: `run_stores`, `posts_stores`, `shows_recovered_iff`,
`sessions_refine_file`.
-/
import ComputeSideLog.Epochs
import ComputeSideLog.Image
import ComputeSideLog.PosixLog

namespace ComputeSideLog

namespace PosixFile

/-- A new descriptor of the same file. -/
def reopen (f : PosixFile) : PosixFile := { f with offset := 0 }

end PosixFile

namespace FileCall

/-- `Allowed`, said of the file: `limit` is the room for data in a region. -/
def Fits (limit : ℕ) (f : PosixFile) : FileCall → Prop
  | .write data => data ≠ [] ∧ f.offset + data.length ≤ limit
  | .pwrite data pos => data ≠ [] ∧ pos + data.length ≤ limit
  | .read _ => f.offset ≤ f.bytes.length
  | .pread _ pos => pos ≤ f.bytes.length
  | .lseek offset .set => 0 ≤ offset ∧ offset ≤ limit
  | .lseek offset .cur => 0 ≤ offset + f.offset ∧ offset + f.offset ≤ limit
  | .lseek offset .fin => offset = 0
  | .eof => True
  | .size => True

instance (limit : ℕ) (f : PosixFile) : ∀ x : FileCall, Decidable (x.Fits limit f)
  | .write _ => instDecidableAnd
  | .pwrite _ _ => instDecidableAnd
  | .read _ => Nat.decLe _ _
  | .pread _ _ => Nat.decLe _ _
  | .lseek _ .set => instDecidableAnd
  | .lseek _ .cur => instDecidableAnd
  | .lseek offset .fin => inferInstanceAs (Decidable (offset = 0))
  | .eof => instDecidableTrue
  | .size => instDecidableTrue

/-- The call writes. -/
def isWrite : FileCall → Bool
  | .write _ => true
  | .pwrite _ _ => true
  | _ => false

/-- What the call stores, as a positioned write. -/
def stored (c : Client) : FileCall → Option Call
  | .write data => some (.writePos data c.bufOffset)
  | .pwrite data pos => some (.writePos data pos)
  | _ => none

end FileCall

/-- Every call of the sequence fits when it is made. -/
def EachFits (limit : ℕ) : PosixFile → List FileCall → Prop
  | _, [] => True
  | f, x :: xs => x.Fits limit f ∧ EachFits limit (f.answer x).1 xs

instance (limit : ℕ) : ∀ (f : PosixFile) (xs : List FileCall), Decidable (EachFits limit f xs)
  | _, [] => instDecidableTrue
  | f, x :: xs =>
    haveI := instDecidableEachFits limit (f.answer x).1 xs
    inferInstanceAs (Decidable (x.Fits limit f ∧ EachFits limit (f.answer x).1 xs))

/-! ### What a session stores -/

/-- What the calls store, as positioned writes. -/
def stores : Client → List FileCall → List Call
  | _, [] => []
  | c, x :: xs => (x.stored c).toList ++ stores (c.op x.op).1 xs

theorem stores_length : ∀ (xs : List FileCall) (c : Client), (stores c xs).length = xs.countP FileCall.isWrite
  | [], _ => rfl
  | x :: xs, c => by
    rw [stores, List.length_append, stores_length xs, List.countP_cons, Nat.add_comm]
    cases x <;> rfl

/-- A call that does not write moves the offset at most, and posts nothing. -/
theorem stored_none {c : Client} {x : FileCall} (h : x.stored c = none) :
    (∃ off, (c.op x.op).1 = { c with bufOffset := off }) ∧ c.opPosts x.op = [] := by
  have hcall : x.op.call = none := by
    cases x with
    | write data => simp [FileCall.stored] at h
    | pwrite data pos => simp [FileCall.stored] at h
    | _ => rfl
  have htrunc : ∀ l, x.op ≠ .truncate l := by
    intro l
    cases x <;> simp [FileCall.op]
  exact ⟨Client.op_frame hcall htrunc, Client.opPosts_of_none hcall⟩

/-- A call that writes leaves and posts what the positioned write does, wherever
the offset is. -/
theorem stored_some {c : Client} {x : FileCall} {w : Call} (h : x.stored c = some w) (n : ℕ) :
    ({ c with bufOffset := n } : Client).call w = { (c.op x.op).1 with bufOffset := n } ∧
      posts { c with bufOffset := n } [w] = c.opPosts x.op := by
  cases x with
  | write data =>
    cases h
    exact ⟨rfl, rfl⟩
  | pwrite data pos =>
    cases h
    exact ⟨rfl, rfl⟩
  | _ => exact absurd h (by simp [FileCall.stored])

/-- The session leaves the client that its stores leave, apart from the offset. -/
theorem run_stores : ∀ (xs : List FileCall) (c : Client) (n : ℕ),
    ({ c with bufOffset := n } : Client).run (stores c xs) =
      { (c.ops (xs.map FileCall.op)).1 with bufOffset := n } := by
  intro xs
  induction xs with
  | nil => exact fun _ _ => rfl
  | cons x xs ih =>
    intro c n
    show _ = ({ ((c.op x.op).1.ops (xs.map FileCall.op)).1 with bufOffset := n } : Client)
    rw [← ih (c.op x.op).1 n, stores]
    cases hx : x.stored c with
    | none =>
      obtain ⟨off, he⟩ := (stored_none hx).1
      rw [he]
      rfl
    | some w =>
      rw [← (stored_some hx n).1]
      rfl

/-- It posts what its stores post. -/
theorem posts_stores : ∀ (xs : List FileCall) (c : Client) (n : ℕ),
    posts { c with bufOffset := n } (stores c xs) = c.opsPosts (xs.map FileCall.op) := by
  intro xs
  induction xs with
  | nil => exact fun _ _ => rfl
  | cons x xs ih =>
    intro c n
    show _ = c.opPosts x.op ++ (c.op x.op).1.opsPosts (xs.map FileCall.op)
    rw [← ih (c.op x.op).1 n, stores]
    cases hx : x.stored c with
    | none =>
      obtain ⟨⟨off, he⟩, hp⟩ := stored_none hx
      rw [he, hp]
      rfl
    | some w =>
      obtain ⟨hcall, hp⟩ := stored_some hx n
      rw [← hcall, ← hp]
      exact posts_append [w] _ _

/-- Allowed calls store in bounds. -/
theorem allIn_stores : ∀ (xs : List FileCall) (c : Client) (n : ℕ), AllAllowed c xs →
    AllIn { c with bufOffset := n } (stores c xs) := by
  intro xs
  induction xs with
  | nil => exact fun _ _ _ => trivial
  | cons x xs ih =>
    intro c n ha
    have hrest := ih (c.op x.op).1 n ha.2
    cases hx : x.stored c with
    | none =>
      obtain ⟨off, he⟩ := (stored_none hx).1
      rw [stores, hx]
      rw [he] at hrest ⊢
      exact hrest
    | some w =>
      rw [stores, hx]
      refine ⟨?_, ?_⟩
      · cases x with
        | write data =>
          cases hx
          exact ha.1.2
        | pwrite data pos =>
          cases hx
          exact ha.1.2
        | _ => exact absurd hx (by simp [FileCall.stored])
      · show AllIn (({ c with bufOffset := n } : Client).call w) _
        rw [(stored_some hx n).1]
        exact hrest

/-! ### The conditions on the file -/

section

variable {c : Client} {f : PosixFile}

theorem fits_iff_allowed (h : Shows c f) (x : FileCall) : x.Fits c.seqOffset f ↔ x.Allowed c := by
  have hoff := h.offset
  have hsize := h.size
  cases x with
  | lseek offset whence => cases whence <;> simp [FileCall.Fits, FileCall.Allowed, hoff]
  | _ => simp [FileCall.Fits, FileCall.Allowed, hoff, hsize]

theorem op_seqOffset (c : Client) (o : Op) : (c.op o).1.seqOffset = c.seqOffset :=
  congrArg (fun g => g.2.2.1) (Client.op_geometry c o)

theorem eachFits_iff_allowed : ∀ (xs : List FileCall) {c : Client} {f : PosixFile}, Shows c f →
    (EachFits c.seqOffset f xs ↔ AllAllowed c xs) := by
  intro xs
  induction xs with
  | nil => exact fun _ => Iff.rfl
  | cons x xs ih =>
    intro c f h
    simp only [EachFits, AllAllowed, fits_iff_allowed h]
    refine and_congr_right fun ha => ?_
    rw [← op_seqOffset c x.op]
    exact ih (h.op ha).1

end

/-- The file is not empty and its last byte is not zero. -/
def PosixFile.Solid (f : PosixFile) : Prop := f.bytes.getLastD 0 ≠ 0

instance (f : PosixFile) : Decidable f.Solid := inferInstanceAs (Decidable (_ ≠ _))

/-- The session makes no write (unless it is the first one), or a number of writes
that is neither 0 nor 1 modulo `2^64`. -/
def Found (first : Bool) (xs : List FileCall) : Prop :=
  (first = false ∧ xs.countP FileCall.isWrite = 0) ∨ 2 ≤ xs.countP FileCall.isWrite % 2 ^ 64

instance (first : Bool) (xs : List FileCall) : Decidable (Found first xs) :=
  inferInstanceAs (Decidable (_ ∨ _))

namespace PosixFile

variable {f : PosixFile}

theorem Solid.ne_nil (h : f.Solid) : f.bytes ≠ [] := by
  intro hn
  rw [Solid, hn] at h
  exact h rfl

theorem Solid.image_last (h : f.Solid) : f.image (f.bytes.length - 1) ≠ 0 := by
  have hlast : f.image (f.bytes.length - 1) = f.bytes.getLastD 0 := by
    unfold image
    rw [List.getD_eq_getElem?_getD, ← List.getLast?_eq_getElem?, List.getLastD_eq_getLast?]
  rw [hlast]
  exact h

theorem image_past (f : PosixFile) {x : ℕ} (h : f.bytes.length ≤ x) : f.image x = 0 := List.getD_eq_default _ _ h

/-- Without a write the bytes stay. -/
theorem answers_bytes : ∀ (xs : List FileCall) (f : PosixFile), xs.countP FileCall.isWrite = 0 →
    (f.answers xs).1.bytes = f.bytes := by
  intro xs
  induction xs with
  | nil => exact fun _ _ => rfl
  | cons x xs ih =>
    intro f h
    rw [List.countP_cons] at h
    have hx : ¬ x.isWrite = true := fun hx => by simp [hx] at h
    have hbytes : (f.answer x).1.bytes = f.bytes := by
      cases x with
      | write data => exact absurd rfl hx
      | pwrite data pos => exact absurd rfl hx
      | lseek offset whence =>
        show (f.lseek offset whence).1.bytes = _
        unfold lseek
        split <;> rfl
      | _ => rfl
    calc (f.answers (x :: xs)).1.bytes = (f.answer x).1.bytes := ih _ (by omega)
      _ = f.bytes := hbytes

end PosixFile

/-! ### One session -/

variable {α : Type*}

/-- A client and its peers when the process crashes after the calls: all RDMA
writes are applied. -/
def crashed (r : Client × List (Peer α)) (xs : List FileCall) : Client × List (Peer α) :=
  ((r.1.ops (xs.map FileCall.op)).1, r.2.map fun p => p.apply (r.1.opsPosts (xs.map FileCall.op)))

/-- The crash is that after the stores, apart from the offset. -/
theorem crash_stores (r : Client × List (Peer α)) (xs : List FileCall) : Epochs.crash r (stores r.1 xs) =
    ({ (crashed r xs).1 with bufOffset := r.1.bufOffset }, (crashed r xs).2) := by
  unfold Epochs.crash crashed
  rw [← run_stores xs r.1 r.1.bufOffset, ← posts_stores xs r.1 r.1.bufOffset]

section

variable [DecidableEq α] {L : Layout} {first : Bool} {r : Client × List (Peer α)} {f : PosixFile}

/-- A recovered client starts at offset 0 with the trailer of the layout. -/
theorem recovered_geometry (L : Layout) (ps : List (Peer α)) :
    let c := ((Client.fresh L).tryRecover ps).1
    c.bufOffset = 0 ∧ c.seqOffset = L.seqOffset := by
  have hoff := Client.fresh_seqOffset L
  simp only [Client.tryRecover, Client.recovered]
  split
  · split
    · exact ⟨rfl, hoff⟩
    · exact ⟨rfl, hoff⟩
  · exact ⟨rfl, hoff⟩

/-- A client that holds the file of one that shows `f` shows `f`, reopened. -/
theorem shows_of_sameFile {c c' : Client} (h : Shows c f) (hsame : SameFile c' c) (hwf : c'.Wf) (htidy : c'.Tidy)
    (hoff : c'.bufOffset = 0) (hseq : c'.seqOffset = c.seqOffset) : Shows c' f.reopen where
  wf := hwf
  offset := hoff
  offset_le := hoff ▸ Nat.zero_le _
  size := hsame.1.trans h.size
  size_le := by
    rw [hsame.1, hseq]
    exact h.size_le
  bytes := by
    intro x hx
    by_cases hlt : x < c'.fileSize
    · rw [hsame.2 x hlt]
      exact h.bytes x (hseq ▸ hx)
    · rw [htidy.clean x (not_lt.mp hlt) hx]
      exact (f.reopen.image_past (by show f.bytes.length ≤ x; rw [← h.size, ← hsame.1]; omega)).symm

/-- And a client that shows it holds the file. -/
theorem sameFile_of_shows {c c' : Client} (h : Shows c f) (h' : Shows c' f.reopen) : SameFile c' c := by
  have hsize : c'.fileSize = c.fileSize := h'.size.trans h.size.symm
  refine ⟨hsize, fun x hx => ?_⟩
  have hle := h.size_le
  have hle' := h'.size_le
  rw [h'.bytes x (by omega), h.bytes x (by omega)]
  rfl

/-- The condition on the writes, said of the stores. -/
theorem found_iff_stores {xs : List FileCall} (hfirst : first = true → xs.countP FileCall.isWrite ≠ 0) (c : Client) :
    Found first xs ↔ stores c xs = [] ∨ 2 ≤ (stores c xs).length % 2 ^ 64 := by
  rw [← List.length_eq_zero_iff, stores_length, Found]
  refine or_congr_left ⟨And.right, fun h0 => ⟨?_, h0⟩⟩
  rw [← Bool.not_eq_true]
  exact fun hf => hfirst hf h0

variable (h : Epochs.Settled L (first = true) r) (hshow : Shows r.1 f) {xs : List FileCall}
  (hfit : EachFits L.seqOffset f xs)
include h hshow hfit

omit [DecidableEq α] in
/-- Until the crash the client returns what the file returns. -/
theorem shows_crashed : Shows (crashed r xs).1 (f.answers xs).1 ∧ (crashed r xs).1.seqOffset = L.seqOffset ∧
    (r.1.ops (xs.map FileCall.op)).2 = (f.answers xs).2 := by
  have hallow : AllAllowed r.1 xs := (eachFits_iff_allowed xs hshow).mp (h.off ▸ hfit)
  obtain ⟨hafter, hres⟩ := hshow.ops xs hallow
  refine ⟨hafter, ?_, hres⟩
  calc (crashed r xs).1.seqOffset = r.1.seqOffset := congrArg (fun g => g.2.2.1) (Client.ops_geometry _ r.1)
    _ = L.seqOffset := h.off

variable (hL : L.size ≤ 2 ^ 32) (hsolid : (f.answers xs).1.Solid)
  (hfirst : first = true → xs.countP FileCall.isWrite ≠ 0)
include hL hsolid hfirst

/-- **One session.** After the crash a new client shows the file that the session
left if and only if the number of writes allows it, and then the peers are as
they were. -/
theorem shows_recovered_iff :
    (Shows ((Client.fresh L).tryRecover (crashed r xs).2).1 (f.answers xs).1.reopen ↔ Found first xs) ∧
      (Found first xs → Epochs.Settled L False ((Client.fresh L).tryRecover (crashed r xs).2)) := by
  obtain ⟨hafter, hseq, -⟩ := shows_crashed h hshow hfit
  have hallow : AllAllowed r.1 xs := (eachFits_iff_allowed xs hshow).mp (h.off ▸ hfit)
  have ha : AllIn r.1 (stores r.1 xs) := allIn_stores xs r.1 r.1.bufOffset hallow
  have hs : AllShort (stores r.1 xs) := allShort_of_size hL _ h.off ha
  have hne : first = true → stores r.1 xs ≠ [] := fun hf hn =>
    hfirst hf (by rw [← stores_length xs r.1, hn]; rfl)
  have hpos : 0 < (crashed r xs).1.fileSize := hafter.size ▸ List.length_pos_of_ne_nil hsolid.ne_nil
  have hle : (crashed r xs).1.fileSize ≤ L.seqOffset := hseq ▸ hafter.size_le
  have hlt : (crashed r xs).1.fileSize < 2 ^ 32 := by
    have hroom := L.seqOffset_add
    unfold seqWidth at hroom
    omega
  have hlast : (crashed r xs).1.buffer.mem ((crashed r xs).1.fileSize - 1) ≠ 0 := by
    rw [hafter.bytes _ (by omega), hafter.size]
    exact hsolid.image_last
  -- the epoch of the stores ends in the same file and the same peers
  have hcrash := crash_stores r xs
  have hsame : SameFile ((Client.fresh L).tryRecover (crashed r xs).2).1 (crashed r xs).1 ↔
      (crashed r xs).1.fileSize < 2 ^ 32 ∧ (stores r.1 xs = [] ∨ 2 ≤ (stores r.1 xs).length % 2 ^ 64) := by
    have hiff := Epochs.sameFile_iff h ha hs hne (by rw [hcrash]; exact hlast) (by rw [hcrash]; exact hpos)
    rw [hcrash] at hiff
    exact hiff
  have hset : Found first xs → Epochs.Settled L False ((Client.fresh L).tryRecover (crashed r xs).2) := by
    intro hk
    have hset := Epochs.settled_recovered h ha hs hne (by rw [hcrash]; exact hlast) (by rw [hcrash]; exact hlt)
      ((found_iff_stores hfirst r.1).mp hk)
    rw [hcrash] at hset
    exact hset
  refine ⟨⟨fun hsh => ?_, fun hk => ?_⟩, hset⟩
  · exact (found_iff_stores hfirst r.1).mpr (hsame.mp (sameFile_of_shows hafter hsh)).2
  · obtain ⟨hoff, hoffL⟩ := recovered_geometry L (crashed r xs).2
    have hs' := hset hk
    exact shows_of_sameFile hafter (hsame.mpr ⟨hlt, (found_iff_stores hfirst r.1).mp hk⟩) hs'.wf hs'.tidy hoff
      (hoffL.trans hseq.symm)

end

/-! ### Any number of sessions -/

/-- What the calls of the sessions return; each starts with a client that recovers
after the crash of the one before. -/
def sessions [DecidableEq α] (L : Layout) : Client × List (Peer α) → List (List FileCall) → List (List Result)
  | _, [] => []
  | r, xs :: es => (r.1.ops (xs.map FileCall.op)).2 ::
      sessions L ((Client.fresh L).tryRecover (crashed r xs).2) es

/-- What they return on one file, opened anew by each. -/
def PosixFile.sessions : PosixFile → List (List FileCall) → List (List Result)
  | _, [] => []
  | f, xs :: es => (f.answers xs).2 :: sessions (f.answers xs).1.reopen es

/-- The calls of every session fit, and each session but the last one leaves a
file that can be recovered. -/
def Lasting (limit : ℕ) : Bool → PosixFile → List (List FileCall) → Prop
  | _, _, [] => True
  | first, f, xs :: es => EachFits limit f xs ∧ (es ≠ [] → (f.answers xs).1.Solid ∧ Found first xs) ∧
      Lasting limit false (f.answers xs).1.reopen es

instance (limit : ℕ) :
    ∀ (first : Bool) (f : PosixFile) (es : List (List FileCall)), Decidable (Lasting limit first f es)
  | _, _, [] => instDecidableTrue
  | first, f, xs :: es =>
    haveI := instDecidableLasting limit false (f.answers xs).1.reopen es
    inferInstanceAs (Decidable (EachFits limit f xs ∧ (es ≠ [] → (f.answers xs).1.Solid ∧ Found first xs) ∧
      Lasting limit false (f.answers xs).1.reopen es))

/-- A first session without a write leaves the empty file, which is not solid. -/
theorem writes_of_solid {f : PosixFile} (hf : f.bytes = []) {xs : List FileCall} (hs : (f.answers xs).1.Solid) :
    xs.countP FileCall.isWrite ≠ 0 := fun h0 => hs.ne_nil ((PosixFile.answers_bytes xs f h0).trans hf)

variable [DecidableEq α] {L : Layout}

theorem sessions_eq (hL : L.size ≤ 2 ^ 32) : ∀ (es : List (List FileCall)) {first : Bool}
    {r : Client × List (Peer α)} {f : PosixFile}, Epochs.Settled L (first = true) r → Shows r.1 f →
    (first = true → f.bytes = []) → Lasting L.seqOffset first f es → sessions L r es = f.sessions es := by
  intro es
  induction es with
  | nil => exact fun _ _ _ _ => rfl
  | cons xs es ih =>
    intro first r f h hshow hempty hd
    obtain ⟨-, -, hres⟩ := shows_crashed h hshow hd.1
    refine congrArg₂ List.cons hres ?_
    cases es with
    | nil => rfl
    | cons ys es =>
      obtain ⟨hsolid, hfound⟩ := hd.2.1 (List.cons_ne_nil _ _)
      obtain ⟨hiff, hset⟩ := shows_recovered_iff h hshow hd.1 hL hsolid fun hf => writes_of_solid (hempty hf) hsolid
      exact ih (by simpa using hset hfound) (hiff.mpr hfound) (fun hf => absurd hf (by simp)) hd.2.2

/-- **A file across crashes.** On peers with zeroed regions, whatever POSIX calls
that fit the sessions make, each returns what it returns on one persistent
file opened anew by every session, if all RDMA writes of a session are applied
before the next one, and each session but the last leaves a file that does not
end in zero, after no write or a number of writes that is neither 0 nor 1
modulo `2^64` (the first one after at least two). -/
theorem sessions_refine_file (hL : L.size ≤ 2 ^ 32) {addrs : List α} (hn : addrs.Nodup) (hne : addrs ≠ [])
    {es : List (List FileCall)} (hd : Lasting L.seqOffset true PosixFile.empty es) :
    sessions L (Epochs.start L addrs []) es = PosixFile.empty.sessions es :=
  sessions_eq hL es (by simpa using Epochs.settled_start hn hne) (shows_fresh L) (fun _ => rfl) hd

theorem sessions_refine_file_tiny :
    let es : List (List FileCall) := [[.write [1, 2], .lseek 4 .set, .write [6], .pread 2 3],
      [.size, .read 16, .pread 1 4], [.lseek 0 .fin, .write [7], .pwrite [8] 2, .eof], [.read 16]]
    sessions tiny (Epochs.start tiny [0, 1] []) es = PosixFile.empty.sessions es ∧
      (PosixFile.empty.sessions es).drop 1 = [[.value 5, .bytes [1, 2, 0, 0, 6], .bytes [6]],
        [.value 5, .value 1, .value 1, .value 1], [.bytes [1, 2, 8, 0, 6, 7]]] :=
  ⟨sessions_refine_file (by decide) (by decide) (by decide) (by decide), by decide⟩

/-- Every client but the first shows the file as the session before left it. -/
def Starts (L : Layout) : Client × List (Peer α) → PosixFile → List (List FileCall) → Prop
  | _, _, [] => True
  | r, f, xs :: es => Shows ((Client.fresh L).tryRecover (crashed r xs).2).1 (f.answers xs).1.reopen ∧
      Starts L ((Client.fresh L).tryRecover (crashed r xs).2) (f.answers xs).1.reopen es

/-- The calls of every session fit, and each leaves a file that is solid. -/
def Solids (limit : ℕ) : PosixFile → List (List FileCall) → Prop
  | _, [] => True
  | f, xs :: es => EachFits limit f xs ∧ (f.answers xs).1.Solid ∧ Solids limit (f.answers xs).1.reopen es

instance (limit : ℕ) : ∀ (f : PosixFile) (es : List (List FileCall)), Decidable (Solids limit f es)
  | _, [] => instDecidableTrue
  | f, xs :: es =>
    haveI := instDecidableSolids limit (f.answers xs).1.reopen es
    inferInstanceAs (Decidable (EachFits limit f xs ∧ (f.answers xs).1.Solid ∧ Solids limit (f.answers xs).1.reopen es))

/-- The number of writes of every session is one that recovery finds. -/
def AllFound : Bool → List (List FileCall) → Prop
  | _, [] => True
  | first, xs :: es => Found first xs ∧ AllFound false es

instance : ∀ (first : Bool) (es : List (List FileCall)), Decidable (AllFound first es)
  | _, [] => instDecidableTrue
  | first, xs :: es =>
    haveI := instDecidableAllFound false es
    inferInstanceAs (Decidable (Found first xs ∧ AllFound false es))

theorem starts_iff_found (hL : L.size ≤ 2 ^ 32) : ∀ (es : List (List FileCall)) {first : Bool}
    {r : Client × List (Peer α)} {f : PosixFile}, Epochs.Settled L (first = true) r → Shows r.1 f →
    (first = true → f.bytes = []) → Solids L.seqOffset f es → (Starts L r f es ↔ AllFound first es) := by
  intro es
  induction es with
  | nil => exact fun _ _ _ _ => Iff.rfl
  | cons xs es ih =>
    intro first r f h hshow hempty hs
    obtain ⟨hiff, hset⟩ :=
      shows_recovered_iff h hshow hs.1 hL hs.2.1 fun hf => writes_of_solid (hempty hf) hs.2.1
    refine (and_congr_left' hiff).trans (and_congr_right fun hk => ?_)
    exact ih (by simpa using hset hk) (hiff.mpr hk) (fun hf => absurd hf (by simp)) hs.2.2

/-- **When every session finds the file**: exactly when the first one makes a number
of writes that is neither 0 nor 1 modulo `2^64`, and each later one no write or
such a number, whatever else they do and in whatever order. -/
theorem starts_iff (hL : L.size ≤ 2 ^ 32) {addrs : List α} (hn : addrs.Nodup) (hne : addrs ≠ [])
    {es : List (List FileCall)} (hs : Solids L.seqOffset PosixFile.empty es) :
    Starts L (Epochs.start L addrs []) PosixFile.empty es ↔ AllFound true es :=
  starts_iff_found hL es (by simpa using Epochs.settled_start hn hne) (shows_fresh L) (fun _ => rfl) hs

/-- A session that overwrites one byte makes the next one start without the file. -/
theorem starts_iff_tiny : ¬ Starts tiny (Epochs.start tiny [0, 1] []) PosixFile.empty
    [[.write [1, 2], .write [3]], [.pwrite [4] 0, .read 3]] :=
  fun h => absurd ((starts_iff (by decide) (by decide) (by decide) (by decide)).mp h) (by decide)

end ComputeSideLog
