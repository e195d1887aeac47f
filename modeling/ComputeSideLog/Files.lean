/-
# The interposed calls as a file system

What an application should see of the logs that a process keeps through
`src/csl.cc` is small: every path that has a log has one file with one offset.
All descriptors of the path share them, the file outlives its descriptors, and
`unlink` ends it. The abstract state `Files` is that, a path's file and the path
of every log descriptor; calls on other descriptors and paths return what the
original returns.

Below it stand the two maps of the process, the pool of clients, the clients
that come back from it, and the buffer of each client. `Tracks` relates them,
and every wrapper keeps it (`Tracks.delegate`, `Tracks.getClient`,
`Tracks.unlink`). So every run of calls returns what the file system returns
(`interposed_refine_files`), if no servers hold data for a path that gets a log,
no path is unlinked while it is open, the client that a new log gets does not
come with a size (`recycled_like_new_iff`), and the calls on a log fit into
it (`Posix.Fits`). `ftruncate` and `fgets` on a log are left out.

Key definitions: `Files`, `Files.step`, `LogEvent.Orderly`, `Tracks`.
Key theorems: `Tracks.step`, `interposed_refine_files`.
-/
import ComputeSideLog.Isolation
import ComputeSideLog.Sessions

namespace ComputeSideLog

/-! ### The file system -/

/-- The argument `whence` of a call, where a log supports it. -/
def Whence.from? : Whence → Option SeekFrom
  | .seekSet => some .set
  | .seekCur => some .cur
  | .seekEnd => some .fin
  | .other => none

namespace Posix

variable {N : Type*}

/-- The call on a file that a call on a descriptor makes. -/
def fileCall : Posix N → Option FileCall
  | .write _ buf => some (.write buf)
  | .pwrite _ buf offset => some (.pwrite buf (toSize offset))
  | .read _ count => some (.read count)
  | .pread _ count offset => some (.pread count (toSize offset))
  | .fread _ size nmemb => some (.read (size * nmemb % 2 ^ 64))
  | .lseek _ offset whence | .fseek _ offset whence => whence.from?.map (.lseek offset)
  | .feof _ => some .eof
  | _ => none

/-- What a call on a log descriptor does to its file, and what it returns. -/
def onFile (f : PosixFile) (orig : Ret) : Posix N → PosixFile × Ret
  | .ftello _ => (f, ⟨f.offset, [], 0⟩)
  | .fsync _ => (f, ⟨0, [], 0⟩)
  | .fxstat _ => (f, { orig with stSize := f.bytes.length })
  | c =>
    match c.fileCall with
    | some x => ((f.answer x).1, (f.answer x).2.toRet)
    | none => (f, orig)

/-- The call is one that the file answers, within a region with room for `limit` bytes. -/
def Fits (limit : ℕ) (f : PosixFile) (c : Posix N) : Prop :=
  match c with
  | .ftello _ | .fsync _ | .fxstat _ | .close _ | .fclose _ => True
  | _ => ∃ x ∈ c.fileCall, x.Fits limit f

instance (limit : ℕ) (f : PosixFile) (c : Posix N) : Decidable (c.Fits limit f) := by
  unfold Fits
  split <;> infer_instance

end Posix

/-- The logs of a process: the file of every path that has one, and the path of
every descriptor that refers to one. -/
structure Files (N : Type*) where
  file : N → Option PosixFile
  opened : ℤ → Option N

namespace Files

variable {N : Type*} [DecidableEq N]

/-- Before the first call. -/
def init : Files N := ⟨fun _ => none, fun _ => none⟩

/-- A path gets a log, an empty one where it has none. -/
def provide (t : Files N) (p : N) : Files N :=
  { t with file := Function.update t.file p (some ((t.file p).getD .empty)) }

/-- A call on a descriptor. -/
def descriptor (t : Files N) (fd : ℤ) (c : Posix N) (orig : Ret) : Files N × Ret :=
  match t.opened fd with
  | some p =>
    match t.file p with
    | some f => ({ t with file := Function.update t.file p (some (c.onFile f orig).1) }, (c.onFile f orig).2)
    | none => (t, orig)
  | none => (t, orig)

/-- A call, where the original returns `orig`. -/
def step (t : Files N) (c : Posix N) (orig : Ret) : Files N × Ret :=
  match c with
  | .openPath p flags | .openat _ p flags =>
    if 0 ≤ orig.value ∧ isCompSideLog flags = true then
      ({ t.provide p with opened := Function.update t.opened orig.value (some p) }, orig)
    else (t, orig)
  | .fopen p mode =>
    if 0 ≤ orig.value ∧ mode.getLast? = some 'l' then
      ({ t.provide p with opened := Function.update t.opened orig.value (some p) }, orig)
    else (t, orig)
  | .close fd | .fclose fd => ({ t with opened := Function.update t.opened fd none }, orig)
  | .unlink p => ({ t with file := Function.update t.file p none }, orig)
  | .xstat p =>
    if orig.value < 0 then (t, orig)
    else
      match t.file p with
      | some f => (t, { orig with stSize := f.bytes.length })
      | none => if orig.stSize = 0 then (t.provide p, orig) else (t, orig)
  | c =>
    match c.fd? with
    | some fd => t.descriptor fd c orig
    | none => (t, orig)

/-- A call on a descriptor fits into its log; on another descriptor `ftello64`
returns an `int`. -/
def FitsOn (t : Files N) (c : Posix N) (orig : Ret) (fd : ℤ) : Prop :=
  match t.opened fd with
  | some p => ∀ f ∈ t.file p, c.Fits mrSize.seqOffset f
  | none => c = .ftello fd → toInt orig.value = orig.value

instance (t : Files N) (c : Posix N) (orig : Ret) (fd : ℤ) : Decidable (t.FitsOn c orig fd) := by
  unfold FitsOn
  split <;> infer_instance

end Files

/-! ### Runs -/

/-- A call where the servers `addrs` hold nothing for the path: what the original
returns, and the region `GetMRofSize` would return. -/
structure LogEvent (N α : Type*) where
  call : Posix N
  orig : Ret
  addrs : List α
  mr : Buffer

namespace LogEvent

variable {N α : Type*}

/-- The call as the process sees it. -/
def event (e : LogEvent N α) : Event N α := ⟨e.call, e.orig, ⟨Pool.emptyPeers mrSize e.addrs, e.mr⟩⟩

variable [DecidableEq N] [DecidableEq α]

/-- The client that `pool.GetClient` would hand out comes without a size. -/
def Clean (s : Process N) : Prop := ∀ x ∈ s.pool.idle.head?, (s.clients x.2).fileSize = 0

/-- What is asked of a call. -/
def Orderly (s : Session N) (t : Files N) (e : LogEvent N α) : Prop :=
  s.Fresh e.event ∧ Session.Careful s e.event ∧
    (∀ p ∈ e.event.asks, s.process.pathCli p = none → Clean s.process) ∧ ∀ fd ∈ e.call.fd?, t.FitsOn e.call e.orig fd

instance (s : Process N) : Decidable (Clean s) := inferInstanceAs (Decidable (∀ x ∈ s.pool.idle.head?, _))

instance (s : Session N) (t : Files N) (e : LogEvent N α) : Decidable (e.Orderly s t) :=
  inferInstanceAs (Decidable (_ ∧ _))

end LogEvent

section Runs

variable {N α : Type*} [DecidableEq N] [DecidableEq α]

/-- What the calls return through the wrappers. -/
def Session.rets (s : Session N) : List (LogEvent N α) → List Ret
  | [] => []
  | e :: es => (s.outcome e.event).ret :: Session.rets (s.after e.event) es

/-- What they return on the file system. -/
def Files.rets (t : Files N) : List (LogEvent N α) → List Ret
  | [] => []
  | e :: es => (t.step e.call e.orig).2 :: Files.rets (t.step e.call e.orig).1 es

/-- Every call is orderly when it is made. -/
def AllOrderly (s : Session N) (t : Files N) : List (LogEvent N α) → Prop
  | [] => True
  | e :: es => e.Orderly s t ∧ AllOrderly (s.after e.event) (t.step e.call e.orig).1 es

instance : ∀ (s : Session N) (t : Files N) (es : List (LogEvent N α)), Decidable (AllOrderly s t es)
  | _, _, [] => instDecidableTrue
  | s, t, e :: es =>
    haveI := instDecidableAllOrderly (s.after e.event) (t.step e.call e.orig).1 es
    inferInstanceAs (Decidable (e.Orderly s t ∧ AllOrderly _ _ es))

end Runs

/-! ### The process keeps the files -/

/-- The client is in use for the file. -/
structure Keeps (c : Client) (f : PosixFile) : Prop where
  usable : Usable mrSize c
  shows : Shows c f

/-- The maps of the process and the clients agree with the file system; idle
clients are recycled ones. -/
structure Tracks {N : Type*} (s : Process N) (t : Files N) : Prop where
  opened : ∀ fd o, s.resolve fd = some o → ∃ p, t.opened fd = some p ∧ s.pathCli p = some o
  unopened : ∀ fd, s.resolve fd = none → t.opened fd = none
  file : ∀ p o, s.pathCli p = some o → ∃ f, t.file p = some f ∧ Keeps (s.clients o) f
  noFile : ∀ p, s.pathCli p = none → t.file p = none
  idle : ∀ id o, Assoc.find s.pool.idle id = some o →
    ∃ c, Usable mrSize c ∧ s.clients o = Pool.recycleClient c

/-! ### One call on a file -/

section Call

variable {c : Client} {f : PosixFile}

theorem mrSize_lt : mrSize.seqOffset < 2 ^ 31 := by
  have h := mrSize.seqOffset_add
  have hsize : mrSize.size = 1024 * 1024 * 100 := rfl
  omega

theorem FileCall.Allowed.fit {x : FileCall} (h : x.Allowed c) : x.op.Fit c := by
  cases x with
  | write data | pwrite data pos => exact h.2
  | _ => trivial

namespace Keeps

theorem seqOffset (h : Keeps c f) : c.seqOffset = mrSize.seqOffset := h.usable.eqs.2.2.1

/-- A call that fits, on the client and on the file. -/
theorem op (h : Keeps c f) {x : FileCall} (hx : x.Fits mrSize.seqOffset f) :
    Keeps (c.op x.op).1 (f.answer x).1 ∧ (c.op x.op).2 = (f.answer x).2 := by
  have ha : x.Allowed c := (fits_iff_allowed h.shows x).mp (h.seqOffset ▸ hx)
  obtain ⟨hshow, hres⟩ := h.shows.op ha
  exact ⟨⟨h.usable.op ha.fit, hshow⟩, hres⟩

theorem perform (h : Keeps c f) {x : FileCall} (hx : x.Fits mrSize.seqOffset f) :
    Keeps (Client.perform x.op c).1 (f.answer x).1 ∧ (Client.perform x.op c).2 = (f.answer x).2.toRet := by
  obtain ⟨hk, hres⟩ := h.op hx
  exact ⟨hk, congrArg Result.toRet hres⟩

theorem offset_lt (h : Keeps c f) : c.bufOffset < 2 ^ 31 := by
  have hle := h.shows.offset_le
  have heq := h.seqOffset
  have hlt := mrSize_lt
  omega

end Keeps

end Call

theorem Whence.from?_eq {whence : Whence} {w : SeekFrom} (h : whence.from? = some w) : w.whence = whence := by
  cases whence <;> cases h <;> rfl

section Descriptor

variable {N α : Type*} {s : Process N} {t : Files N} {env : Env α} {orig : Ret} {c : Posix N} {fd : ℤ} {o : ℕ}
  {f : PosixFile}

theorem delegate_of_some (hr : s.resolve fd = some o) (g : Client → Client × Ret) : s.delegate fd orig g =
    ⟨{ s with clients := Function.update s.clients o (g (s.clients o)).1 }, (g (s.clients o)).2, false⟩ := by
  unfold Process.delegate
  rw [hr]

/-- What the client becomes and what is returned. -/
theorem delegate_client (orig : Ret) (hr : s.resolve fd = some o) (g : Client → Client × Ret) :
    (s.delegate fd orig g).process.clients o = (g (s.clients o)).1 ∧
      (s.delegate fd orig g).ret = (g (s.clients o)).2 := by
  rw [delegate_of_some hr]
  exact ⟨Function.update_self _ _ _, rfl⟩

theorem Keeps.fread {client : Client} (h : Keeps client f) {n : ℕ} (hx : (FileCall.read n).Fits mrSize.seqOffset f) :
    Keeps (client.read n).1 (f.read n).1 ∧ (client.read n).2 = (f.read n).2 ∧
      toSize (toInt (client.read n).2.length) = (f.read n).2.length := by
  obtain ⟨hk, hres⟩ := h.op hx
  have hbytes : (client.read n).2 = (f.read n).2 := Result.bytes.inj hres
  refine ⟨hk, hbytes, ?_⟩
  have hlen : (f.read n).2.length < 2 ^ 31 := by
    have hlim := mrSize_lt
    have hsize := h.shows.size_le
    have hbytes := h.shows.size
    have hoff := h.seqOffset
    have hread : (f.read n).2.length = min n (f.bytes.length - f.offset) := PosixFile.pread_length f n f.offset
    omega
  rw [hbytes, toInt_of_range (by omega) (by omega), toSize_natCast (by omega)]

/-- The new position is returned as an `int`, which holds it. -/
theorem Keeps.fseek {client : Client} (h : Keeps client f) {offset : ℤ} {w : SeekFrom}
    (hx : (FileCall.lseek offset w).Fits mrSize.seqOffset f) :
    Keeps (client.seek offset w.whence) (f.answer (.lseek offset w)).1 ∧
      ⟨toInt (client.seek offset w.whence).bufOffset, [], 0⟩ = (f.answer (.lseek offset w)).2.toRet := by
  obtain ⟨hk, hres⟩ := h.op hx
  have hlt : (client.seek offset w.whence).bufOffset < 2 ^ 31 := hk.offset_lt
  refine ⟨hk, ?_⟩
  rw [← hres, toInt_of_range (by omega) (by omega)]
  rfl

variable [DecidableEq N] [DecidableEq α]

/-- **A call on a log's descriptor.** The client it refers to follows the file. -/
theorem wrap_onFile (env : Env α) (orig : Ret) (hc : c.fd? = some fd) (hr : s.resolve fd = some o)
    (h : Keeps (s.clients o) f)
    (hfit : c.Fits mrSize.seqOffset f) (hopen : c.closes = none) :
    Keeps ((s.wrap env orig c).process.clients o) (c.onFile f orig).1 ∧
      (s.wrap env orig c).ret = (c.onFile f orig).2 := by
  -- a wrapper that only runs the operation of a call on the file
  have hrun : ∀ x : FileCall, x.Fits mrSize.seqOffset f →
      Keeps ((s.delegate fd orig (Client.perform x.op)).process.clients o) (f.answer x).1 ∧
        (s.delegate fd orig (Client.perform x.op)).ret = (f.answer x).2.toRet := by
    intro x hx
    obtain ⟨hclient, hret⟩ := delegate_client orig hr (Client.perform x.op)
    obtain ⟨hk, hres⟩ := h.perform hx
    exact ⟨hclient ▸ hk, hret.trans hres⟩
  cases c with
  | close fd' | fclose fd' => cases hopen
  | openPath _ _ | openat _ _ _ | fopen _ _ | unlink _ | xstat _ => cases hc
  | ftruncate fd' length | fgets fd' size =>
    obtain ⟨x, hx, -⟩ := hfit
    cases hx
  | write fd' buf | pwrite fd' buf offset | read fd' count | pread fd' count offset | feof fd' =>
    cases hc
    obtain ⟨x, hx, hfit⟩ := hfit
    cases hx
    exact hrun _ hfit
  | lseek fd' offset whence =>
    cases hc
    obtain ⟨x, hx, hfit⟩ := hfit
    obtain ⟨w, hw, rfl⟩ := Option.map_eq_some_iff.mp hx
    obtain rfl := Whence.from?_eq hw
    simp only [Posix.onFile, Posix.fileCall, hw]
    exact hrun _ hfit
  | fseek fd' offset whence =>
    cases hc
    obtain ⟨x, hx, hfit⟩ := hfit
    obtain ⟨w, hw, rfl⟩ := Option.map_eq_some_iff.mp hx
    obtain rfl := Whence.from?_eq hw
    obtain ⟨hclient, hret⟩ := delegate_client orig hr fun client =>
      (client.seek offset w.whence, ⟨toInt (client.seek offset w.whence).bufOffset, [], 0⟩)
    obtain ⟨hk, hres⟩ := h.fseek hfit
    simp only [Posix.onFile, Posix.fileCall, hw]
    exact ⟨hclient ▸ hk, hret.trans hres⟩
  | ftello fd' =>
    cases hc
    obtain ⟨hclient, hret⟩ := delegate_client { orig with value := toInt orig.value } hr fun client =>
      (client, ⟨client.bufOffset, [], 0⟩)
    refine ⟨hclient ▸ h, hret.trans ?_⟩
    rw [h.shows.offset]
    rfl
  | fsync fd' =>
    cases hc
    obtain ⟨hclient, hret⟩ := delegate_client orig hr fun client => (client, ⟨0, [], 0⟩)
    exact ⟨hclient ▸ h, hret⟩
  | fread fd' size nmemb =>
    cases hc
    obtain ⟨x, hx, hfit⟩ := hfit
    cases hx
    obtain ⟨hclient, hret⟩ := delegate_client orig hr fun client =>
      ((client.read (size * nmemb % 2 ^ 64)).1,
        ⟨toSize (toInt (client.read (size * nmemb % 2 ^ 64)).2.length), (client.read (size * nmemb % 2 ^ 64)).2, 0⟩)
    obtain ⟨hk, hbytes, hlen⟩ := h.fread hfit
    refine ⟨hclient ▸ hk, hret.trans ?_⟩
    rw [hlen, hbytes]
    rfl
  | fxstat fd' =>
    cases hc
    have hout : s.wrap env orig (.fxstat fd) = s.pass { orig with stSize := (s.clients o).fileSize } := by
      show s.fxstat fd orig = _
      unfold Process.fxstat
      rw [hr]
    rw [hout, h.shows.size]
    exact ⟨h, rfl⟩

theorem Process.wrap_of_closes (hcl : c.closes = some fd) :
    s.wrap env orig c = { s with fdCli := Assoc.erase s.fdCli fd }.pass orig := by
  cases c with
  | close _ | fclose _ =>
    cases hcl
    rfl
  | _ => cases hcl

end Descriptor

/-! ### What each wrapper keeps -/

namespace Tracks

variable {N α : Type*} {s s' : Process N} {t : Files N} {env : Env α} {orig : Ret} {c : Posix N} {fd : ℤ} {p : N}

theorem init : Tracks (Process.init : Process N) Files.init where
  opened := fun _ _ h => by cases h
  unopened := fun _ _ => rfl
  file := fun _ _ h => by cases h
  noFile := fun _ _ => rfl
  idle := fun _ _ h => by cases h

/-- An idle client is not the client of a path. -/
theorem idle_ne (hd : s.Distinct) {id o o' : ℕ} (hi : Assoc.find s.pool.idle id = some o')
    (hp : s.pathCli p = some o) : o' ≠ o := by
  rintro rfl
  obtain ⟨rfl, hlt⟩ := hd.pool.idle _ _ hi
  have hbusy : Assoc.find s.pool.busy (ClientPool.idOf id) = some id := hd.busy p id hp
  rw [hd.pool.idOf_eq hlt, hd.pool.disjoint id (by rw [hi]; rfl)] at hbusy
  cases hbusy

/-- The maps and the clients that are in them decide it. -/
theorem congr (h : Tracks s t) (hfd : s'.fdCli = s.fdCli) (hpath : s'.pathCli = s.pathCli) (hpool : s'.pool = s.pool)
    (hclients : s'.clients = s.clients) : Tracks s' t := by
  obtain ⟨fdCli, pathCli, pool, clients⟩ := s'
  cases hfd
  cases hpath
  cases hpool
  cases hclients
  exact h

variable [DecidableEq N]

/-- The client of one path follows its file, the others stay. -/
theorem update (h : Tracks s t) (hd : s.Distinct) {o : ℕ} (hp : s.pathCli p = some o) (hfd : s'.fdCli = s.fdCli)
    (hpath : s'.pathCli = s.pathCli) (hpool : s'.pool = s.pool) (hframe : ∀ o', o' ≠ o → s'.clients o' = s.clients o')
    {f : PosixFile} (hk : Keeps (s'.clients o) f) : Tracks s' { t with file := Function.update t.file p (some f) } where
  opened := by
    unfold Process.resolve
    rw [hfd, hpath]
    exact h.opened
  unopened := by
    unfold Process.resolve
    rw [hfd]
    exact h.unopened
  file := by
    rw [hpath]
    intro q o' hq
    by_cases hqp : q = p
    · subst hqp
      obtain rfl : o = o' := Option.some.inj (hp.symm.trans hq)
      exact ⟨f, Function.update_self _ _ _, hk⟩
    · obtain ⟨f', hf', hk'⟩ := h.file q o' hq
      have hne : o' ≠ o := fun he => hqp (hd.inj q p o' hq (he ▸ hp))
      exact ⟨f', (Function.update_of_ne hqp _ _).trans hf', hframe o' hne ▸ hk'⟩
  noFile := by
    rw [hpath]
    intro q hq
    have hqp : q ≠ p := fun he => by rw [he, hp] at hq; cases hq
    exact (Function.update_of_ne hqp _ _).trans (h.noFile q hq)
  idle := by
    rw [hpool]
    intro id o' hi
    rw [hframe o' (idle_ne hd hi hp)]
    exact h.idle id o' hi

omit [DecidableEq N] in
/-- A descriptor is closed. -/
theorem close (h : Tracks s t) (fd : ℤ) :
    Tracks { s with fdCli := Assoc.erase s.fdCli fd } { t with opened := Function.update t.opened fd none } where
  opened := by
    intro fd' o ho
    obtain ⟨hne, ho⟩ := Assoc.find_erase_eq_some ho
    obtain ⟨p, hp, hpo⟩ := h.opened fd' o ho
    exact ⟨p, (Function.update_of_ne hne _ _).trans hp, hpo⟩
  unopened := by
    intro fd' ho
    by_cases hne : fd' = fd
    · exact hne ▸ Function.update_self _ _ _
    · exact (Function.update_of_ne hne _ _).trans (h.unopened fd' ((Assoc.find_erase_ne hne _).symm.trans ho))
  file := h.file
  noFile := h.noFile
  idle := h.idle

omit [DecidableEq N] in
/-- A descriptor refers to the client of a path. -/
theorem bindFd (h : Tracks s t) {o : ℕ} (hp : s.pathCli p = some o) (hfd : 0 ≤ fd) (hfree : s.resolve fd = none) :
    Tracks (s.bindFd fd o) { t with opened := Function.update t.opened fd (some p) } := by
  unfold Process.bindFd
  rw [if_pos hfd]
  refine ⟨fun fd' o' ho => ?_, fun fd' ho => ?_, h.file, h.noFile, h.idle⟩
  · rcases Assoc.find_insert_cases ho with hold | ⟨rfl, rfl⟩
    · have hne : fd' ≠ fd := fun he => by
        unfold Process.resolve at hfree
        rw [he, hfree] at hold
        cases hold
      obtain ⟨q, hq, hqo⟩ := h.opened fd' o' hold
      exact ⟨q, (Function.update_of_ne hne _ _).trans hq, hqo⟩
    · exact ⟨p, Function.update_self _ _ _, hp⟩
  · have hne : fd' ≠ fd := by
      rintro rfl
      have hself : Assoc.find (Assoc.insert s.fdCli fd' o) fd' = some o := Assoc.find_insert_self hfree
      rw [show Assoc.find (Assoc.insert s.fdCli fd' o) fd' = none from ho] at hself
      cases hself
    exact (Function.update_of_ne hne _ _).trans (h.unopened fd' ((Assoc.find_insert_ne hne).symm.trans ho))

/-- A new log is empty. -/
theorem keeps_new (addrs : List α) [DecidableEq α] (tryRecover : Bool) :
    Keeps (Pool.newClient mrSize (Pool.emptyPeers mrSize addrs) tryRecover).1 .empty := by
  rw [Pool.newClient_eq]
  exact ⟨usable_fresh mrSize, shows_fresh mrSize⟩

/-- A recycled client without a size is as good. -/
theorem keeps_recycled [DecidableEq α] {client : Client} (h : Usable mrSize client)
    (hsize : (Pool.recycleClient client).fileSize = 0) (mr : Buffer) (addrs : List α) (tryRecover : Bool) :
    Keeps (Pool.getClient (Pool.recycleClient client) mrSize.size mr (Pool.emptyPeers mrSize addrs) tryRecover).1
      .empty := by
  have hzero : client.fileSize = 0 := hsize
  have hfresh := shows_fresh mrSize
  rw [Pool.getClient_recycled h, hzero]
  exact ⟨⟨rfl, fun _ _ => rfl, h.seq_lt⟩,
    ⟨⟨hfresh.wf.addr, hfresh.wf.room⟩, rfl, hfresh.offset_le, rfl, hfresh.size_le, hfresh.bytes⟩⟩

omit [DecidableEq N] in
/-- Without an idle client `pool.GetClient` constructs one. -/
theorem getClient_created (hd : s.Distinct) (hi : s.pool.idle = []) (hw : s.pool.made < 2 ^ 32) :
    s.pool.getClient = (s.pool.getClient.1, s.pool.made, .created) ∧ s.pool.getClient.1.idle = [] := by
  obtain ⟨-, -, -, -, hsrc⟩ := hd.pool.getClient fun _ => hw
  refine ⟨?_, by simp [ClientPool.getClient, hi]⟩
  revert hsrc
  simp only [ClientPool.getClient, hi]
  cases Assoc.find s.pool.busy (ClientPool.idOf s.pool.made) <;> simp

omit [DecidableEq N] in
theorem takeClient_new [DecidableEq α] (hd : s.Distinct) (hi : s.pool.idle = []) (hw : s.pool.made < 2 ^ 32)
    (env : Env α) (tryRecover : Bool) : s.takeClient env tryRecover =
      ({ s with
          pool := s.pool.getClient.1
          clients := Function.update s.clients s.pool.made (Pool.newClient mrSize env.peers tryRecover).1 },
        s.pool.made) := by
  unfold Process.takeClient
  rw [(getClient_created hd hi hw).1]

/-- A client from the pool is in use for the file, and the others are left alone. -/
structure Hands (s : Process N) (r : Process N × ℕ) (f : PosixFile) : Prop where
  frame : ∀ o, o ≠ r.2 → r.1.clients o = s.clients o
  keeps : Keeps (r.1.clients r.2) f
  idle : ∀ id o, Assoc.find r.1.pool.idle id = some o → Assoc.find s.pool.idle id = some o

omit [DecidableEq N] in
/-- A newly constructed one. -/
theorem hands_new [DecidableEq α] (hd : s.Distinct) (hi : s.pool.idle = []) (hw : s.pool.made < 2 ^ 32) {env : Env α}
    {tryRecover : Bool} {f : PosixFile} (hk : Keeps (Pool.newClient mrSize env.peers tryRecover).1 f) :
    Hands s (s.takeClient env tryRecover) f := by
  obtain ⟨-, hidle⟩ := getClient_created hd hi hw
  rw [takeClient_new hd hi hw]
  refine ⟨fun o ho => Function.update_of_ne ho _ _, ?_, fun id o hf => ?_⟩
  · show Keeps (Function.update s.clients s.pool.made _ s.pool.made) f
    rwa [Function.update_self]
  · rw [show ({ s with pool := s.pool.getClient.1, clients := _ } : Process N).pool.idle = [] from hidle] at hf
    cases hf

omit [DecidableEq N] in
/-- The client that `pool.GetClient` hands out for a new log. -/
theorem hands_empty [DecidableEq α] (h : Tracks s t) (hd : s.Distinct) (hclean : LogEvent.Clean s)
    (hw : s.pool.idle = [] → s.pool.made < 2 ^ 32) (mr : Buffer) (addrs : List α) (tryRecover : Bool) :
    Hands s (s.takeClient ⟨Pool.emptyPeers mrSize addrs, mr⟩ tryRecover) .empty := by
  cases hi : s.pool.idle with
  | nil => exact hands_new hd hi (hw hi) (keeps_new addrs tryRecover)
  | cons x rest =>
    obtain ⟨id, o⟩ := x
    have hget : s.pool.getClient = (s.pool.getClient.1, o, .reused) := by simp [ClientPool.getClient, hi]
    have hidle : s.pool.getClient.1.idle = rest := by simp [ClientPool.getClient, hi]
    have hnd := hd.pool.sorted
    rw [hi] at hnd
    obtain ⟨client, husable, hrec⟩ := h.idle id o (by rw [hi, Assoc.find_cons, if_pos rfl])
    have hsize : (Pool.recycleClient client).fileSize = 0 := by
      rw [← hrec]
      exact hclean (id, o) (by rw [hi]; rfl)
    unfold Process.takeClient
    rw [hget]
    refine ⟨fun o' ho => Function.update_of_ne ho _ _, ?_, fun id' o' hf => ?_⟩
    · have hk := keeps_recycled husable hsize mr addrs tryRecover
      show Keeps (Function.update s.clients o _ o) _
      rw [Function.update_self, hrec]
      exact hk
    · rw [hi]
      exact (Assoc.find_tail hnd (hidle ▸ hf)).2

/-- A path gets a client from the pool. -/
theorem adopt [DecidableEq α] (h : Tracks s t) (hd : s.Distinct) (hp : s.pathCli p = none)
    (hw : s.pool.idle = [] → s.pool.made < 2 ^ 32) {env : Env α} {flags : ℕ} (hflags : isCompSideLog flags = true)
    {f : PosixFile} (hands : Hands s (s.takeClient env (needRecoverData flags)) f) :
    Tracks (s.getClient env p flags (-1)) { t with file := Function.update t.file p (some f) } := by
  unfold Process.getClient
  rw [if_pos hflags, hp]
  obtain ⟨hfd, hpath, hpool, ho⟩ := Process.takeClient_spec s env (needRecoverData flags)
  have hdis := hd.take (t := { (s.takeClient env (needRecoverData flags)).1 with
    pathCli := Function.update (s.takeClient env (needRecoverData flags)).1.pathCli p
      (some (s.takeClient env (needRecoverData flags)).2) }) hp hw hpool (by rw [hpath, ho])
  obtain ⟨-, hnew, -⟩ := hd.pool.getClient hw
  generalize s.takeClient env (needRecoverData flags) = r at *
  -- the other paths have other clients
  have hother : ∀ q o, s.pathCli q = some o → o ≠ r.2 := fun q o hq he => hnew (ho ▸ he ▸ hd.busy q o hq)
  have hpaths : ∀ q, q ≠ p → Function.update r.1.pathCli p (some r.2) q = s.pathCli q := fun q hq =>
    (Function.update_of_ne hq _ _).trans (congrFun hpath q)
  refine ⟨fun fd o hr => ?_, fun fd hr => ?_, fun q o hq => ?_, fun q hq => ?_, fun id o hi => ?_⟩
  · have hr' : s.resolve fd = some o := by
      unfold Process.resolve at hr ⊢
      rwa [← hfd]
    obtain ⟨q, hq, hqo⟩ := h.opened fd o hr'
    refine ⟨q, hq, (hpaths q fun he => ?_).trans hqo⟩
    rw [he, hp] at hqo
    cases hqo
  · refine h.unopened fd ?_
    unfold Process.resolve at hr ⊢
    rwa [← hfd]
  · by_cases hqp : q = p
    · subst hqp
      have ho' : r.2 = o := Option.some.inj ((Function.update_self q _ r.1.pathCli).symm.trans hq)
      exact ⟨f, Function.update_self _ _ _, ho' ▸ hands.keeps⟩
    · have hq' : s.pathCli q = some o := (hpaths q hqp).symm.trans hq
      obtain ⟨f', hf', hk⟩ := h.file q o hq'
      exact ⟨f', (Function.update_of_ne hqp _ _).trans hf', hands.frame o (hother q o hq') ▸ hk⟩
  · have hqp : q ≠ p := by
      rintro rfl
      cases (Function.update_self q _ r.1.pathCli).symm.trans hq
    exact (Function.update_of_ne hqp _ _).trans (h.noFile q ((hpaths q hqp).symm.trans hq))
  · obtain ⟨client, husable, hrec⟩ := h.idle id o (hands.idle id o hi)
    have hne : o ≠ r.2 := idle_ne hdis hi (Function.update_self p _ r.1.pathCli)
    exact ⟨client, husable, (hands.frame o hne).trans hrec⟩

/-- A path gets a client, its own or one from the pool. -/
theorem provide [DecidableEq α] (h : Tracks s t) (hd : s.Distinct) (hclean : s.pathCli p = none → LogEvent.Clean s)
    (hw : s.pathCli p = none → s.pool.idle = [] → s.pool.made < 2 ^ 32) (mr : Buffer) (addrs : List α) {flags : ℕ}
    (hflags : isCompSideLog flags = true) :
    Tracks (s.getClient ⟨Pool.emptyPeers mrSize addrs, mr⟩ p flags (-1)) (t.provide p) := by
  unfold Files.provide
  cases hp : s.pathCli p with
  | some o =>
    obtain ⟨f, hf, -⟩ := h.file p o hp
    have hsame : Function.update t.file p (some ((t.file p).getD .empty)) = t.file := by
      rw [hf, Option.getD_some, ← hf, Function.update_eq_self]
    rw [hsame]
    unfold Process.getClient
    rw [if_pos hflags, hp]
    exact h
  | none =>
    rw [h.noFile p hp]
    exact h.adopt hd hp (hw hp) hflags (h.hands_empty hd (hclean hp) (hw hp) mr addrs _)

/-- `unlink` ends a log that is not open. -/
theorem unlink (h : Tracks s t) (hd : s.Distinct) (hfree : ∀ x ∈ s.fdCli, s.pathCli p ≠ some x.2) (orig : Ret) :
    Tracks (s.unlink p orig).process { t with file := Function.update t.file p none } := by
  unfold Process.unlink
  cases hp : s.pathCli p with
  | none =>
    have hsame : Function.update t.file p none = t.file := by
      rw [← h.noFile p hp, Function.update_eq_self]
    rw [hsame]
    exact h
  | some o =>
    have hbusy : Assoc.find s.pool.busy (ClientPool.idOf o) = some o := hd.busy p o hp
    have hrec : s.pool.recycleClient (ClientPool.idOf o) =
        ({ s.pool with
            busy := Assoc.erase s.pool.busy (ClientPool.idOf o)
            idle := Assoc.insert s.pool.idle (ClientPool.idOf o) o }, some o) := by
      unfold ClientPool.recycleClient
      rw [hbusy]
    dsimp only
    rw [hrec]
    obtain ⟨f, -, hk⟩ := h.file p o hp
    refine ⟨fun fd o' hr => ?_, h.unopened, fun q o' hq => ?_, fun q hq => ?_, fun id o' hi => ?_⟩
    · obtain ⟨q, hq, hqo⟩ := h.opened fd o' hr
      refine ⟨q, hq, (Function.update_of_ne (fun he => ?_) _ _).trans hqo⟩
      exact hfree _ (Assoc.mem_of_find hr) (he ▸ hqo)
    · rcases Assoc.update_cases hq with ⟨-, hno⟩ | ⟨hqp, hq⟩
      · cases hno
      · obtain ⟨f', hf', hk'⟩ := h.file q o' hq
        have hne : o' ≠ o := fun he => hqp (hd.inj q p o' hq (he ▸ hp))
        refine ⟨f', (Function.update_of_ne hqp _ _).trans hf', ?_⟩
        show Keeps (Function.update s.clients o _ o') f'
        rwa [Function.update_of_ne hne]
    · by_cases hqp : q = p
      · exact hqp ▸ Function.update_self _ _ _
      · exact (Function.update_of_ne hqp _ _).trans (h.noFile q ((Function.update_of_ne hqp _ _).symm.trans hq))
    · show ∃ c, _ ∧ Function.update s.clients o _ o' = _
      rcases Assoc.find_insert_cases hi with hold | ⟨-, rfl⟩
      · rw [Function.update_of_ne (idle_ne hd hold hp)]
        exact h.idle id o' hold
      · exact ⟨s.clients o', hk.usable, Function.update_self _ _ _⟩

/-- An open: `getClient` and the entry for the descriptor. -/
theorem getClient_eq [DecidableEq α] (s : Process N) (env : Env α) (p : N) {flags : ℕ}
    (hflags : isCompSideLog flags = true)
    (fd : ℤ) : ∃ o, (s.getClient env p flags (-1)).pathCli p = some o ∧
      s.getClient env p flags fd = (s.getClient env p flags (-1)).bindFd fd o ∧
        (s.getClient env p flags (-1)).fdCli = s.fdCli := by
  unfold Process.getClient
  rw [if_pos hflags, if_pos hflags]
  cases hp : s.pathCli p with
  | some o => exact ⟨o, hp, rfl, rfl⟩
  | none =>
    obtain ⟨hfd, -⟩ := Process.takeClient_spec s env (needRecoverData flags)
    exact ⟨(s.takeClient env (needRecoverData flags)).2, Function.update_self _ _ _, rfl, hfd⟩

/-- The path's client, from wherever it is, and a descriptor for it. -/
theorem openPath [DecidableEq α] {env : Env α} {flags : ℕ} (hflags : isCompSideLog flags = true) {t : Files N}
    (hprov : Tracks (s.getClient env p flags (-1)) t) (hfd : 0 ≤ fd) (hfree : s.resolve fd = none) :
    Tracks (s.getClient env p flags fd) { t with opened := Function.update t.opened fd (some p) } := by
  obtain ⟨o, hp, heq, hmap⟩ := getClient_eq s env p hflags fd
  rw [heq]
  refine hprov.bindFd hp hfd ?_
  unfold Process.resolve at hfree ⊢
  rwa [hmap]

theorem descriptor [DecidableEq α] (h : Tracks s t) (hd : s.Distinct) (hc : c.fd? = some fd) (hopen : c.closes = none)
    (hfit : t.FitsOn c orig fd) :
    Tracks (s.wrap env orig c).process (t.descriptor fd c orig).1 ∧
      (s.wrap env orig c).ret = (t.descriptor fd c orig).2 := by
  obtain ⟨hpath, hpool, hmap, hframe⟩ := Process.wrap_of_fd s env orig hc
  rw [if_pos hopen] at hmap
  unfold Files.FitsOn at hfit
  unfold Files.descriptor
  cases hr : s.resolve fd with
  | none =>
    rw [h.unopened fd hr] at hfit ⊢
    refine ⟨h.congr hmap hpath hpool (funext fun o => hframe o (by rw [hr]; simp)), ?_⟩
    refine (Process.wrap_of_resolve_none hc hr fun fd' he => hfit ?_).1
    rw [he] at hc
    cases hc
    exact he
  | some o =>
    obtain ⟨p, hp, hpo⟩ := h.opened fd o hr
    obtain ⟨f, hf, hk⟩ := h.file p o hpo
    rw [hp] at hfit
    simp only [hp, hf]
    obtain ⟨hk', hret⟩ := wrap_onFile env orig hc hr hk (hfit f hf) hopen
    refine ⟨h.update hd hpo hmap hpath hpool (fun o' hne => hframe o' ?_) hk', hret⟩
    rw [hr]
    exact fun he => hne (Option.some.inj he).symm

end Tracks

/-! ### Runs of calls -/

namespace Files

variable {N : Type*} [DecidableEq N] {t : Files N} {c : Posix N} {orig : Ret} {fd : ℤ} {p : N}

theorem step_of_fd (hc : c.fd? = some fd) (hopen : c.closes = none) : t.step c orig = t.descriptor fd c orig := by
  cases c with
  | close fd' | fclose fd' => cases hopen
  | openPath _ _ | openat _ _ _ | fopen _ _ | unlink _ | xstat _ => cases hc
  | _ =>
    cases hc
    rfl

theorem step_of_closes (hcl : c.closes = some fd) :
    t.step c orig = ({ t with opened := Function.update t.opened fd none }, orig) := by
  cases c with
  | close _ | fclose _ =>
    cases hcl
    rfl
  | _ => cases hcl

/-- A call on a descriptor without a log leaves the files alone. -/
theorem step_unopened (hc : c.fd? = some fd) (ho : t.opened fd = none) : (t.step c orig).1.file = t.file := by
  cases hcl : c.closes with
  | none =>
    rw [step_of_fd hc hcl]
    unfold descriptor
    rw [ho]
  | some fd' => rw [step_of_closes hcl]

/-- On another one it changes the file of the descriptor's path. -/
theorem step_opened (hc : c.fd? = some fd) (ho : t.opened fd = some p) {f : PosixFile} (hf : t.file p = some f) :
    (t.step c orig).1.file = Function.update t.file p (some (c.onFile f orig).1) := by
  cases hcl : c.closes with
  | none =>
    rw [step_of_fd hc hcl]
    unfold descriptor
    simp only [ho, hf]
  | some fd' =>
    have hsame : (c.onFile f orig).1 = f := by
      cases c with
      | close _ | fclose _ => rfl
      | _ => cases hcl
    rw [step_of_closes hcl, hsame, ← hf, Function.update_eq_self]

theorem isCompSideLog_modeFlags (mode : List Char) :
    isCompSideLog (Process.modeFlags mode) = true ↔ mode.getLast? = some 'l' := by
  unfold Process.modeFlags
  split
  · rename_i h
    simp only [h, iff_true]
    decide
  · rename_i h
    simp only [h, iff_false]
    decide

theorem provide_of_some {f : PosixFile} (hf : t.file p = some f) : t.provide p = t := by
  unfold provide
  rw [hf, Option.getD_some, ← hf, Function.update_eq_self]

theorem step_of_openArgs {flags : ℕ} (hc : c.openArgs = some (p, flags)) : t.step c orig =
    if 0 ≤ orig.value ∧ isCompSideLog flags = true then
      ({ t.provide p with opened := Function.update t.opened orig.value (some p) }, orig)
    else (t, orig) := by
  cases c with
  | openPath _ _ | openat _ _ _ =>
    cases hc
    rfl
  | fopen p' mode =>
    cases hc
    simp only [isCompSideLog_modeFlags]
    rfl
  | _ => cases hc

end Files

section Runs

variable {N α : Type*} [DecidableEq N] [DecidableEq α] {s : Session N} {t : Files N} {e : LogEvent N α}

omit [DecidableEq N] [DecidableEq α] in
theorem Event.asks_of_open {e : Event N α} {p : N} {flags : ℕ} (hc : e.call.openArgs = some (p, flags)) :
    e.asks = if 0 ≤ e.orig.value ∧ isCompSideLog flags = true then some p else none := by
  unfold Event.asks
  cases he : e.call with
  | xstat q =>
    rw [he] at hc
    cases hc
  | _ =>
    rw [he] at hc
    simp only [hc]

omit [DecidableEq N] [DecidableEq α] in
/-- A new descriptor does not refer to a client. -/
theorem Session.Sound.free (hs : s.Sound) {e : Event N α} (hfresh : s.Fresh e) {p : N} {flags : ℕ}
    (hc : e.call.openArgs = some (p, flags)) (hv : 0 ≤ e.orig.value) : s.process.resolve e.orig.value = none := by
  have hopens : e.opens = some (p, e.orig.value) := by
    unfold Event.opens
    rw [hc]
    exact if_pos hv
  by_contra hno
  obtain ⟨o, hr⟩ := Option.ne_none_iff_exists'.mp hno
  obtain ⟨q, hq, -⟩ := hs.agree _ o hr
  rw [hfresh (p, e.orig.value) hopens] at hq
  cases hq

/-- A call that opens a path. -/
theorem Tracks.step_open (h : Tracks s.process t) (hs : s.Sound) (ho : e.Orderly s t) {p : N} {flags : ℕ}
    (hc : e.call.openArgs = some (p, flags)) : Tracks (s.outcome e.event).process (t.step e.call e.orig).1 ∧
      (s.outcome e.event).ret = (t.step e.call e.orig).2 := by
  obtain ⟨hfresh, hcare, hclean, -⟩ := ho
  have hout : s.outcome e.event = s.process.openPath e.event.env p flags e.orig := Process.wrap_of_openArgs hc
  rw [hout, Files.step_of_openArgs hc]
  unfold Process.openPath
  by_cases hv : 0 ≤ e.orig.value
  · by_cases hf : isCompSideLog flags = true
    · have hasks : e.event.asks = some p := (Event.asks_of_open hc).trans (if_pos ⟨hv, hf⟩)
      have hfree : s.process.resolve e.orig.value = none := hs.free hfresh hc hv
      rw [if_pos hv, if_pos ⟨hv, hf⟩]
      have hprov := h.provide hs.distinct (hclean p hasks) (hcare.2 p hasks) e.mr e.addrs hf
      exact ⟨Tracks.openPath hf hprov hv hfree, rfl⟩
    · rw [if_pos hv, if_neg fun hb => hf hb.2, Process.getClient_of_not (Bool.not_eq_true _ ▸ hf)]
      exact ⟨h, rfl⟩
  · rw [if_neg hv, if_neg fun hb => hv hb.1]
    exact ⟨h, rfl⟩

/-- `__xstat64` of a path that it takes for a log: the size of the log. -/
theorem Tracks.xstat_ask {s : Process N} {t : Files N} {env : Env α} {p : N} {orig : Ret} {f : PosixFile}
    (h : Tracks (s.getClient env p oCsl (-1)) t) (hf : t.file p = some f) (hv : 0 ≤ orig.value ∧ orig.stSize = 0) :
    s.xstat env p orig = (s.getClient env p oCsl (-1)).pass { orig with stSize := f.bytes.length } := by
  have hcsl : isCompSideLog oCsl = true := by decide
  have hsize : (s.getClient env p oCsl (-1)).sizeOf p = f.bytes.length := by
    obtain ⟨o, ho, -⟩ := getClient_eq s env p hcsl (-1)
    obtain ⟨f', hf', hk⟩ := h.file p o ho
    obtain rfl := Option.some.inj (hf.symm.trans hf')
    unfold Process.sizeOf
    rw [ho, ← hk.shows.size]
  unfold Process.xstat
  rw [if_neg (by omega), if_pos hv.2]
  cases hp : s.pathCli p with
  | none => simp only [Option.isSome_none, Bool.false_eq_true, if_false, hsize]
  | some o =>
    have hget : s.getClient env p oCsl (-1) = s := by
      unfold Process.getClient
      rw [if_pos hcsl, hp]
      rfl
    rw [hget] at hsize ⊢
    simp only [Option.isSome_some, if_true, hsize]

/-- Another path keeps what it has. -/
theorem Tracks.xstat_pass {s : Process N} {t : Files N} (h : Tracks s t) (env : Env α) {p : N} {orig : Ret}
    (hv : ¬ (0 ≤ orig.value ∧ orig.stSize = 0)) :
    (s.xstat env p orig).process = s ∧ t.step (.xstat p) orig = (t, (s.xstat env p orig).ret) := by
  have hstep : t.step (.xstat p) orig = if orig.value < 0 then (t, orig) else
      match t.file p with
      | some f => (t, { orig with stSize := f.bytes.length })
      | none => if orig.stSize = 0 then (t.provide p, orig) else (t, orig) := rfl
  rw [hstep]
  unfold Process.xstat
  by_cases hneg : orig.value < 0
  · rw [if_pos hneg, if_pos hneg]
    exact ⟨rfl, rfl⟩
  · have hz : ¬ orig.stSize = 0 := fun hz => hv ⟨by omega, hz⟩
    rw [if_neg hneg, if_neg hneg, if_neg hz, if_neg hz]
    cases hp : s.pathCli p with
    | none =>
      rw [h.noFile p hp]
      exact ⟨rfl, rfl⟩
    | some o =>
      obtain ⟨f, hf, hk⟩ := h.file p o hp
      have hsize : s.sizeOf p = f.bytes.length := by
        unfold Process.sizeOf
        rw [hp, ← hk.shows.size]
      rw [hf, hsize]
      exact ⟨rfl, rfl⟩

/-- `__xstat64`. -/
theorem Tracks.step_xstat (h : Tracks s.process t) (hs : s.Sound) (ho : e.Orderly s t) {p : N}
    (hc : e.call = .xstat p) : Tracks (s.outcome e.event).process (t.step e.call e.orig).1 ∧
      (s.outcome e.event).ret = (t.step e.call e.orig).2 := by
  obtain ⟨-, hcare, hclean, -⟩ := ho
  have hout : s.outcome e.event = s.process.xstat e.event.env p e.orig := by
    show s.process.wrap e.event.env e.orig e.call = _
    rw [hc]
    rfl
  rw [hout, hc]
  by_cases hv : 0 ≤ e.orig.value ∧ e.orig.stSize = 0
  · have hasks : e.event.asks = some p := by
      unfold Event.asks
      rw [show e.event.call = .xstat p from hc]
      exact if_pos hv
    have hprov : Tracks (s.process.getClient e.event.env p oCsl (-1)) (t.provide p) :=
      h.provide hs.distinct (hclean p hasks) (hcare.2 p hasks) e.mr e.addrs (by decide)
    have hstep : t.step (.xstat p) e.orig =
        (t.provide p, { e.orig with stSize := ((t.file p).getD .empty).bytes.length }) := by
      show (if e.orig.value < 0 then _ else _) = _
      rw [if_neg (by omega)]
      cases hf : t.file p with
      | some f =>
        rw [Files.provide_of_some hf]
        rfl
      | none =>
        rw [if_pos hv.2]
        exact congrArg (fun n => (_, ({ e.orig with stSize := n } : Ret))) hv.2
    rw [hprov.xstat_ask (Function.update_self _ _ _) hv, hstep]
    exact ⟨hprov, rfl⟩
  · obtain ⟨hproc, hstep⟩ := h.xstat_pass e.event.env (p := p) hv
    rw [hproc, hstep]
    exact ⟨h, rfl⟩

/-- **One call.** It returns what the file system returns, and the process goes on
tracking it. -/
theorem Tracks.step (h : Tracks s.process t) (hs : s.Sound) (ho : e.Orderly s t) :
    Tracks (s.outcome e.event).process (t.step e.call e.orig).1 ∧
      (s.outcome e.event).ret = (t.step e.call e.orig).2 := by
  rcases e.call.kinds with ⟨fd, hc⟩ | ⟨p, flags, hc⟩ | ⟨p, hc⟩ | ⟨p, hc⟩
  · obtain ⟨-, -, -, hfits⟩ := ho
    cases hcl : e.call.closes with
    | none =>
      rw [Files.step_of_fd hc hcl]
      exact h.descriptor hs.distinct hc hcl (hfits fd hc)
    | some fd' =>
      have hout : s.outcome e.event =
          { s.process with fdCli := Assoc.erase s.process.fdCli fd' }.pass e.orig := Process.wrap_of_closes hcl
      rw [hout, Files.step_of_closes hcl]
      exact ⟨h.close fd', rfl⟩
  · exact h.step_open hs ho hc
  · have hout : s.outcome e.event = s.process.unlink p e.orig := by
      show s.process.wrap e.event.env e.orig e.call = _
      rw [hc]
      rfl
    have hret : (s.process.unlink p e.orig).ret = e.orig := by
      unfold Process.unlink
      split <;> rfl
    obtain ⟨-, hcare, -⟩ := ho
    rw [hout, hc]
    exact ⟨h.unlink hs.distinct (hcare.1 p (by rw [show e.event.call = .unlink p from hc]; rfl)) e.orig, hret⟩
  · exact h.step_xstat hs ho hc

/-- What the calls return, from states that agree. -/
theorem Tracks.rets_eq (es : List (LogEvent N α)) (h : Tracks s.process t) (hs : s.Sound) (ho : AllOrderly s t es) :
    s.rets es = t.rets es := by
  induction es generalizing s t with
  | nil => rfl
  | cons e es ih =>
    obtain ⟨he, hes⟩ := ho
    obtain ⟨htracks, hret⟩ := h.step hs he
    have hsound : (s.after e.event).Sound := hs.step he.2.1 (Session.step_eq_some.mpr ⟨he.1, rfl⟩)
    have hrest : (s.after e.event).rets es = (t.step e.call e.orig).1.rets es := ih htracks hsound hes
    exact congrArg₂ List.cons hret hrest

/-- **The interposed calls are a file system.** In every run of orderly calls, on
any number of paths and descriptors, logs or not, each call returns what it
returns on the file system: on a log's descriptor what the file of its path
returns, elsewhere what the original returns. -/
theorem interposed_refine_files {es : List (LogEvent N α)} (h : AllOrderly Session.init Files.init es) :
    Session.init.rets es = Files.init.rets es :=
  Tracks.init.rets_eq es Session.sound_init h

/-- A call on servers that hold nothing. -/
def onLog (c : Posix String) (value : ℤ) : LogEvent String ℕ := ⟨c, ⟨value, [], 0⟩, [7], mrSize.region Mem.zero⟩

/-- Two logs and an ordinary file; the first log is closed, opened again by
another descriptor at the same offset, and unlinked, and the client of an empty
log is used again. -/
def mixedCalls : List (LogEvent String ℕ) :=
  [onLog (.openPath "/e" oCsl) 5, onLog (.close 5) 0, onLog (.unlink "/e") 0, onLog (.openPath "/a" oCsl) 3,
    onLog (.fopen "/b" ['a', 'l']) 4, onLog (.openPath "/c" 0) 5, onLog (.write 3 [1, 2, 3]) 0,
    onLog (.pwrite 4 [9] 2) 0, onLog (.write 5 [4]) 1, onLog (.lseek 3 1 .seekSet) 0, onLog (.close 3) 0,
    onLog (.openPath "/a" oCsl) 6, onLog (.read 6 8) 0, onLog (.fread 4 1 8) 0, onLog (.xstat "/b") 0]

theorem interposed_refine_files_mixedCalls :
    (Session.init.rets mixedCalls).drop 6 =
      [⟨3, [], 0⟩, ⟨1, [], 0⟩, ⟨1, [], 0⟩, ⟨1, [], 0⟩, ⟨0, [], 0⟩, ⟨6, [], 0⟩, ⟨2, [2, 3], 0⟩,
        ⟨3, [0, 0, 9], 0⟩, ⟨0, [], 3⟩] := by
  rw [interposed_refine_files (by decide)]
  decide

end Runs

end ComputeSideLog
