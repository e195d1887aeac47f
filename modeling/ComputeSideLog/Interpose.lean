/-
# The interposed file calls

`src/csl.cc` stands between the application and libc. A file opened with
`O_CSL`, or with `fopen` and a mode that ends in `l`, gets a client, and the
calls on its descriptor go to the client; all others are passed on. Two maps
keep the clients: `csl_fd_cli` by descriptor and `csl_path_cli` by the path
as it was passed. `close` drops the first kind of entry, `unlink` the second,
and recycles the client.

What the original function returns is an input of a call, so that a call
passed on returns it. `Session` runs the calls one after the other and
records, beside the wrappers' own state, which path each open descriptor was
opened on, how often a path was unlinked, and whether `__xstat64` found it
empty since.

Key definitions: `Posix`, `Process.getClient`, `Process.unlink`,
`Process.xstat`, `Process.wrap`, `Session.step`.
Key theorems: `Process.wrap_of_fd`, `Process.wrap_ret_congr`,
`Process.wrap_of_openArgs`, `Session.step_eq_some`.
-/
import Mathlib.Logic.Function.Basic
import ComputeSideLog.Lib.Trace
import ComputeSideLog.ClientPool
import ComputeSideLog.Recycle

namespace ComputeSideLog

/-- `O_CSL` (`src/csl.h`). -/
def oCsl : ℕ := 0o40000000

/-- `O_TRUNC`. -/
def oTrunc : ℕ := 0o1000

/-- `__IS_COMP_SIDE_LOG`. -/
def isCompSideLog (flags : ℕ) : Bool := decide (flags &&& oCsl ≠ 0)

/-- `__NEED_RECOVER_DATA`. -/
def needRecoverData (flags : ℕ) : Bool := decide (flags &&& oTrunc = 0)

/-- `MR_SIZE`. -/
def mrSize : Layout := ⟨1024 * 1024 * 100, by unfold seqWidth; omega, by omega⟩

/-- An intercepted call. A stream stands for its descriptor (`fileno`). The `64`
variants, `fdatasync` and `fread_unlocked` differ from the calls here only in
the function they pass on to. -/
inductive Posix (N : Type*) where
  | openPath (pathname : N) (flags : ℕ)
  | openat (dirfd : ℤ) (pathname : N) (flags : ℕ)
  | fopen (pathname : N) (mode : List Char)
  | write (fd : ℤ) (buf : List UInt8)
  | pwrite (fd : ℤ) (buf : List UInt8) (offset : ℤ)
  | read (fd : ℤ) (count : ℕ)
  | pread (fd : ℤ) (count : ℕ) (offset : ℤ)
  | lseek (fd : ℤ) (offset : ℤ) (whence : Whence)
  | fseek (fd : ℤ) (offset : ℤ) (whence : Whence)
  | ftello (fd : ℤ)
  | ftruncate (fd : ℤ) (length : ℤ)
  | fsync (fd : ℤ)
  | fread (fd : ℤ) (size nmemb : ℕ)
  | fgets (fd : ℤ) (size : ℤ)
  | feof (fd : ℤ)
  | fxstat (fd : ℤ)
  | close (fd : ℤ)
  | fclose (fd : ℤ)
  | unlink (pathname : N)
  | xstat (pathname : N)
  deriving DecidableEq

/-- What a call gives its caller: the return value (of `fopen` the descriptor of
the stream, negative for a null pointer; of `fgets` 0 for a null pointer), the
bytes it stores in the caller's buffer (of a `stat64` all but `st_size`), and
`st_size`. -/
structure Ret where
  value : ℤ
  bytes : List UInt8
  stSize : ℤ
  deriving DecidableEq, Repr

/-- The result of a client's operation as the wrappers return it. -/
def Result.toRet : Result → Ret
  | .value n => ⟨n, [], 0⟩
  | .bytes bs => ⟨bs.length, bs, 0⟩
  | .line none => ⟨0, [], 0⟩
  | .line (some l) => ⟨1, l, 0⟩

/-- An operation of a client, for a wrapper. -/
def Client.perform (o : Op) (c : Client) : Client × Ret := ((c.op o).1, (c.op o).2.toRet)

/-- What `pool.GetClient` finds outside: the peers with their regions for the
file, and the region `GetMRofSize` would return. -/
structure Env (α : Type*) where
  peers : List (Peer α)
  mr : Buffer

/-- The static variables of `csl.cc`: clients stand in the maps by the number of
their object. -/
structure Process (N : Type*) where
  fdCli : List (ℤ × ℕ)
  pathCli : N → Option ℕ
  pool : ClientPool
  clients : ℕ → Client

/-- What a wrapper does: the process after it, what the caller gets, and whether
the original function was called. -/
structure Outcome (N : Type*) where
  process : Process N
  ret : Ret
  original : Bool

namespace Process

variable {N : Type*}

/-- Before the first call. -/
def init : Process N := ⟨[], fun _ => none, .empty, fun _ => .fresh mrSize⟩

/-- The client that `csl_fd_cli` has for a descriptor. -/
def resolve (s : Process N) (fd : ℤ) : Option ℕ := Assoc.find s.fdCli fd

/-- The call is passed on. -/
def pass (s : Process N) (orig : Ret) : Outcome N := ⟨s, orig, true⟩

/-- The wrappers of the calls on a descriptor: `f` is what they do with its
client, `orig` what the original returns where there is none. -/
def delegate (s : Process N) (fd : ℤ) (orig : Ret) (f : Client → Client × Ret) : Outcome N :=
  match s.resolve fd with
  | some o =>
    ⟨{ s with clients := Function.update s.clients o (f (s.clients o)).1 }, (f (s.clients o)).2, false⟩
  | none => s.pass orig

/-- `write`. -/
def write (s : Process N) (fd : ℤ) (buf : List UInt8) (orig : Ret) : Outcome N :=
  s.delegate fd orig (Client.perform (.append buf))

/-- `pwrite_internal`. -/
def pwrite (s : Process N) (fd : ℤ) (buf : List UInt8) (offset : ℤ) (orig : Ret) : Outcome N :=
  s.delegate fd orig (Client.perform (.writePos buf (toSize offset)))

/-- `read`. -/
def read (s : Process N) (fd : ℤ) (count : ℕ) (orig : Ret) : Outcome N :=
  s.delegate fd orig (Client.perform (.read count))

/-- `pread_internal`. -/
def pread (s : Process N) (fd : ℤ) (count : ℕ) (offset : ℤ) (orig : Ret) : Outcome N :=
  s.delegate fd orig (Client.perform (.readPos count (toSize offset)))

/-- `lseek`. -/
def lseek (s : Process N) (fd offset : ℤ) (whence : Whence) (orig : Ret) : Outcome N :=
  s.delegate fd orig (Client.perform (.seek offset whence))

/-- `fseek`: the new position as an `int`. -/
def fseek (s : Process N) (fd offset : ℤ) (whence : Whence) (orig : Ret) : Outcome N :=
  s.delegate fd orig fun c => (c.seek offset whence, ⟨toInt (c.seek offset whence).bufOffset, [], 0⟩)

/-- `ftello64`: `original_ftell_t` is declared to return an `int`. -/
def ftello (s : Process N) (fd : ℤ) (orig : Ret) : Outcome N :=
  s.delegate fd { orig with value := toInt orig.value } fun c => (c, ⟨c.bufOffset, [], 0⟩)

/-- `ftruncate_internal`. -/
def ftruncate (s : Process N) (fd length : ℤ) (orig : Ret) : Outcome N :=
  s.delegate fd orig (Client.perform (.truncate length))

/-- `sync_internal`: nothing to do for a log. -/
def fsync (s : Process N) (fd : ℤ) (orig : Ret) : Outcome N := s.delegate fd orig fun c => (c, ⟨0, [], 0⟩)

/-- `fread_internal`: the size goes through an `int`. -/
def fread (s : Process N) (fd : ℤ) (size nmemb : ℕ) (orig : Ret) : Outcome N :=
  s.delegate fd orig fun c =>
    let r := c.read (size * nmemb % 2 ^ 64)
    (r.1, ⟨toSize (toInt r.2.length), r.2, 0⟩)

/-- `fgets`. -/
def fgets (s : Process N) (fd size : ℤ) (orig : Ret) : Outcome N :=
  s.delegate fd orig (Client.perform (.getLine size))

/-- `feof`. -/
def feof (s : Process N) (fd : ℤ) (orig : Ret) : Outcome N := s.delegate fd orig (Client.perform .eof)

/-- `__fxstat64`: the original fills the structure, the client corrects the size. -/
def fxstat (s : Process N) (fd : ℤ) (orig : Ret) : Outcome N :=
  match s.resolve fd with
  | some o => s.pass { orig with stSize := (s.clients o).fileSize }
  | none => s.pass orig

/-- `close`; the client stays with its path. -/
def close (s : Process N) (fd : ℤ) (orig : Ret) : Outcome N :=
  { s with fdCli := Assoc.erase s.fdCli fd }.pass orig

/-- `fclose`. -/
def fclose (s : Process N) (fd : ℤ) (orig : Ret) : Outcome N := s.close fd orig

variable [DecidableEq N]

/-- `unlink`: the client goes back to the pool, whether or not descriptors still
refer to it. -/
def unlink (s : Process N) (pathname : N) (orig : Ret) : Outcome N :=
  match s.pathCli pathname with
  | none => s.pass orig
  | some o =>
    let r := s.pool.recycleClient (ClientPool.idOf o)
    let clients := match r.2 with
      | some o' => Function.update s.clients o' (Pool.recycleClient (s.clients o'))
      | none => s.clients
    { s with pool := r.1, clients, pathCli := Function.update s.pathCli pathname none }.pass orig

variable {α : Type*} [DecidableEq α]

/-- `pool.GetClient`: the process after it and the client. -/
def takeClient (s : Process N) (env : Env α) (tryRecover : Bool) : Process N × ℕ :=
  match s.pool.getClient with
  | (pool, o, .created) =>
    ({ s with pool, clients := Function.update s.clients o (Pool.newClient mrSize env.peers tryRecover).1 }, o)
  | (pool, o, .reused) =>
    let c := Pool.getClient (s.clients o) mrSize.size env.mr env.peers tryRecover
    ({ s with pool, clients := Function.update s.clients o c.1 }, o)
  | (pool, o, .clash) => ({ s with pool }, o)

/-- The insertion into `csl_fd_cli`. -/
def bindFd (s : Process N) (fd : ℤ) (o : ℕ) : Process N :=
  if 0 ≤ fd then { s with fdCli := Assoc.insert s.fdCli fd o } else s

/-- `getClient`. -/
def getClient (s : Process N) (env : Env α) (pathname : N) (flags : ℕ) (fd : ℤ) : Process N :=
  if isCompSideLog flags then
    match s.pathCli pathname with
    | some o => s.bindFd fd o
    | none =>
      let r := s.takeClient env (needRecoverData flags)
      { r.1 with pathCli := Function.update r.1.pathCli pathname (some r.2) }.bindFd fd r.2
  else s

/-- `open`. -/
def openPath (s : Process N) (env : Env α) (pathname : N) (flags : ℕ) (orig : Ret) : Outcome N :=
  (if 0 ≤ orig.value then s.getClient env pathname flags orig.value else s).pass orig

/-- `openat`: the directory plays no part. -/
def openat (s : Process N) (env : Env α) (pathname : N) (flags : ℕ) (orig : Ret) : Outcome N :=
  s.openPath env pathname flags orig

/-- The flags `fopen_internal` passes to `getClient`; with 0 `getClient` does
nothing, as where it is not called. -/
def modeFlags (mode : List Char) : ℕ := if mode.getLast? = some 'l' then oCsl else 0

/-- `fopen_internal`. -/
def fopen (s : Process N) (env : Env α) (pathname : N) (mode : List Char) (orig : Ret) : Outcome N :=
  s.openPath env pathname (modeFlags mode) orig

/-- `csl_path_cli[name]->GetFileSize()`. -/
def sizeOf (s : Process N) (name : N) : ℤ :=
  match s.pathCli name with
  | some o => (s.clients o).fileSize
  | none => 0

/-- `__xstat64`: a file of size 0 is taken for a log, whose client is fetched. -/
def xstat (s : Process N) (env : Env α) (name : N) (orig : Ret) : Outcome N :=
  if orig.value < 0 then s.pass orig
  else if (s.pathCli name).isSome then s.pass { orig with stSize := s.sizeOf name }
  else if orig.stSize = 0 then
    let t := s.getClient env name oCsl (-1)
    t.pass { orig with stSize := t.sizeOf name }
  else s.pass orig

/-- The wrapper of a call, where the original returns `orig`. -/
def wrap (s : Process N) (env : Env α) (orig : Ret) : Posix N → Outcome N
  | .openPath pathname flags => s.openPath env pathname flags orig
  | .openat _ pathname flags => s.openat env pathname flags orig
  | .fopen pathname mode => s.fopen env pathname mode orig
  | .write fd buf => s.write fd buf orig
  | .pwrite fd buf offset => s.pwrite fd buf offset orig
  | .read fd count => s.read fd count orig
  | .pread fd count offset => s.pread fd count offset orig
  | .lseek fd offset whence => s.lseek fd offset whence orig
  | .fseek fd offset whence => s.fseek fd offset whence orig
  | .ftello fd => s.ftello fd orig
  | .ftruncate fd length => s.ftruncate fd length orig
  | .fsync fd => s.fsync fd orig
  | .fread fd size nmemb => s.fread fd size nmemb orig
  | .fgets fd size => s.fgets fd size orig
  | .feof fd => s.feof fd orig
  | .fxstat fd => s.fxstat fd orig
  | .close fd => s.close fd orig
  | .fclose fd => s.fclose fd orig
  | .unlink pathname => s.unlink pathname orig
  | .xstat name => s.xstat env name orig

end Process

namespace Posix

variable {N : Type*}

/-- The descriptor that a call works on. -/
def fd? : Posix N → Option ℤ
  | .write fd _ | .pwrite fd _ _ | .read fd _ | .pread fd _ _ | .lseek fd _ _ | .fseek fd _ _ | .ftello fd
  | .ftruncate fd _ | .fsync fd | .fread fd _ _ | .fgets fd _ | .feof fd | .fxstat fd | .close fd
  | .fclose fd => some fd
  | _ => none

/-- The descriptor that a call closes. -/
def closes : Posix N → Option ℤ
  | .close fd | .fclose fd => some fd
  | _ => none

/-- The path that a call opens, with the flags for `getClient`. -/
def openArgs : Posix N → Option (N × ℕ)
  | .openPath pathname flags | .openat _ pathname flags => some (pathname, flags)
  | .fopen pathname mode => some (pathname, Process.modeFlags mode)
  | _ => none

/-- The path that a call names. -/
def path? : Posix N → Option N
  | .openPath pathname _ | .openat _ pathname _ | .fopen pathname _ | .unlink pathname
  | .xstat pathname => some pathname
  | _ => none

/-- The path that a call unlinks. -/
def unlinks : Posix N → Option N
  | .unlink pathname => some pathname
  | _ => none

/-- A call works on a descriptor, opens a path, unlinks one or asks for its size. -/
theorem kinds (c : Posix N) : (∃ fd, c.fd? = some fd) ∨ (∃ p flags, c.openArgs = some (p, flags)) ∨
    (∃ p, c = .unlink p) ∨ ∃ p, c = .xstat p := by
  cases c with
  | openPath p flags => exact .inr (.inl ⟨p, flags, rfl⟩)
  | openat dirfd p flags => exact .inr (.inl ⟨p, flags, rfl⟩)
  | fopen p mode => exact .inr (.inl ⟨p, _, rfl⟩)
  | unlink p => exact .inr (.inr (.inl ⟨p, rfl⟩))
  | xstat p => exact .inr (.inr (.inr ⟨p, rfl⟩))
  | _ => exact .inl ⟨_, rfl⟩

theorem closes_eq {c : Posix N} {fd : ℤ} (h : c.fd? = some fd) : c.closes = none ∨ c.closes = some fd := by
  cases c with
  | close fd' | fclose fd' => exact .inr h
  | _ => exact .inl rfl

theorem openArgs_of_fd {c : Posix N} {fd : ℤ} (h : c.fd? = some fd) : c.openArgs = none := by
  cases c with
  | openPath _ _ | openat _ _ _ | fopen _ _ => cases h
  | _ => rfl

theorem path_of_fd {c : Posix N} {fd : ℤ} (h : c.fd? = some fd) : c.path? = none := by
  cases c with
  | openPath _ _ | openat _ _ _ | fopen _ _ | unlink _ | xstat _ => cases h
  | _ => rfl

end Posix

/-! ### What a wrapper can do -/

namespace Process

variable {N α : Type*} {s t : Process N} {env : Env α} {orig : Ret} {c : Posix N}

theorem delegate_maps (fd : ℤ) (f : Client → Client × Ret) :
    (s.delegate fd orig f).process = { s with clients := (s.delegate fd orig f).process.clients } := by
  unfold delegate
  split <;> rfl

theorem delegate_frame {fd : ℤ} (f : Client → Client × Ret) {o : ℕ} (ho : s.resolve fd ≠ some o) :
    (s.delegate fd orig f).process.clients o = s.clients o := by
  unfold delegate
  split
  · rename_i o' hr
    refine Function.update_of_ne (fun he => ho ?_) _ _
    rw [he, hr]
  · rfl

theorem delegate_congr {fd : ℤ} (f : Client → Client × Ret) (hr : s.resolve fd = t.resolve fd)
    (hc : ∀ o, s.resolve fd = some o → s.clients o = t.clients o) :
    (s.delegate fd orig f).ret = (t.delegate fd orig f).ret := by
  unfold delegate
  rw [← hr]
  cases h : s.resolve fd with
  | none => rfl
  | some o => exact congrArg (fun x => (f x).2) (hc o h)

theorem delegate_of_none {fd : ℤ} (f : Client → Client × Ret) (hr : s.resolve fd = none) :
    s.delegate fd orig f = s.pass orig := by
  unfold delegate
  rw [hr]

theorem bindFd_eq (fd : ℤ) (o : ℕ) : s.bindFd fd o = { s with fdCli := (s.bindFd fd o).fdCli } := by
  unfold bindFd
  split <;> rfl

variable [DecidableEq N] [DecidableEq α]

/-- A call on a descriptor changes no map but for a closed descriptor, and no
client but the descriptor's own. -/
theorem wrap_of_fd (s : Process N) (env : Env α) (orig : Ret) {fd : ℤ} (h : c.fd? = some fd) :
    (s.wrap env orig c).process.pathCli = s.pathCli ∧ (s.wrap env orig c).process.pool = s.pool ∧
      (s.wrap env orig c).process.fdCli = (if c.closes = none then s.fdCli else Assoc.erase s.fdCli fd) ∧
      ∀ o, s.resolve fd ≠ some o → (s.wrap env orig c).process.clients o = s.clients o := by
  have hdel : ∀ (orig : Ret) (f : Client → Client × Ret), (s.delegate fd orig f).process.pathCli = s.pathCli ∧
      (s.delegate fd orig f).process.pool = s.pool ∧ (s.delegate fd orig f).process.fdCli = s.fdCli ∧
      ∀ o, s.resolve fd ≠ some o → (s.delegate fd orig f).process.clients o = s.clients o := by
    intro orig f
    refine ⟨?_, ?_, ?_, fun o ho => delegate_frame f ho⟩
    all_goals rw [delegate_maps]
  cases c with
  | fxstat fd' =>
    cases h
    show (s.fxstat fd orig).process.pathCli = _ ∧ (s.fxstat fd orig).process.pool = _ ∧
      (s.fxstat fd orig).process.fdCli = _ ∧ ∀ o, _ → (s.fxstat fd orig).process.clients o = _
    unfold fxstat
    split <;> exact ⟨rfl, rfl, rfl, fun _ _ => rfl⟩
  | close fd' | fclose fd' =>
    cases h
    exact ⟨rfl, rfl, rfl, fun _ _ => rfl⟩
  | openPath _ _ | openat _ _ _ | fopen _ _ | unlink _ | xstat _ => cases h
  | _ =>
    cases h
    exact hdel _ _

/-- What such a call returns depends on the descriptor's client alone. -/
theorem wrap_ret_congr {fd : ℤ} (h : c.fd? = some fd) (hr : s.resolve fd = t.resolve fd)
    (hc : ∀ o, s.resolve fd = some o → s.clients o = t.clients o) :
    (s.wrap env orig c).ret = (t.wrap env orig c).ret := by
  cases c with
  | fxstat fd' =>
    cases h
    show (s.fxstat fd orig).ret = (t.fxstat fd orig).ret
    unfold fxstat
    rw [← hr]
    cases ho : s.resolve fd with
    | none => rfl
    | some o => exact congrArg (fun x : Client => ({ orig with stSize := x.fileSize } : Ret)) (hc o ho)
  | close fd' | fclose fd' => rfl
  | openPath _ _ | openat _ _ _ | fopen _ _ | unlink _ | xstat _ => cases h
  | _ =>
    cases h
    exact delegate_congr _ hr hc

/-- Without a client it is passed on. -/
theorem wrap_of_resolve_none {fd : ℤ} (h : c.fd? = some fd) (hr : s.resolve fd = none)
    (hfit : ∀ fd, c = .ftello fd → toInt orig.value = orig.value) :
    (s.wrap env orig c).ret = orig ∧ (s.wrap env orig c).original = true := by
  cases c with
  | fxstat fd' =>
    cases h
    show (s.fxstat fd orig).ret = orig ∧ (s.fxstat fd orig).original = true
    unfold fxstat
    rw [hr]
    exact ⟨rfl, rfl⟩
  | ftello fd' =>
    cases h
    show (s.ftello fd orig).ret = orig ∧ (s.ftello fd orig).original = true
    unfold ftello
    rw [hfit fd rfl, delegate_of_none _ hr]
    exact ⟨rfl, rfl⟩
  | close fd' | fclose fd' => exact ⟨rfl, rfl⟩
  | openPath _ _ | openat _ _ _ | fopen _ _ | unlink _ | xstat _ => cases h
  | write fd' buf | pwrite fd' buf offset | read fd' count | pread fd' count offset | lseek fd' offset whence
  | fseek fd' offset whence | ftruncate fd' length | fsync fd' | fread fd' size nmemb | fgets fd' size
  | feof fd' =>
    cases h
    show (s.delegate fd orig _).ret = orig ∧ (s.delegate fd orig _).original = true
    rw [delegate_of_none _ hr]
    exact ⟨rfl, rfl⟩

theorem wrap_of_openArgs {p : N} {flags : ℕ} (h : c.openArgs = some (p, flags)) :
    s.wrap env orig c = s.openPath env p flags orig := by
  cases c with
  | openPath _ _ | openat _ _ _ | fopen _ _ =>
    cases h
    rfl
  | _ => cases h

omit [DecidableEq N] in
/-- What `pool.GetClient` leaves as it was. -/
theorem takeClient_spec (s : Process N) (env : Env α) (r : Bool) : (s.takeClient env r).1.fdCli = s.fdCli ∧
    (s.takeClient env r).1.pathCli = s.pathCli ∧ (s.takeClient env r).1.pool = s.pool.getClient.1 ∧
    (s.takeClient env r).2 = s.pool.getClient.2.1 := by
  unfold takeClient
  rcases s.pool.getClient with ⟨pool, o, src⟩
  cases src <;> exact ⟨rfl, rfl, rfl, rfl⟩

/-- `getClient` in a log's name: it leaves the path with a client, its old one or
one from the pool, which the descriptor then refers to. -/
theorem getClient_cases (s : Process N) (env : Env α) (p : N) {flags : ℕ} (hf : isCompSideLog flags = true) (fd : ℤ) :
    ∃ o t, s.getClient env p flags fd = bindFd t fd o ∧ t.pathCli p = some o ∧ t.fdCli = s.fdCli ∧
      ((s.pathCli p = some o ∧ t = s) ∨
        (s.pathCli p = none ∧ o = s.pool.getClient.2.1 ∧ t.pool = s.pool.getClient.1 ∧
          t.pathCli = Function.update s.pathCli p (some o))) := by
  unfold getClient
  rw [if_pos hf]
  cases hp : s.pathCli p with
  | some o => exact ⟨o, s, rfl, hp, rfl, .inl ⟨rfl, rfl⟩⟩
  | none =>
    obtain ⟨hfd, hpath, hpool, ho⟩ := takeClient_spec s env (needRecoverData flags)
    refine ⟨_, _, rfl, Function.update_self _ _ _, hfd, .inr ⟨rfl, ho, hpool, ?_⟩⟩
    rw [← hpath]

theorem getClient_of_not {p : N} {flags : ℕ} (hf : isCompSideLog flags = false) (fd : ℤ) :
    s.getClient env p flags fd = s := by
  unfold getClient
  rw [hf]
  rfl

/-- Whatever the flags, `getClient` touches its own path and descriptor only. -/
theorem getClient_frame (s : Process N) (env : Env α) (p : N) (flags : ℕ) (fd : ℤ) :
    (∀ q, q ≠ p → (s.getClient env p flags fd).pathCli q = s.pathCli q) ∧
      ∀ fd', fd' ≠ fd ∨ fd' < 0 → (s.getClient env p flags fd).resolve fd' = s.resolve fd' := by
  cases hf : isCompSideLog flags with
  | false =>
    rw [getClient_of_not hf]
    exact ⟨fun _ _ => rfl, fun _ _ => rfl⟩
  | true =>
    obtain ⟨o, t, ht, -, hfd, hcases⟩ := getClient_cases s env p hf fd
    rw [ht]
    constructor
    · intro q hq
      rw [bindFd_eq]
      rcases hcases with ⟨-, rfl⟩ | ⟨-, -, -, hpath⟩
      · rfl
      · calc t.pathCli q = Function.update s.pathCli p (some o) q := by rw [hpath]
          _ = s.pathCli q := Function.update_of_ne hq _ _
    · intro fd' hfd'
      unfold resolve bindFd
      split
      · rw [← hfd]
        exact Assoc.find_insert_ne (by omega)
      · rw [hfd]

end Process

/-! ### Sequences of calls -/

/-- A call, what the original function returns, and what `pool.GetClient` finds. -/
structure Event (N α : Type*) where
  call : Posix N
  orig : Ret
  env : Env α

/-- The file behind an open descriptor: the path it was opened on, and how often
the path had been unlinked before. -/
structure File (N : Type*) where
  path : N
  gen : ℕ
  deriving DecidableEq

/-- A process with what the application knows: the open descriptors' files, the
number of `unlink` calls on each path, and the paths that `__xstat64` found
empty since the last of these. -/
structure Session (N : Type*) where
  process : Process N
  opened : ℤ → Option (File N)
  gens : N → ℕ
  probed : N → Bool

namespace Event

variable {N α : Type*} (e : Event N α)

/-- The path and the descriptor of a successful open. -/
def opens : Option (N × ℤ) :=
  match e.call.openArgs with
  | some (p, _) => if 0 ≤ e.orig.value then some (p, e.orig.value) else none
  | none => none

/-- The path that `getClient` is called for in a log's name. -/
def asks : Option N :=
  match e.call with
  | .xstat p => if 0 ≤ e.orig.value ∧ e.orig.stSize = 0 then some p else none
  | c =>
    match c.openArgs with
    | some (p, flags) => if 0 ≤ e.orig.value ∧ isCompSideLog flags = true then some p else none
    | none => none

end Event

namespace Session

variable {N α : Type*} [DecidableEq N] [DecidableEq α]

/-- Before the first call. -/
def init : Session N := ⟨.init, fun _ => none, fun _ => 0, fun _ => false⟩

/-- A new descriptor is one that is not open. -/
def Fresh (s : Session N) (e : Event N α) : Prop := ∀ x ∈ e.opens, s.opened x.2 = none

instance (s : Session N) (e : Event N α) : Decidable (s.Fresh e) :=
  inferInstanceAs (Decidable (∀ x ∈ e.opens, _))

/-- What the wrapper of the next call does. -/
def outcome (s : Session N) (e : Event N α) : Outcome N := s.process.wrap e.env e.orig e.call

/-- The open descriptors after a call. -/
def openedAfter (s : Session N) (e : Event N α) : ℤ → Option (File N) :=
  match e.opens with
  | some (p, fd) => Function.update s.opened fd (some ⟨p, s.gens p⟩)
  | none =>
    match e.call.closes with
    | some fd => Function.update s.opened fd none
    | none => s.opened

/-- The numbers of `unlink` calls after a call. -/
def gensAfter (s : Session N) (e : Event N α) : N → ℕ :=
  match e.call with
  | .unlink p => Function.update s.gens p (s.gens p + 1)
  | _ => s.gens

/-- The paths found empty after a call. -/
def probedAfter (s : Session N) (e : Event N α) : N → Bool :=
  match e.call with
  | .unlink p => Function.update s.probed p false
  | .xstat p => if 0 ≤ e.orig.value ∧ e.orig.stSize = 0 then Function.update s.probed p true else s.probed
  | _ => s.probed

/-- The session after a call. -/
def after (s : Session N) (e : Event N α) : Session N :=
  ⟨(s.outcome e).process, s.openedAfter e, s.gensAfter e, s.probedAfter e⟩

/-- One call. -/
def step (s : Session N) (e : Event N α) : Option (Session N) := if s.Fresh e then some (s.after e) else none

theorem step_eq_some {s t : Session N} {e : Event N α} : s.step e = some t ↔ s.Fresh e ∧ t = s.after e := by
  unfold step
  rw [Option.ite_none_right_eq_some, Option.some.injEq, eq_comm]

/-! ### One call of each kind -/

variable {s : Session N} {e : Event N α}

theorem after_of_fd {fd : ℤ} (h : e.call.fd? = some fd) :
    (s.after e).gens = s.gens ∧ (s.after e).probed = s.probed ∧
      (s.after e).process.pathCli = s.process.pathCli ∧ (s.after e).process.pool = s.process.pool ∧
      (((s.after e).opened = s.opened ∧ (s.after e).process.fdCli = s.process.fdCli) ∨
        ((s.after e).opened = Function.update s.opened fd none ∧
          (s.after e).process.fdCli = Assoc.erase s.process.fdCli fd)) := by
  obtain ⟨hpath, hpool, hfd, -⟩ := Process.wrap_of_fd s.process e.env e.orig h
  have hopens : e.opens = none := by
    unfold Event.opens
    rw [Posix.openArgs_of_fd h]
  have hghost : s.gensAfter e = s.gens ∧ s.probedAfter e = s.probed := by
    unfold gensAfter probedAfter
    cases hc : e.call with
    | unlink p | xstat p =>
      rw [hc] at h
      cases h
    | _ => exact ⟨rfl, rfl⟩
  refine ⟨hghost.1, hghost.2, hpath, hpool, ?_⟩
  unfold after openedAfter outcome
  rw [hopens]
  rcases Posix.closes_eq h with hcl | hcl
  · rw [hcl, if_pos rfl] at hfd
    rw [hcl]
    exact .inl ⟨rfl, hfd⟩
  · rw [hcl, if_neg (by simp)] at hfd
    rw [hcl]
    exact .inr ⟨rfl, hfd⟩

/-- The session after a successful open. -/
def openLog (s : Session N) (env : Env α) (p : N) (flags : ℕ) (fd : ℤ) : Session N :=
  { s with
    process := s.process.getClient env p flags fd
    opened := Function.update s.opened fd (some ⟨p, s.gens p⟩) }

theorem after_of_open {p : N} {flags : ℕ} (h : e.call.openArgs = some (p, flags)) :
    (0 ≤ e.orig.value ∧ s.after e = s.openLog e.env p flags e.orig.value) ∨
      (e.orig.value < 0 ∧ s.after e = s) := by
  have hghost : s.gensAfter e = s.gens ∧ s.probedAfter e = s.probed ∧ e.call.closes = none := by
    unfold gensAfter probedAfter
    cases hc : e.call with
    | unlink p | xstat p | close fd | fclose fd =>
      rw [hc] at h
      cases h
    | _ => exact ⟨rfl, rfl, rfl⟩
  unfold after openedAfter outcome Event.opens
  rw [hghost.1, hghost.2.1, hghost.2.2, Process.wrap_of_openArgs h, h]
  unfold Process.openPath
  dsimp only
  by_cases hv : 0 ≤ e.orig.value
  · rw [if_pos hv, if_pos hv]
    exact .inl ⟨hv, rfl⟩
  · rw [if_neg hv, if_neg hv]
    exact .inr ⟨by omega, rfl⟩

theorem after_of_unlink {p : N} (h : e.call = .unlink p) : s.after e =
    ⟨(s.process.unlink p e.orig).process, s.opened, Function.update s.gens p (s.gens p + 1),
      Function.update s.probed p false⟩ := by
  unfold after openedAfter gensAfter probedAfter outcome Event.opens
  rw [h]
  rfl

/-- The session after `__xstat64` fetched a client. -/
def probe (s : Session N) (env : Env α) (p : N) : Session N :=
  { s with
    process := s.process.getClient env p oCsl (-1)
    probed := Function.update s.probed p true }

theorem after_of_xstat {p : N} (h : e.call = .xstat p) :
    (e.asks = some p ∧ s.process.pathCli p = none ∧ s.after e = s.probe e.env p) ∨
      ∃ b, (s.probed p = true → b = true) ∧ s.after e = { s with probed := Function.update s.probed p b } := by
  have hghost : s.gensAfter e = s.gens ∧ s.openedAfter e = s.opened := by
    unfold gensAfter openedAfter Event.opens
    rw [h]
    exact ⟨rfl, rfl⟩
  have hprobed : s.probedAfter e =
      if 0 ≤ e.orig.value ∧ e.orig.stSize = 0 then Function.update s.probed p true else s.probed := by
    unfold probedAfter
    rw [h]
  have hasks : e.asks = if 0 ≤ e.orig.value ∧ e.orig.stSize = 0 then some p else none := by
    unfold Event.asks
    rw [h]
  have hout : s.outcome e = s.process.xstat e.env p e.orig := by
    unfold outcome
    rw [h]
    rfl
  unfold after
  rw [hghost.1, hghost.2, hprobed, hasks, hout]
  by_cases hz : 0 ≤ e.orig.value ∧ e.orig.stSize = 0
  · rw [if_pos hz, if_pos hz]
    unfold Process.xstat
    rw [if_neg (by omega), if_pos hz.2]
    cases hp : s.process.pathCli p with
    | none => exact .inl ⟨rfl, rfl, rfl⟩
    | some o => exact .inr ⟨true, fun _ => rfl, rfl⟩
  · rw [if_neg hz, if_neg hz]
    refine .inr ⟨s.probed p, id, ?_⟩
    rw [Function.update_eq_self]
    have hproc : (s.process.xstat e.env p e.orig).process = s.process := by
      unfold Process.xstat
      split
      · rfl
      · split
        · rfl
        · rw [if_neg (by omega)]
          rfl
    rw [hproc]

end Session
end ComputeSideLog
