/-
# Programs on the logs, and `posix_client`

An application looks at what its calls return and goes on accordingly, so it
is a `Program`; what the original functions return is `libc`, which has a state
of its own, so that two equal calls need not return the same. One process after
another, each running its own program, computes on the cluster what it computes
on the disk (`processes_durable`).

`src/posix_client.cpp` is such a program: it fills a file with messages, or
reads them back, and exits with 1 as soon as a call returns another number of
bytes than asked for. With `prepare` the file is a log that the next run
finds. A run that writes and a run that reads the same number of messages
both succeed, unless that number is 1: a single write leaves the trailer 0,
and the reader starts with an empty log (`read_after_prepare`).

Key definitions: `Libc`, `Cluster.sys`, `Disk.sys`, `Settings`, `Settings.parse`,
`Settings.main`.
Key theorems: `processes_durable`, `write_messages`, `read_messages`,
`read_after_prepare`.
-/
import ComputeSideLog.Disk
import ComputeSideLog.IpString
import ComputeSideLog.Lib.Program

namespace ComputeSideLog

/-! ### Programs -/

section Programs

variable {N α σ : Type*} [DecidableEq N] [DecidableEq α]

/-- The original functions and the host under them: what a call returns and leaves,
and what the end of a process leaves. -/
structure Libc (N σ : Type*) where
  call : σ → Posix N → σ × Ret
  exit : σ → σ

/-- A call with what the original returns. -/
def hostCallOf (libc : Libc N σ) (m : σ) (c : Posix N) : HostCall N :=
  ⟨c, (libc.call m c).2, mrSize.region Mem.zero⟩

/-- What the host does with a call. -/
def Libc.host (libc : Libc N σ) (m : σ) (c : Posix N) : σ × HostCall N := ((libc.call m c).1, hostCallOf libc m c)

/-- A call on the cluster. -/
def Cluster.call (s : Cluster N α) (e : HostCall N) : Cluster N α × Ret :=
  (s.after e, (s.session.outcome (s.event e)).ret)

/-- A call on the disk. -/
def Disk.call (t : Disk N) (e : HostCall N) : Disk N × Ret :=
  (t.after e, ((t.loaded e).files.step e.call e.orig).2)

/-- The cluster as a system. -/
def Cluster.sys (libc : Libc N σ) : Cluster N α × σ → Posix N → (Cluster N α × σ) × Ret :=
  Program.hosted libc.host Cluster.call

/-- The disk as a system. -/
def Disk.sys (libc : Libc N σ) : Disk N × σ → Posix N → (Disk N × σ) × Ret := Program.hosted libc.host Disk.call

/-- Both, on one host. -/
def both (libc : Libc N σ) : (Cluster N α × Disk N) × σ → Posix N → ((Cluster N α × Disk N) × σ) × Ret :=
  Program.hosted libc.host (Program.pair Cluster.call Disk.call)

/-- The call is orderly. -/
def Allows (libc : Libc N σ) (u : (Cluster N α × Disk N) × σ) (c : Posix N) : Prop :=
  (HostEvent.call (hostCallOf libc u.2 c)).Orderly u.1.1 u.1.2

/-- What the programs of one process after the other end with. -/
def Cluster.processes {A : Type*} (libc : Libc N σ) (s : Cluster N α) (m : σ) : List (Program (Posix N) Ret A) → List A
  | [] => []
  | p :: ps =>
    let r := p.run (sys libc) (s, m)
    r.2 :: r.1.1.stop.processes libc (libc.exit r.1.2) ps

/-- The same on the disk. -/
def Disk.processes {A : Type*} (libc : Libc N σ) (t : Disk N) (m : σ) : List (Program (Posix N) Ret A) → List A
  | [] => []
  | p :: ps =>
    let r := p.run (sys libc) (t, m)
    r.2 :: r.1.1.stop.processes libc (libc.exit r.1.2) ps

/-- Each program makes only orderly calls, and each but the last one leaves its
logs to the servers. -/
def Proceeds {A : Type*} (libc : Libc N σ) : Cluster N α → Disk N → σ → List (Program (Posix N) Ret A) → Prop
  | _, _, _, [] => True
  | s, t, m, p :: ps => p.wp (Allows libc) (both libc)
      (fun _ u => ps ≠ [] → u.1.2.MayStop ∧ Proceeds libc u.1.1.stop u.1.2.stop (libc.exit u.2) ps) ((s, t), m)

/-- A program on both. -/
theorem Backs.run {A : Type*} {libc : Libc N σ} {s : Cluster N α} {t : Disk N} {m : σ} (h : Backs s t)
    {Q : A → (Cluster N α × Disk N) × σ → Prop} (p : Program (Posix N) Ret A)
    (hp : p.wp (Allows libc) (both libc) Q ((s, t), m)) :
    ∃ s' t' m' a, p.run (Cluster.sys libc) (s, m) = ((s', m'), a) ∧ p.run (Disk.sys libc) (t, m) = ((t', m'), a) ∧
      Backs s' t' ∧ Q a ((s', t'), m') :=
  Program.simulate (fun _ _ _ _ h hok => h.call hok) p h hp

theorem Backs.processes {A : Type*} {libc : Libc N σ} {s : Cluster N α} {t : Disk N} {m : σ} (h : Backs s t)
    (ps : List (Program (Posix N) Ret A)) (hp : Proceeds libc s t m ps) :
    s.processes libc m ps = t.processes libc m ps := by
  induction ps generalizing s t m with
  | nil => rfl
  | cons p ps ih =>
    obtain ⟨s', t', m', a, hs, ht, hbacks, hend⟩ := h.run p hp
    unfold Cluster.processes Disk.processes
    rw [hs, ht]
    refine congrArg _ ?_
    by_cases hps : ps = []
    · rw [hps]
      rfl
    · obtain ⟨hstop, hrest⟩ := hend hps
      exact ih (hbacks.stop hstop) hrest

/-- **Applications on a durable disk.** Whatever programs the processes run, on
whatever host, each ends as it does on the disk. -/
theorem processes_durable {A : Type*} {libc : Libc N σ} {addrs : List α} (hn : addrs.Nodup) (hne : addrs ≠ []) {m : σ}
    {ps : List (Program (Posix N) Ret A)} (hp : Proceeds libc (Cluster.init addrs) Disk.init m ps) :
    (Cluster.init addrs).processes libc m ps = Disk.init.processes libc m ps :=
  (backs_init hn hne).processes ps hp

end Programs

/-! ### `posix_client` -/

/-- `O_RDWR | O_CREAT | O_CLOEXEC`. -/
def oDefault : ℕ := 0o2 ||| 0o100 ||| 0o2000000

/-- `O_DIRECT`. -/
def oDirect : ℕ := 0o40000

/-- The variables that the command line sets; `kind` is the fourth argument, and
`totalSize` is in bytes. -/
structure Settings where
  msgSize : ℕ
  mode : Char
  filename : Name
  kind : Option Name
  totalSize : ℕ
  deriving DecidableEq

namespace Settings

/-- The command line, `none` if `std::stoul` throws. The first character of an
empty argument is its NUL. -/
def parse (argv : List Name) : Option Settings := do
  let msgSize ← match argv[1]? with
    | some arg => stoul arg
    | none => some 154
  let mb ← match argv[5]? with
    | some arg => stoul arg
    | none => some 100
  return {
    msgSize
    mode := (argv[2]?.map fun arg => arg.headD (Char.ofNat 0)).getD 'w'
    filename := argv[3]?.getD "test.txt".toList
    kind := argv[4]?
    totalSize := mb * 1048576 % 2 ^ 64 }

/-- The argument that selects what the file is. -/
def isKind (o : Settings) (kind : String) : Bool := o.kind = some kind.toList

/-- `do_sync`. -/
def doSync (o : Settings) : Bool := o.isKind "sync"

/-- The flags of `open`. -/
def flags (o : Settings) : ℕ :=
  oDefault ||| (if o.isKind "ncl" ∨ o.isKind "prepare" then oCsl else 0) |||
    (if o.isKind "direct" then oDirect else 0) ||| if o.mode = 'w' then oTrunc else 0

/-- The number of messages, which leaves the trailer alone. -/
def count (o : Settings) : ℕ := subSize o.totalSize seqWidth / o.msgSize

/-- The buffer. -/
def buf (o : Settings) : List UInt8 := List.replicate o.msgSize 42

/-- `ret != MSG_SIZE`, with the result in an `int`. -/
def failed (o : Settings) (r : Ret) : Bool := toSize (toInt r.value) ≠ o.msgSize

/-- One round of the writer; `some 1` is `exit(1)`. -/
def writeMsg (o : Settings) (fd : ℤ) : Program (Posix Name) Ret (Option ℕ) :=
  .call (.write fd o.buf) fun r =>
    if o.failed r then .ret (some 1)
    else if o.doSync then .call (.fsync fd) fun _ => .ret none
    else .ret none

/-- One round of the reader. -/
def readMsg (o : Settings) (fd : ℤ) : Program (Posix Name) Ret (Option ℕ) :=
  .call (.read fd o.msgSize) fun r => .ret (if o.failed r then some 1 else none)

/-- The end of `main`. -/
def finish (o : Settings) : Program (Posix Name) Ret ℕ :=
  if o.isKind "ncl" then .call (.unlink o.filename) fun _ => .ret 0 else .ret 0

/-- `main`, which ends with the exit status. -/
def main (o : Settings) : Program (Posix Name) Ret ℕ :=
  .call (.openPath o.filename o.flags) fun r =>
    if o.mode ≠ 'r' then
      .loop (o.writeMsg r.value) (.call (.fsync r.value) fun _ => .call (.close r.value) fun _ => o.finish) o.count
    else .loop (o.readMsg r.value) (.call (.close r.value) fun _ => o.finish) o.count

end Settings

example : (Settings.parse ["posix_client".toList, "100".toList, "r".toList, "log".toList, "prepare".toList]).map
    (fun o => (o.flags, o.count)) = some (0o42000102, 1048575) := by decide

/-! ### A process with one log -/

section OneLog

variable {N α σ : Type*} [DecidableEq N] [DecidableEq α] {libc : Libc N σ} {path : N} {fd : ℤ} {f : PosixFile}
  {n : ℕ} {u : (Cluster N α × Disk N) × σ} {c : Posix N}

/-- The process has one log, opened as `fd`, and has made `n` writes to it. -/
structure OneLog (path : N) (fd : ℤ) (f : PosixFile) (n : ℕ) (u : (Cluster N α × Disk N) × σ) : Prop where
  made : u.1.1.session.process.pool.made < 2 ^ 32
  opened : u.1.2.files.opened fd = some path
  file : u.1.2.files.file path = some f
  writes : u.1.2.writes path = n
  logs : u.1.2.logs = [path]

omit [DecidableEq N] [DecidableEq α] in
theorem allows_fd (hm : u.1.1.session.process.pool.made < 2 ^ 32) (hc : c.fd? = some fd)
    (hfit : u.1.2.files.FitsOn c (libc.call u.2 c).2 fd) : Allows libc u c := by
  have hopens : (u.1.1.event (hostCallOf libc u.2 c)).opens = none := by
    unfold Event.opens
    rw [show (u.1.1.event (hostCallOf libc u.2 c)).call.openArgs = none from Posix.openArgs_of_fd hc]
  have hunlinks : c.unlinks = none := by
    cases c with
    | unlink _ => cases hc
    | _ => rfl
  have hasks : (hostCallOf libc u.2 c).asks = none := HostCall.asks_of_fd hc
  refine ⟨?_, hm, ?_, ?_, fun fd' hfd' => ?_⟩
  · unfold Session.Fresh
    rw [hopens]
    exact fun _ hx => by cases hx
  · rw [show (hostCallOf libc u.2 c).call.unlinks = none from hunlinks]
    exact fun _ hx => by cases hx
  · rw [hasks]
    exact fun _ hx => by cases hx
  · obtain rfl : fd = fd' := Option.some.inj (hc.symm.trans hfd')
    exact hfit

variable (libc) in
/-- A call on the log. -/
theorem OneLog.call (h : OneLog path fd f n u) (hc : c.fd? = some fd) (hcl : c.closes = none)
    (hfit : c.Fits mrSize.seqOffset f) : Allows libc u c ∧
      OneLog path fd (c.onFile f (libc.call u.2 c).2).1 (n + c.writes) (both libc u c).1 ∧
        (both libc u c).1.1.2.kept = u.1.2.kept ∧ (both libc u c).2 = (c.onFile f (libc.call u.2 c).2).2 := by
  have hasks : (hostCallOf libc u.2 c).asks = none := HostCall.asks_of_fd hc
  have hload : u.1.2.loaded (hostCallOf libc u.2 c) = u.1.2 := Disk.loaded_of_none hasks
  have hstep : u.1.2.files.step c (libc.call u.2 c).2 =
      ({ u.1.2.files with file := Function.update u.1.2.files.file path (some (c.onFile f (libc.call u.2 c).2).1) },
        (c.onFile f (libc.call u.2 c).2).2) := by
    rw [Files.step_of_fd hc hcl]
    unfold Files.descriptor
    simp only [h.opened, h.file]
  have hafter : (both libc u c).1.1.2 = ⟨(u.1.2.files.step c (libc.call u.2 c).2).1, u.1.2.kept,
      Function.update u.1.2.writes path (u.1.2.writes path + c.writes), u.1.2.logs⟩ := by
    show u.1.2.after (hostCallOf libc u.2 c) = _
    rw [Disk.after_fd (e := hostCallOf libc u.2 c) hc h.opened, hload]
    rfl
  refine ⟨allows_fd h.made hc ?_, ?_, by rw [hafter], ?_⟩
  · unfold Files.FitsOn
    rw [h.opened]
    intro f' hf'
    obtain rfl := Option.some.inj (h.file.symm.trans hf')
    exact hfit
  · have hpool :=
      (Process.wrap_of_fd u.1.1.session.process (u.1.1.event (hostCallOf libc u.2 c)).env (libc.call u.2 c).2 hc).2.1
    refine ⟨?_, ?_, ?_, ?_, ?_⟩
    · show (u.1.1.session.process.wrap (u.1.1.event (hostCallOf libc u.2 c)).env
        (libc.call u.2 c).2 c).process.pool.made < _
      rw [hpool]
      exact h.made
    · rw [hafter, hstep]
      exact h.opened
    · rw [hafter, hstep]
      exact Function.update_self _ _ _
    · rw [hafter]
      exact (Function.update_self _ _ _).trans (by rw [h.writes])
    · rw [hafter]
      exact h.logs
  · show ((u.1.2.loaded (hostCallOf libc u.2 c)).files.step c (libc.call u.2 c).2).2 = _
    rw [hload, hstep]

variable (libc) in
/-- The log is closed. -/
theorem OneLog.close (h : OneLog path fd f n u) : Allows libc u (.close fd) ∧
    (both libc u (.close fd)).1.1.2.files.file = u.1.2.files.file ∧ (both libc u (.close fd)).1.1.2.kept = u.1.2.kept ∧
      (both libc u (.close fd)).1.1.2.writes path = n ∧ (both libc u (.close fd)).1.1.2.logs = [path] := by
  refine ⟨allows_fd h.made rfl ?_, rfl, rfl, ?_, h.logs⟩
  · unfold Files.FitsOn
    rw [h.opened]
    exact fun _ _ => trivial
  · show (u.1.2.after (hostCallOf libc u.2 (.close fd))).writes path = n
    rw [Disk.after_fd (e := hostCallOf libc u.2 (.close fd)) rfl h.opened]
    exact (Function.update_self _ _ _).trans h.writes

/-- No call was made yet. -/
structure Starting (u : (Cluster N α × Disk N) × σ) : Prop where
  session : u.1.1.session = Session.init
  files : u.1.2.files = ⟨fun _ => none, fun _ => none⟩
  logs : u.1.2.logs = []

omit [DecidableEq α] in
/-- The disk after the first open of a log. -/
theorem Disk.after_open {t : Disk N} {flags : ℕ} {orig : Ret} {mr : Buffer}
    (hopen : 0 ≤ orig.value ∧ isCompSideLog flags = true) (hno : t.files.file path = none) :
    t.after ⟨.openPath path flags, orig, mr⟩ =
      ⟨⟨Function.update t.files.file path (some (t.kept path)), Function.update t.files.opened orig.value (some path)⟩,
        t.kept, Function.update t.writes path 0, path :: t.logs⟩ ∧
      ((t.loaded ⟨.openPath path flags, orig, mr⟩).files.step (.openPath path flags) orig).2 = orig := by
  have hasks : (⟨.openPath path flags, orig, mr⟩ : HostCall N).asks = some path := if_pos hopen
  have hload : t.loaded ⟨.openPath path flags, orig, mr⟩ =
      ⟨{ t.files with file := Function.update t.files.file path (some (t.kept path)) }, t.kept,
        Function.update t.writes path 0, path :: t.logs⟩ := by
    unfold Disk.loaded Disk.load
    rw [hasks]
    simp only [hno]
  have hfile : (t.loaded ⟨.openPath path flags, orig, mr⟩).files.file path = some (t.kept path) := by
    rw [hload]
    exact Function.update_self _ _ _
  have hwrites := Disk.after_writes (t := t) (e := ⟨.openPath path flags, orig, mr⟩) rfl
  have hstep : (t.loaded ⟨.openPath path flags, orig, mr⟩).files.step (.openPath path flags) orig = _ :=
    Files.step_of_openArgs rfl
  rw [if_pos hopen, Files.provide_of_some hfile] at hstep
  refine ⟨?_, by rw [hstep]⟩
  calc t.after ⟨.openPath path flags, orig, mr⟩
      = ⟨((t.loaded ⟨.openPath path flags, orig, mr⟩).files.step (.openPath path flags) orig).1,
          (t.loaded ⟨.openPath path flags, orig, mr⟩).kept, (t.after ⟨.openPath path flags, orig, mr⟩).writes,
          (t.loaded ⟨.openPath path flags, orig, mr⟩).logs⟩ := rfl
    _ = _ := by rw [hwrites, hstep, hload]

/-- The pool after the first open. -/
theorem made_open (env : Env α) {flags : ℕ} (hflags : isCompSideLog flags = true) (orig : Ret) :
    ((Process.init : Process N).openPath env path flags orig).process.pool.made < 2 ^ 32 := by
  unfold Process.openPath
  split
  · obtain ⟨o, t, ht, -, -, ⟨hq, -⟩ | ⟨-, -, hpool, -⟩⟩ :=
      Process.getClient_cases Process.init env path hflags orig.value
    · cases hq
    · rw [ht, Process.bindFd_eq]
      show t.pool.made < 2 ^ 32
      rw [hpool]
      show ClientPool.empty.getClient.1.made < 2 ^ 32
      decide
  · show 0 < 2 ^ 32
    norm_num

variable (libc) in
/-- A process opens its log. -/
theorem Starting.openLog (h : Starting u) {flags : ℕ} (hflags : isCompSideLog flags = true)
    (hv : (libc.call u.2 (.openPath path flags)).2.value = fd) (hfd : 0 ≤ fd)
    (hkept : needRecoverData flags = true ∨ (u.1.2.kept path).bytes = []) :
    Allows libc u (.openPath path flags) ∧
      OneLog path fd (u.1.2.kept path) 0 (both libc u (.openPath path flags)).1 ∧
        (both libc u (.openPath path flags)).1.1.2.kept = u.1.2.kept ∧
        (both libc u (.openPath path flags)).2.value = fd := by
  have hopen : 0 ≤ (libc.call u.2 (.openPath path flags)).2.value ∧ isCompSideLog flags = true := ⟨hv ▸ hfd, hflags⟩
  have hno : u.1.2.files.file path = none := by rw [h.files]
  obtain ⟨hafter, hret⟩ : u.1.2.after (hostCallOf libc u.2 (.openPath path flags)) = _ ∧ _ := Disk.after_open hopen hno
  have hboth : (both libc u (.openPath path flags)).1.1.2 = _ := hafter
  refine ⟨⟨?_, ?_, fun _ hp => (by cases hp), ?_, fun _ hp => (by cases hp)⟩, ⟨?_, ?_, ?_, ?_, ?_⟩, by rw [hboth], ?_⟩
  · unfold Session.Fresh
    rw [h.session]
    exact fun _ _ => rfl
  · rw [h.session]
    show 0 < 2 ^ 32
    norm_num
  · rw [show (hostCallOf libc u.2 (.openPath path flags)).asks = some path from if_pos hopen]
    rintro _ ⟨⟩ -
    exact hkept
  · show (Process.openPath u.1.1.session.process _ path flags _).process.pool.made < _
    rw [h.session]
    exact made_open _ hflags _
  · rw [hboth, ← hv]
    exact Function.update_self _ _ _
  · rw [hboth]
    exact Function.update_self _ _ _
  · rw [hboth]
    exact Function.update_self _ _ _
  · rw [hboth, h.logs]
  · exact (congrArg Ret.value hret).trans hv

end OneLog

/-! ### The writer and the reader -/

/-- A write at the end of the file. -/
theorem PosixFile.write_end {bytes data : List UInt8} (hne : data ≠ []) :
    (⟨bytes, bytes.length⟩ : PosixFile).write data =
    (⟨bytes ++ data, bytes.length + data.length⟩, data.length) := by
  simp [PosixFile.write, PosixFile.pwrite, PosixFile.splice, hne]

namespace Settings

variable {α σ : Type*} [DecidableEq α] {libc : Libc Name σ} {o : Settings} {fd : ℤ}
  {u : (Cluster Name α × Disk Name) × σ}

/-- The log after `i` messages, with the offset behind message `j`. -/
def messages (o : Settings) (i j : ℕ) : PosixFile := ⟨List.replicate (i * o.msgSize) 42, j * o.msgSize⟩

theorem write_messages (hmsg : 0 < o.msgSize) (i : ℕ) :
    (o.messages i i).write o.buf = (o.messages (i + 1) (i + 1), o.msgSize) := by
  have hne : o.buf ≠ [] := by
    unfold buf
    simpa using Nat.pos_iff_ne_zero.mp hmsg
  have hlen : (List.replicate (i * o.msgSize) (42 : UInt8)).length = i * o.msgSize := List.length_replicate
  have hend := @PosixFile.write_end (List.replicate (i * o.msgSize) 42) _ hne
  rw [hlen] at hend
  unfold messages
  rw [hend, buf, List.replicate_append_replicate, List.length_replicate, Nat.succ_mul]

theorem read_messages {n i : ℕ} (hi : i < n) :
    (o.messages n i).read o.msgSize = (o.messages n (i + 1), o.buf) := by
  have hle : (i + 1) * o.msgSize ≤ n * o.msgSize := Nat.mul_le_mul_right _ hi
  rw [Nat.succ_mul] at hle
  have hread : (o.messages n i).pread o.msgSize (i * o.msgSize) = o.buf := by
    simp only [PosixFile.pread, messages, buf, List.drop_replicate, List.take_replicate]
    congr 1
    omega
  unfold PosixFile.read
  rw [show (o.messages n i).offset = i * o.msgSize from rfl, hread]
  simp only [messages, buf, List.length_replicate, Nat.succ_mul]

/-- The conditions of both runs: messages with bytes, and room for the trailer. -/
structure Reasonable (o : Settings) : Prop where
  msg : 0 < o.msgSize
  trailer : seqWidth ≤ o.totalSize
  room : o.totalSize ≤ mrSize.size

theorem Reasonable.count_mul (h : o.Reasonable) : o.count * o.msgSize ≤ mrSize.seqOffset := by
  have hroom := h.room
  have hlt := mrSize.size_lt
  have hsub : subSize o.totalSize seqWidth = o.totalSize - seqWidth := subSize_of_le h.trailer (by omega)
  calc o.count * o.msgSize ≤ subSize o.totalSize seqWidth := Nat.div_mul_le_self _ _
    _ = o.totalSize - seqWidth := hsub
    _ ≤ mrSize.seqOffset := Nat.sub_le_sub_right hroom _

theorem Reasonable.msg_le (h : o.Reasonable) {i : ℕ} (hi : i < o.count) : (i + 1) * o.msgSize ≤ mrSize.seqOffset :=
  (Nat.mul_le_mul_right _ hi).trans h.count_mul

/-- A call that returned the whole message. -/
theorem Reasonable.not_failed (h : o.Reasonable) {i : ℕ} (hi : i < o.count) {r : Ret} (hr : r.value = o.msgSize) :
    o.failed r = false := by
  have hle := h.msg_le hi
  have hlt := mrSize_lt
  rw [Nat.succ_mul] at hle
  unfold failed
  rw [hr, toInt_of_range (by omega) (by omega), toSize_natCast (by omega)]
  simp

/-- The state of the writer after `i` messages, and of the reader. -/
structure Progress (o : Settings) (fd : ℤ) (f : PosixFile) (n : ℕ) (f₀ : PosixFile)
    (u : (Cluster Name α × Disk Name) × σ) : Prop where
  log : OneLog o.filename fd f n u
  kept : u.1.2.kept o.filename = f₀

variable (libc) in
theorem Progress.call {f : PosixFile} {n : ℕ} {f₀ : PosixFile} (h : Progress o fd f n f₀ u) {c : Posix Name}
    (hc : c.fd? = some fd) (hcl : c.closes = none) (hfit : c.Fits mrSize.seqOffset f) : Allows libc u c ∧
      Progress o fd (c.onFile f (libc.call u.2 c).2).1 (n + c.writes) f₀ (both libc u c).1 ∧
        (both libc u c).2 = (c.onFile f (libc.call u.2 c).2).2 := by
  obtain ⟨hok, hlog, hkept, hret⟩ := h.log.call libc hc hcl hfit
  exact ⟨hok, ⟨hlog, (congrFun hkept _).trans h.kept⟩, hret⟩

/-- One message is written. -/
theorem wp_writeMsg (h : o.Reasonable) {i : ℕ} (hi : i < o.count)
    (hu : Progress o fd (o.messages i i) i .empty u) :
    (o.writeMsg fd).wp (Allows libc) (both libc)
      (fun b v => b = none ∧ Progress o fd (o.messages (i + 1) (i + 1)) (i + 1) .empty v) u := by
  have hle := h.msg_le hi
  have hne : o.buf ≠ [] := by
    unfold buf
    simpa using Nat.pos_iff_ne_zero.mp h.msg
  have hfit : (Posix.write fd o.buf : Posix Name).Fits mrSize.seqOffset (o.messages i i) := by
    refine ⟨.write o.buf, rfl, hne, ?_⟩
    rw [Nat.succ_mul] at hle
    simpa [messages, buf] using hle
  obtain ⟨hok, hnext, hret⟩ := hu.call libc (c := .write fd o.buf) rfl rfl hfit
  have hwrite := write_messages h.msg i
  have hfile : ((Posix.write fd o.buf : Posix Name).onFile (o.messages i i) (libc.call u.2 (.write fd o.buf)).2) =
      (o.messages (i + 1) (i + 1), ⟨o.msgSize, [], 0⟩) := by
    show (((o.messages i i).write o.buf).1, (⟨((o.messages i i).write o.buf).2, [], 0⟩ : Ret)) = _
    rw [hwrite]
  rw [hfile] at hnext hret
  refine ⟨hok, ?_⟩
  have hread := h.not_failed hi (congrArg Ret.value hret)
  simp only [hread, Bool.false_eq_true, if_false]
  split
  · obtain ⟨hok', hnext', -⟩ := hnext.call libc (c := .fsync fd) rfl rfl trivial
    exact ⟨hok', rfl, hnext'⟩
  · exact ⟨rfl, hnext⟩

/-- One message is read. -/
theorem wp_readMsg (h : o.Reasonable) {i n : ℕ} (hi : i < o.count)
    {f₀ : PosixFile} (hu : Progress o fd (o.messages o.count i) n f₀ u) :
    (o.readMsg fd).wp (Allows libc) (both libc)
      (fun b v => b = none ∧ Progress o fd (o.messages o.count (i + 1)) n f₀ v) u := by
  have hfit : (Posix.read fd o.msgSize : Posix Name).Fits mrSize.seqOffset (o.messages o.count i) := by
    refine ⟨.read o.msgSize, rfl, ?_⟩
    show i * o.msgSize ≤ (List.replicate (o.count * o.msgSize) (42 : UInt8)).length
    rw [List.length_replicate]
    exact Nat.mul_le_mul_right _ hi.le
  obtain ⟨hok, hnext, hret⟩ := hu.call libc (c := .read fd o.msgSize) rfl rfl hfit
  have hfile : (Posix.read fd o.msgSize : Posix Name).onFile (o.messages o.count i)
      (libc.call u.2 (.read fd o.msgSize)).2 =
      (o.messages o.count (i + 1), ⟨o.buf.length, o.buf, 0⟩) := by
    show (((o.messages o.count i).read o.msgSize).1,
      (⟨((o.messages o.count i).read o.msgSize).2.length, ((o.messages o.count i).read o.msgSize).2, 0⟩ : Ret)) = _
    rw [read_messages hi]
  rw [hfile] at hnext hret
  have hvalue : (both libc u (.read fd o.msgSize)).2.value = o.msgSize := by
    rw [hret]
    simp [buf]
  refine ⟨hok, ?_, hnext⟩
  simp only [h.not_failed hi hvalue, Bool.false_eq_true, if_false]

theorem flags_of_prepare (hk : o.kind = some "prepare".toList) : isCompSideLog o.flags = true ∧
    (o.mode = 'r' → needRecoverData o.flags = true) ∧ o.finish = .ret 0 := by
  unfold flags finish isKind
  rw [hk]
  refine ⟨?_, fun hr => ?_, rfl⟩
  · by_cases hw : o.mode = 'w'
    · rw [if_pos hw]
      decide
    · rw [if_neg hw]
      decide
  · rw [hr]
    decide

/-- The disk after a run of `main`. -/
structure Written (o : Settings) (n : ℕ) (f₀ : PosixFile) (t : Disk Name) : Prop where
  file : ∃ j, t.files.file o.filename = some (o.messages o.count j)
  kept : t.kept o.filename = f₀
  writes : t.writes o.filename = n
  logs : t.logs = [o.filename]

variable (libc) in
theorem Progress.written {j n : ℕ} {f₀ : PosixFile} (h : Progress o fd (o.messages o.count j) n f₀ u) :
    Allows libc u (.close fd) ∧ Written o n f₀ (both libc u (.close fd)).1.1.2 := by
  obtain ⟨hok, hfile, hkept, hwrites, hlogs⟩ := h.log.close libc
  exact ⟨hok, ⟨j, (congrFun hfile _).trans h.log.file⟩, (congrFun hkept _).trans h.kept, hwrites, hlogs⟩

variable (libc) in
/-- **The writer** fills the log. -/
theorem wp_writer (h : o.Reasonable) (hk : o.kind = some "prepare".toList) (hmode : o.mode ≠ 'r') (hs : Starting u)
    (hkept : u.1.2.kept o.filename = .empty) (hfd : 0 ≤ (libc.call u.2 (.openPath o.filename o.flags)).2.value) :
    o.main.wp (Allows libc) (both libc) (fun code v => code = 0 ∧ Written o o.count .empty v.1.2) u := by
  obtain ⟨hcsl, -, hfinish⟩ := flags_of_prepare hk
  obtain ⟨hok, hlog, hk', hv⟩ := hs.openLog libc hcsl rfl hfd (.inr (by rw [hkept]; rfl))
  refine ⟨hok, ?_⟩
  dsimp only
  rw [if_pos hmode, hv, hfinish]
  have hstart : Progress o (libc.call u.2 (.openPath o.filename o.flags)).2.value (o.messages 0 0) 0 .empty
      (both libc u (.openPath o.filename o.flags)).1 := by
    rw [hkept] at hlog
    refine ⟨?_, (congrFun hk' _).trans hkept⟩
    simpa [messages, PosixFile.empty] using hlog
  refine Program.wp_loop (fun i v => Progress o _ (o.messages i i) i .empty v) (fun i hi v hv => wp_writeMsg h hi hv)
    (fun v hv => ?_) hstart
  obtain ⟨hok', hnext, -⟩ := hv.call libc (c := .fsync _) rfl rfl trivial
  obtain ⟨hok'', hend⟩ := hnext.written libc
  exact ⟨hok', hok'', rfl, hend⟩

variable (libc) in
/-- **The reader** finds all messages of a log that was filled. -/
theorem wp_reader (h : o.Reasonable) (hk : o.kind = some "prepare".toList) (hmode : o.mode = 'r') (hs : Starting u)
    (hkept : u.1.2.kept o.filename = o.messages o.count 0)
    (hfd : 0 ≤ (libc.call u.2 (.openPath o.filename o.flags)).2.value) :
    o.main.wp (Allows libc) (both libc)
      (fun code v => code = 0 ∧ Written o 0 (o.messages o.count 0) v.1.2) u := by
  obtain ⟨hcsl, hrec, hfinish⟩ := flags_of_prepare hk
  obtain ⟨hok, hlog, hk', hv⟩ := hs.openLog libc hcsl rfl hfd (.inl (hrec hmode))
  refine ⟨hok, ?_⟩
  dsimp only
  rw [if_neg (by simp [hmode]), hv, hfinish]
  have hstart : Progress o (libc.call u.2 (.openPath o.filename o.flags)).2.value (o.messages o.count 0) 0
      (o.messages o.count 0)
      (both libc u (.openPath o.filename o.flags)).1 := ⟨hkept ▸ hlog, (congrFun hk' _).trans hkept⟩
  refine Program.wp_loop (fun i v => Progress o _ (o.messages o.count i) 0 (o.messages o.count 0) v)
    (fun i hi v hv => wp_readMsg h hi hv) (fun v hv => ?_) hstart
  obtain ⟨hok', hend⟩ := hv.written libc
  exact ⟨hok', rfl, hend⟩

end Settings

/-! ### One run after the other -/

section

variable {N α : Type*} [DecidableEq N] [DecidableEq α]

omit [DecidableEq N] in
/-- A single write leaves no server that a recovery would choose. -/
theorem InUse.single {f₀ f : PosixFile} {c : Client} {ps : List (Peer α)} (h : InUse f₀ 1 c ps f) :
    ∀ p ∈ ps, ¬ p.Eligible := by
  obtain ⟨-, r, xs, hbegun, -, hcrash, -, hn⟩ := h
  have hset := hbegun.settled.1
  have hlen : (stores r.1 xs).length = 1 := (stores_length xs r.1).trans hn
  have hps : (Epochs.crash r (stores r.1 xs)).2 = ps := by rw [crash_stores, hcrash]
  intro p hp hel
  have hne : stores r.1 xs ≠ [] := by
    intro hno
    rw [hno] at hlen
    cases hlen
  have hseq := Epochs.crash_seq hset hne (hps ▸ hp)
  rw [hlen] at hseq
  exact hel.1 hseq

/-- The client behind a descriptor just opened by a new process. -/
theorem open_client {s : Cluster N α} (hs : s.session = Session.init) {path : N} {flags : ℕ}
    (hflags : isCompSideLog flags = true) {orig : Ret} (hfd : 0 ≤ orig.value) (mr : Buffer) :
    ∃ o, (s.after ⟨.openPath path flags, orig, mr⟩).session.process.resolve orig.value = some o ∧
      (s.after ⟨.openPath path flags, orig, mr⟩).session.process.clients o =
        (Pool.newClient mrSize (s.servers path) (needRecoverData flags)).1 := by
  set env := (s.event ⟨.openPath path flags, orig, mr⟩).env with henv
  have hpeers : env.peers = s.servers path := by
    have hasks : (⟨.openPath path flags, orig, mr⟩ : HostCall N).asks = some path := if_pos ⟨hfd, hflags⟩
    rw [henv]
    unfold Cluster.event
    rw [hasks]
    rfl
  have hproc : (s.after ⟨.openPath path flags, orig, mr⟩).session.process =
      Process.init.getClient env path flags orig.value := by
    show (Process.openPath s.session.process env path flags orig).process = _
    unfold Process.openPath
    rw [if_pos hfd, hs]
    rfl
  have hnew := getClient_new (p := Process.init) Process.distinct_init rfl (by show 0 < 2 ^ 32; norm_num) env hflags
    (q := path) rfl
  obtain ⟨o, ho, heq, hmap⟩ := Tracks.getClient_eq Process.init env path hflags orig.value
  rw [hnew] at ho
  obtain rfl : 0 = o := Option.some.inj ((Function.update_self path _ _).symm.trans ho)
  refine ⟨0, ?_, ?_⟩
  · rw [hproc, heq]
    unfold Process.resolve Process.bindFd
    rw [if_pos hfd, hmap]
    exact Assoc.find_insert_self (show Assoc.find (Process.init : Process N).fdCli _ = none from rfl)
  · rw [hproc, heq, Process.bindFd_eq, hnew, ← hpeers]
    show Function.update (Process.init : Process N).clients 0 _ 0 = _
    exact Function.update_self _ _ _

end

namespace Settings

variable {α σ : Type*} [DecidableEq α] {libc : Libc Name σ} {w r : Settings}

/-- A reader that expects messages fails on servers without a source. -/
theorem reader_fails {s : Cluster Name α} (hs : s.session = Session.init) (hk : r.kind = some "prepare".toList)
    (hmode : r.mode = 'r') (hmsg : 0 < r.msgSize) {n : ℕ} (hcount : r.count = n + 1) {m : σ}
    (hfd : 0 ≤ (libc.call m (.openPath r.filename r.flags)).2.value)
    (hnone : ∀ p ∈ s.servers r.filename, ¬ p.Eligible) :
    (r.main.run (Cluster.sys libc) (s, m)).2 = 1 := by
  obtain ⟨hcsl, hrec, -⟩ := flags_of_prepare hk
  obtain ⟨o, hr, hclient⟩ := open_client hs hcsl hfd (mrSize.region Mem.zero)
  have hfresh : (Pool.newClient mrSize (s.servers r.filename) (needRecoverData r.flags)).1 = Client.fresh mrSize := by
    rw [hrec hmode]
    exact recovered_of_none hnone
  rw [hfresh] at hclient
  have hopen : Cluster.sys libc (s, m) (.openPath r.filename r.flags) =
      ((s.after (hostCallOf libc m (.openPath r.filename r.flags)), (libc.call m (.openPath r.filename r.flags)).1),
        (libc.call m (.openPath r.filename r.flags)).2) := rfl
  change (s.after (hostCallOf libc m (.openPath r.filename r.flags))).session.process.resolve _ = _ at hr
  change (s.after (hostCallOf libc m (.openPath r.filename r.flags))).session.process.clients o = _ at hclient
  generalize s.after (hostCallOf libc m (.openPath r.filename r.flags)) = s' at hopen hr hclient
  generalize (libc.call m (.openPath r.filename r.flags)).1 = m' at hopen
  generalize (libc.call m (.openPath r.filename r.flags)).2 = opened at *
  -- the new client has an empty file
  have hread : (Cluster.sys libc (s', m') (.read opened.value r.msgSize)).2.value = 0 := by
    show (s'.session.process.read opened.value r.msgSize (libc.call m' _).2).ret.value = 0
    unfold Process.read
    rw [(delegate_client _ hr (Client.perform (.read r.msgSize))).2, hclient]
    show (((Client.fresh mrSize).read r.msgSize).2.length : ℤ) = 0
    have hshow := ((shows_fresh mrSize).read (n := r.msgSize) (Nat.zero_le _)).2
    rw [hshow]
    simp [PosixFile.read, PosixFile.pread, PosixFile.empty]
  have hfailed : r.failed (Cluster.sys libc (s', m') (.read opened.value r.msgSize)).2 = true := by
    unfold failed
    rw [hread, toInt_of_range (by norm_num) (by norm_num)]
    exact decide_eq_true (by simpa [toSize] using hmsg.ne)
  unfold main
  simp only [Program.run, hopen]
  rw [if_neg (by simp [hmode]), hcount]
  simp only [Program.loop, readMsg, Program.bind, Program.run, hfailed, if_true]

/-- A run that writes and a run that reads the same messages. -/
structure Prepared (w r : Settings) : Prop where
  writer : w.Reasonable
  msgSize : r.msgSize = w.msgSize
  totalSize : r.totalSize = w.totalSize
  filename : r.filename = w.filename
  kinds : w.kind = some "prepare".toList ∧ r.kind = some "prepare".toList
  modes : w.mode ≠ 'r' ∧ r.mode = 'r'

theorem Prepared.reader (h : Prepared w r) : r.Reasonable :=
  ⟨h.msgSize ▸ h.writer.msg, h.totalSize ▸ h.writer.trailer, h.totalSize ▸ h.writer.room⟩

theorem Prepared.count (h : Prepared w r) : r.count = w.count := by
  unfold Settings.count
  rw [h.msgSize, h.totalSize]

/-- The writer leaves the log to the servers. -/
theorem Written.mayStop (h : w.Reasonable) (hone : w.count ≠ 1) {t : Disk Name} (ht : Written w w.count .empty t) :
    t.MayStop := by
  obtain ⟨⟨j, hfile⟩, hkept, hwrites, hlogs⟩ := ht
  intro p hp f hf
  rw [hlogs, List.mem_singleton] at hp
  subst hp
  rw [hkept, hwrites]
  obtain rfl := Option.some.inj (hfile.symm.trans hf)
  rcases Nat.eq_zero_or_pos w.count with hz | hpos
  · exact .inr ⟨rfl, hz⟩
  · have hle := h.count_mul
    have hlt := mrSize_lt
    have hmul : w.count ≤ w.count * w.msgSize := Nat.le_mul_of_pos_right _ h.msg
    refine .inl ⟨?_, .inr (by omega)⟩
    unfold PosixFile.Solid messages
    rw [List.getLastD_eq_getLast?, List.getLast?_replicate, if_neg (by omega)]
    decide

/-- The reader starts on the messages of the writer. -/
theorem Prepared.kept (h : Prepared w r) {f₀ : PosixFile} {n : ℕ} {t : Disk Name} (ht : Written w n f₀ t) :
    t.stop.kept r.filename = r.messages r.count 0 := by
  obtain ⟨⟨j, hfile⟩, -⟩ := ht
  calc t.stop.kept r.filename = ((t.files.file r.filename).map PosixFile.reopen).getD (t.kept r.filename) := rfl
    _ = (w.messages w.count j).reopen := by rw [h.filename, hfile, Option.map_some, Option.getD_some]
    _ = r.messages r.count 0 := by rw [h.count]; simp [PosixFile.reopen, messages, h.msgSize]

/-- The two runs are a sequence of processes that the disk allows. -/
theorem Prepared.proceeds (h : Prepared w r) (hone : w.count ≠ 1)
    (hfd : ∀ m (o : Settings), 0 ≤ (libc.call m (.openPath o.filename o.flags)).2.value) (addrs : List α) (m : σ) :
    Proceeds libc (Cluster.init addrs) Disk.init m [w.main, r.main] := by
  have hstart : Starting (((Cluster.init addrs, Disk.init), m) : (Cluster Name α × Disk Name) × σ) := ⟨rfl, rfl, rfl⟩
  refine Program.wp_mono (fun _ u hu _ => ⟨hu.2.mayStop h.writer hone, ?_⟩) w.main
    (wp_writer libc h.writer h.kinds.1 h.modes.1 hstart rfl (hfd m w))
  exact Program.wp_mono (fun _ _ _ hno => absurd rfl hno) r.main
    (wp_reader libc h.reader h.kinds.2 h.modes.2 ⟨rfl, rfl, rfl⟩ (h.kept hu.2) (hfd _ r))

/-- **A run that writes, and one that reads.** With the same messages on the same
log the writer always succeeds, and the reader does unless there is exactly one
message. -/
theorem read_after_prepare {addrs : List α} (hn : addrs.Nodup) (hne : addrs ≠ []) (h : Prepared w r)
    (hfd : ∀ m (o : Settings), 0 ≤ (libc.call m (.openPath o.filename o.flags)).2.value) (m : σ) :
    let s := w.main.run (Cluster.sys libc) (Cluster.init addrs, m)
    s.2 = 0 ∧ (r.main.run (Cluster.sys libc) (s.1.1.stop, libc.exit s.1.2)).2 = if w.count = 1 then 1 else 0 := by
  have hstart : Starting (((Cluster.init addrs, Disk.init), m) : (Cluster Name α × Disk Name) × σ) := ⟨rfl, rfl, rfl⟩
  obtain ⟨s, t, m', code, hs, -, hbacks, hcode, hend⟩ := (backs_init hn hne).run w.main
    (wp_writer libc h.writer h.kinds.1 h.modes.1 hstart rfl (hfd m w))
  rw [hs]
  refine ⟨hcode, ?_⟩
  by_cases hone : w.count = 1
  · -- the trailer is 0, so no server is a source
    rw [if_pos hone]
    obtain ⟨⟨j, hfile⟩, hkept, hwrites, -⟩ := hend
    obtain ⟨o, ho⟩ : ∃ o, s.session.process.pathCli w.filename = some o := by
      by_contra hno
      rw [hbacks.tracks.noFile w.filename (Option.eq_none_iff_forall_ne_some.mpr fun o ho => hno ⟨o, ho⟩)] at hfile
      cases hfile
    have hin := hbacks.durable.inUse w.filename o _ ho hfile
    rw [hkept, hwrites, hone] at hin
    exact reader_fails rfl h.kinds.2 h.modes.2 h.reader.msg (n := 0) (h.count.trans hone) (hfd _ r)
      (h.filename ▸ hin.single)
  · rw [if_neg hone]
    obtain ⟨s', t', m'', code', hs', -, -, hcode', -⟩ := (hbacks.stop (hend.mayStop h.writer hone)).run r.main
      (wp_reader libc h.reader h.kinds.2 h.modes.2 ⟨rfl, rfl, rfl⟩ (h.kept hend) (hfd (libc.exit m') r))
    show (r.main.run (Cluster.sys libc) (s.stop, libc.exit m')).2 = 0
    rw [hs']
    exact hcode'

/-- Both runs with the default total size. -/
def prepareWith (msgSize : ℕ) (mode : Char) : Settings :=
  ⟨msgSize, mode, "log".toList, some "prepare".toList, 100 * 1048576⟩

/-- A host whose `open` returns 3, 4 and so on, from 3 again in the next process. -/
def nextFd : Libc Name ℕ where
  call
    | m, .openPath _ _ => (m + 1, ⟨m + 3, [], 0⟩)
    | m, _ => (m, ⟨0, [], 0⟩)
  exit _ := 0

theorem prepared_with {msgSize : ℕ} (h : 0 < msgSize) : Prepared (prepareWith msgSize 'w') (prepareWith msgSize 'r') :=
  ⟨⟨h, show seqWidth ≤ 100 * 1048576 by decide, show 100 * 1048576 ≤ mrSize.size by decide⟩, rfl, rfl, rfl, ⟨rfl, rfl⟩,
    ⟨show 'w' ≠ 'r' by decide, rfl⟩⟩

theorem nextFd_nonneg (m : ℕ) (o : Settings) : 0 ≤ (nextFd.call m (.openPath o.filename o.flags)).2.value := by
  show (0 : ℤ) ≤ m + 3
  omega

theorem read_after_prepare_default :
    let s := (prepareWith 154 'w').main.run (Cluster.sys nextFd) (Cluster.init [7, 8], 0)
    s.2 = 0 ∧ ((prepareWith 154 'r').main.run (Cluster.sys nextFd) (s.1.1.stop, nextFd.exit s.1.2)).2 = 0 := by
  obtain ⟨hwrite, hread⟩ := read_after_prepare (show [7, 8].Nodup by decide) (by decide)
    (prepared_with (show 0 < 154 by decide)) nextFd_nonneg 0
  exact ⟨hwrite, hread.trans (if_neg (by decide))⟩

end Settings

/-- The two runs as processes. -/
theorem processes_durable_prepare : (Cluster.init [7, 8]).processes Settings.nextFd 0
      [(Settings.prepareWith 154 'w').main, (Settings.prepareWith 154 'r').main] =
    Disk.init.processes Settings.nextFd 0
      [(Settings.prepareWith 154 'w').main, (Settings.prepareWith 154 'r').main] :=
  processes_durable (by decide) (by decide)
    ((Settings.prepared_with (show 0 < 154 by decide)).proceeds (by decide) Settings.nextFd_nonneg [7, 8] 0)

end ComputeSideLog
