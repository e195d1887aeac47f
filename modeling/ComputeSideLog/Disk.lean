/-
# Logs that outlive their processes

A process that opened any number of logs through `src/csl.cc` ends, and
another one opens them again. Its clients are gone, and so are its two maps;
what is left is what the servers hold for each file. The next process gets it
back one log at a time, when a path is first opened or asked for its size.

`Cluster` is a process and its servers: a call runs through the wrapper, a new
client consults the servers of its path (`Pool.newClient`), and the writes of
a call reach the regions of the client's file, on every server before the next
process asks. `Disk` is what it should be: as
`Files`, with the bytes of every path that no process has at the moment
(`kept`). `Backs` relates them: the log of a path is in use after some calls
since it was recovered (`InUse`), or it is with the servers alone and can be
recovered (`Held`). So in every run of calls and ends of processes each call
returns what it returns on the disk (`durable_files`), as long as a process
ends when each of its logs is as `Found` asks.

Logs that are unlinked, or opened with `O_TRUNC` when they have bytes, are
left out: of both the servers keep the old bytes.

Key definitions: `InUse`, `Held`, `Cluster.after`, `Disk.after`,
`HostEvent.Orderly`, `Backs`.
Key theorems: `InUse.call`, `Backs.call`, `Backs.stop`, `durable_files`.
-/
import ComputeSideLog.Files

namespace ComputeSideLog

/-! ### One log -/

section Log

variable {α : Type*}

theorem opsPosts_append (os : List Op) (c : Client) (o : Op) :
    c.opsPosts (os ++ [o]) = c.opsPosts os ++ (c.ops os).1.opPosts o := by
  induction os generalizing c with
  | nil => exact List.append_nil _
  | cons o' os ih =>
    calc c.opsPosts (o' :: os ++ [o]) = c.opPosts o' ++ (c.op o').1.opsPosts (os ++ [o]) := rfl
      _ = c.opPosts o' ++ ((c.op o').1.opsPosts os ++ ((c.op o').1.ops os).1.opPosts o) := by rw [ih]
      _ = c.opsPosts (o' :: os) ++ (c.ops (o' :: os)).1.opPosts o := (List.append_assoc _ _ _).symm

theorem answers_append (xs : List FileCall) (f : PosixFile) (x : FileCall) :
    (f.answers (xs ++ [x])).1 = ((f.answers xs).1.answer x).1 := by
  induction xs generalizing f with
  | nil => rfl
  | cons y xs ih => exact ih (f.answer y).1

theorem eachFits_append {limit : ℕ} (xs : List FileCall) {f : PosixFile} {x : FileCall} (h : EachFits limit f xs)
    (hx : x.Fits limit (f.answers xs).1) : EachFits limit f (xs ++ [x]) := by
  induction xs generalizing f with
  | nil => exact ⟨hx, trivial⟩
  | cons y xs ih => exact ⟨h.1, ih h.2 hx⟩

theorem map_apply_nil (ps : List (Peer α)) : ps.map (fun p => p.apply []) = ps :=
  (List.map_congr_left fun _ _ => rfl).trans (List.map_id _)

/-- One call more before the crash. -/
theorem crashed_append (r : Client × List (Peer α)) (xs : List FileCall) (x : FileCall) : crashed r (xs ++ [x]) =
    (((crashed r xs).1.op x.op).1, (crashed r xs).2.map fun p => p.apply ((crashed r xs).1.opPosts x.op)) := by
  unfold crashed
  rw [List.map_append, List.map_singleton, Client.ops_append, opsPosts_append, List.map_map]
  refine congrArg (Prod.mk _) (List.map_congr_left fun p _ => ?_)
  simp only [Function.comp_apply, Peer.apply, applyAll, List.foldl_append]

/-- What the number of writes since a log was recovered has to be for the next
recovery to find it; a log that never had any data, `first`, needs some. -/
def Recovers (first : Prop) (writes : ℕ) : Prop := (¬ first ∧ writes = 0) ∨ 2 ≤ writes % 2 ^ 64

instance (first : Prop) [Decidable first] (writes : ℕ) : Decidable (Recovers first writes) :=
  inferInstanceAs (Decidable (_ ∨ _))

/-- A client and its servers before the first call: new ones, or recovered ones. -/
def Begun (r : Client × List (Peer α)) (f : PosixFile) : Prop :=
  Usable mrSize r.1 ∧
    ((f = .empty ∧ ∃ addrs, addrs.Nodup ∧ addrs ≠ [] ∧ r = (Client.fresh mrSize, Pool.emptyPeers mrSize addrs)) ∨
      (f.bytes ≠ [] ∧ Epochs.Settled mrSize False r ∧ Shows r.1 f))

variable [DecidableEq α]

theorem Begun.settled {r : Client × List (Peer α)} {f : PosixFile} (h : Begun r f) :
    Epochs.Settled mrSize (decide (f.bytes = []) = true) r ∧ Shows r.1 f := by
  rcases h with ⟨-, ⟨rfl, addrs, hn, hne, rfl⟩ | ⟨hbytes, hset, hshow⟩⟩
  · have hset : Epochs.Settled mrSize True (Client.fresh mrSize, Pool.emptyPeers mrSize addrs) :=
      Epochs.settled_start hn hne
    exact ⟨by simpa [PosixFile.empty] using hset, shows_fresh mrSize⟩
  · exact ⟨by simpa [hbytes] using hset, hshow⟩

/-- The client `c` and the servers `ps` are in use for the file `f`, which was `f₀`
when they began, `writes` writes ago. -/
def InUse (f₀ : PosixFile) (writes : ℕ) (c : Client) (ps : List (Peer α)) (f : PosixFile) : Prop :=
  Usable mrSize c ∧ ∃ r xs, Begun r f₀ ∧ EachFits mrSize.seqOffset f₀ xs ∧ crashed r xs = (c, ps) ∧
    (f₀.answers xs).1 = f ∧ xs.countP FileCall.isWrite = writes

section InUse

variable {f₀ f : PosixFile} {writes : ℕ} {c : Client} {ps : List (Peer α)}

omit [DecidableEq α] in
theorem Begun.inUse {r : Client × List (Peer α)} (h : Begun r f) : InUse f 0 r.1 r.2 f := by
  exact ⟨h.1, r, [], h, trivial, congrArg (Prod.mk r.1) (map_apply_nil r.2), rfl, rfl⟩

theorem InUse.keeps (h : InUse f₀ writes c ps f) : Keeps c f := by
  obtain ⟨husable, r, xs, hbegun, hfit, hcrash, hf, -⟩ := h
  obtain ⟨hset, hshow⟩ := hbegun.settled
  have hshows := (shows_crashed hset hshow hfit).1
  rw [hcrash, hf] at hshows
  exact ⟨husable, hshows⟩

/-- One more call that fits. -/
theorem InUse.call (h : InUse f₀ writes c ps f) {x : FileCall} (hx : x.Fits mrSize.seqOffset f) :
    InUse f₀ (writes + x.isWrite.toNat) (c.op x.op).1 (ps.map fun p => p.apply (c.opPosts x.op)) (f.answer x).1 := by
  have hk := h.keeps.op hx
  obtain ⟨-, r, xs, hbegun, hfit, hcrash, hf, hn⟩ := h
  refine ⟨hk.1.usable, r, xs ++ [x], hbegun, eachFits_append xs hfit (hf ▸ hx), ?_, ?_, ?_⟩
  · rw [crashed_append, hcrash]
  · rw [answers_append, hf]
  · rw [List.countP_append, hn, List.countP_singleton]
    cases x.isWrite <;> rfl

end InUse

/-- A client that recovers is usable. -/
theorem usable_recovered {ps : List (Peer α)} (hP : Fleet mrSize ps) :
    Usable mrSize ((Client.fresh mrSize).tryRecover ps).1 := by
  show Usable mrSize ((Client.fresh mrSize).recovered ps)
  rcases getRecoverSrcPeer_cases ps with ⟨hn, -⟩ | ⟨p, hp, -⟩
  · rw [recovered_of_none hn]
    exact usable_fresh mrSize
  · rw [recovered_of_src hP hp]
    refine ⟨rfl, fun x hx => ?_, by show 0 < 2 ^ 64; norm_num⟩
    have hle := hP.size_le hp.mem
    have hadd := mrSize.seqOffset_add
    have hmod := Nat.mod_le p.size (2 ^ 32)
    rw [Client.restored_mem, if_neg (by omega)]

/-- The servers alone hold the file `f`: a new client begins with it. Only an empty
file may be opened without the recovery. -/
def Held (ps : List (Peer α)) (f : PosixFile) : Prop := ∀ tryRecover : Bool, tryRecover = true ∨ f.bytes = [] →
  Begun (Pool.newClient mrSize ps tryRecover) f

theorem held_empty {addrs : List α} (hn : addrs.Nodup) (hne : addrs ≠ []) :
    Held (Pool.emptyPeers mrSize addrs) .empty := by
  intro tryRecover _
  rw [Pool.newClient_eq]
  exact ⟨usable_fresh mrSize, .inl ⟨rfl, addrs, hn, hne, rfl⟩⟩

section Stop

variable {f₀ f : PosixFile} {writes : ℕ} {c : Client} {ps : List (Peer α)}

/-- The process ends after writes that a recovery finds, and the file is solid. -/
theorem InUse.stop (h : InUse f₀ writes c ps f) (hsolid : f.Solid) (hrec : Recovers (f₀.bytes = []) writes) :
    Held ps f.reopen := by
  obtain ⟨-, r, xs, hbegun, hfit, hcrash, rfl, rfl⟩ := h
  obtain ⟨hset, hshow⟩ := hbegun.settled
  have hfound : Found (decide (f₀.bytes = [])) xs := by simpa [Found, Recovers] using hrec
  obtain ⟨hiff, hsettled⟩ := shows_recovered_iff hset hshow hfit (by decide) hsolid
    fun hf => writes_of_solid (of_decide_eq_true hf) hsolid
  have hfleet : Fleet mrSize ps := by
    have hfleet : Fleet mrSize (Epochs.crash r (stores r.1 xs)).2 := Epochs.fleet_crash hset
    rw [crash_stores, hcrash] at hfleet
    exact hfleet
  rw [hcrash] at hiff hsettled
  intro tryRecover ht
  obtain rfl : tryRecover = true := ht.resolve_right hsolid.ne_nil
  exact ⟨usable_recovered hfleet, .inr ⟨hsolid.ne_nil, hsettled hfound, hiff.mpr hfound⟩⟩

/-- It ends without a write to a log that never had one. -/
theorem InUse.stop_unwritten (h : InUse f₀ 0 c ps f) (hnil : f₀.bytes = []) : Held ps f.reopen := by
  obtain ⟨-, r, xs, ⟨-, hbegun⟩, hfit, hcrash, rfl, hn⟩ := h
  obtain ⟨rfl, addrs, hnodup, hne, rfl⟩ := hbegun.resolve_right fun hr => hr.1 hnil
  have hempty : (PosixFile.empty.answers xs).1.reopen = .empty :=
    congrArg (PosixFile.mk · 0) (PosixFile.answers_bytes xs _ hn)
  have hstores : stores (Client.fresh mrSize) xs = [] := by
    rw [← List.length_eq_zero_iff, stores_length, hn]
  -- nothing was posted
  have hps : ps = Pool.emptyPeers mrSize addrs := by
    have hcrash' := crash_stores (Client.fresh mrSize, Pool.emptyPeers mrSize addrs) xs
    rw [hcrash, hstores] at hcrash'
    have hsame : (Epochs.crash (Client.fresh mrSize, Pool.emptyPeers mrSize addrs) []).2 =
        Pool.emptyPeers mrSize addrs := map_apply_nil _
    rw [← hsame, hcrash']
  rw [hempty, hps]
  exact held_empty hnodup hne

end Stop

end Log

/-! ### A process and its servers -/

namespace Posix

variable {N : Type*}

/-- A call that gets a client asks for the data of the servers. -/
def recovers : Posix N → Bool
  | .openPath _ flags | .openat _ _ flags => needRecoverData flags
  | _ => true

/-- The RDMA writes that the call posts to each peer of its client. -/
def posts (c : Client) : Posix N → List RdmaWrite
  | .write _ buf => c.opPosts (.append buf)
  | .pwrite _ buf offset => c.opPosts (.writePos buf (toSize offset))
  | _ => []

/-- The number of writes to a log that the call makes. -/
def writes (c : Posix N) : ℕ :=
  match c.fileCall with
  | some x => x.isWrite.toNat
  | none => 0

end Posix

/-- A call of the application: what the original returns, and the region that
`GetMRofSize` would return. -/
structure HostCall (N : Type*) where
  call : Posix N
  orig : Ret
  mr : Buffer

/-- The path that `getClient` is called for in a log's name. -/
def HostCall.asks {N : Type*} (e : HostCall N) : Option N :=
  (⟨e.call, e.orig, ⟨([] : List (Peer ℕ)), e.mr⟩⟩ : Event N ℕ).asks

/-- A call, or the end of the process. -/
inductive HostEvent (N : Type*) where
  | call (e : HostCall N)
  | stop

/-- The peers after a new client of a path consulted them. -/
def Process.synced {N α : Type*} [DecidableEq α] (s : Process N) (env : Env α) (tryRecover : Bool) : List (Peer α) :=
  match s.pool.getClient with
  | (_, _, .created) => (Pool.newClient mrSize env.peers tryRecover).2
  | (_, o, .reused) => (Pool.getClient (s.clients o) mrSize.size env.mr env.peers tryRecover).2
  | (_, _, .clash) => env.peers

/-- A process, the `filename` of its clients, and what the servers hold for every
path. -/
structure Cluster (N α : Type*) where
  session : Session N
  filename : ℕ → Option N
  servers : N → List (Peer α)

namespace Cluster

variable {N α : Type*}

/-- The first process, on servers without data. -/
def init (addrs : List α) : Cluster N α := ⟨Session.init, fun _ => none, fun _ => Pool.emptyPeers mrSize addrs⟩

/-- The call as the process sees it. -/
def event (s : Cluster N α) (e : HostCall N) : Event N α :=
  ⟨e.call, e.orig, ⟨(e.asks.map s.servers).getD [], e.mr⟩⟩

/-- The process ends, and the next one starts. -/
def stop (s : Cluster N α) : Cluster N α := ⟨Session.init, fun _ => none, s.servers⟩

variable [DecidableEq N] [DecidableEq α]

/-- The `filename` of the clients and the servers after a call. -/
def afterCall (s : Cluster N α) (e : HostCall N) : (ℕ → Option N) × (N → List (Peer α)) :=
  let p := s.session.process
  match e.asks with
  | some q =>
    if p.pathCli q = none then
      (Function.update s.filename p.pool.getClient.2.1 (some q),
        Function.update s.servers q (p.synced (s.event e).env e.call.recovers))
    else (s.filename, s.servers)
  | none =>
    match e.call with
    | .unlink q =>
      -- `Reset` clears the name, and the servers drop the file
      match p.pathCli q with
      | some o =>
        (Function.update s.filename o none,
          Function.update s.servers q (Pool.emptyPeers mrSize ((s.servers q).map Peer.addr)))
      | none => (s.filename, s.servers)
    | c =>
      match (c.fd?.bind p.resolve).bind fun o => (s.filename o).map (Prod.mk o) with
      | some (o, q) =>
        (s.filename, Function.update s.servers q ((s.servers q).map fun x => x.apply (c.posts (p.clients o))))
      | none => (s.filename, s.servers)

/-- A call. -/
def after (s : Cluster N α) (e : HostCall N) : Cluster N α :=
  ⟨s.session.after (s.event e), (s.afterCall e).1, (s.afterCall e).2⟩

/-- What the calls return; between the ends, one process after the other. -/
def rets (s : Cluster N α) : List (HostEvent N) → List Ret
  | [] => []
  | .call e :: es => (s.session.outcome (s.event e)).ret :: (s.after e).rets es
  | .stop :: es => s.stop.rets es

end Cluster

/-! ### The disk -/

/-- The logs of the running process as `Files` has them, and the bytes that are
kept of all others. `logs` lists the former, `writes` counts the writes to them
since they were loaded; no call reads these. -/
structure Disk (N : Type*) where
  files : Files N
  kept : N → PosixFile
  writes : N → ℕ
  logs : List N

namespace Disk

variable {N : Type*}

/-- Nothing is kept. -/
def init : Disk N := ⟨⟨fun _ => none, fun _ => none⟩, fun _ => .empty, fun _ => 0, []⟩

/-- The process ends: the bytes of its logs are kept. -/
def stop (t : Disk N) : Disk N :=
  ⟨⟨fun _ => none, fun _ => none⟩, fun p => ((t.files.file p).map PosixFile.reopen).getD (t.kept p), fun _ => 0, []⟩

variable [DecidableEq N]

/-- A path gets the log that is kept for it. -/
def load (t : Disk N) (p : N) : Disk N :=
  match t.files.file p with
  | some _ => t
  | none => ⟨{ t.files with file := Function.update t.files.file p (some (t.kept p)) }, t.kept,
      Function.update t.writes p 0, p :: t.logs⟩

/-- The disk when a call finds its log. -/
def loaded (t : Disk N) (e : HostCall N) : Disk N :=
  match e.asks with
  | some p => t.load p
  | none => t

/-- A call. -/
def after (t : Disk N) (e : HostCall N) : Disk N :=
  { t.loaded e with
    files := ((t.loaded e).files.step e.call e.orig).1
    writes := match e.call.fd?.bind t.files.opened with
      | some p => Function.update (t.loaded e).writes p ((t.loaded e).writes p + e.call.writes)
      | none => (t.loaded e).writes }

/-- What the calls return. -/
def rets (t : Disk N) : List (HostEvent N) → List Ret
  | [] => []
  | .call e :: es => ((t.loaded e).files.step e.call e.orig).2 :: (t.after e).rets es
  | .stop :: es => t.stop.rets es

/-- A log may be left to the servers: it is solid, with a number of writes that a
recovery finds, or it has never had any. -/
def MayStop (t : Disk N) : Prop := ∀ p ∈ t.logs, ∀ f ∈ t.files.file p,
  (f.Solid ∧ Recovers ((t.kept p).bytes = []) (t.writes p)) ∨ ((t.kept p).bytes = [] ∧ t.writes p = 0)

instance (t : Disk N) : Decidable t.MayStop := inferInstanceAs (Decidable (∀ p ∈ t.logs, ∀ f ∈ t.files.file p, _))

end Disk

section Orderly

variable {N α : Type*} [DecidableEq N] [DecidableEq α]

/-- What is asked of a call or of an end: new descriptors, fewer clients than ids,
no log is unlinked, `O_TRUNC` only for a log without bytes, calls that fit. -/
def HostEvent.Orderly (s : Cluster N α) (t : Disk N) : HostEvent N → Prop
  | .call e => s.session.Fresh (s.event e) ∧ s.session.process.pool.made < 2 ^ 32 ∧
      (∀ p ∈ e.call.unlinks, t.files.file p = none) ∧
      (∀ p ∈ e.asks, t.files.file p = none → e.call.recovers = true ∨ (t.kept p).bytes = []) ∧
      ∀ fd ∈ e.call.fd?, t.files.FitsOn e.call e.orig fd
  | .stop => t.MayStop

instance (s : Cluster N α) (t : Disk N) : ∀ e : HostEvent N, Decidable (e.Orderly s t)
  | .call _ => inferInstanceAs (Decidable (_ ∧ _))
  | .stop => inferInstanceAs (Decidable t.MayStop)

/-- Every event is orderly when it happens. -/
def AllOrderlyOn (s : Cluster N α) (t : Disk N) : List (HostEvent N) → Prop
  | [] => True
  | .call e :: es => (HostEvent.call e).Orderly s t ∧ AllOrderlyOn (s.after e) (t.after e) es
  | .stop :: es => HostEvent.stop.Orderly s t ∧ AllOrderlyOn s.stop t.stop es

instance : ∀ (s : Cluster N α) (t : Disk N) (es : List (HostEvent N)), Decidable (AllOrderlyOn s t es)
  | _, _, [] => instDecidableTrue
  | s, t, .call e :: es =>
    haveI := instDecidableAllOrderlyOn (s.after e) (t.after e) es
    inferInstanceAs (Decidable (_ ∧ AllOrderlyOn _ _ es))
  | s, t, .stop :: es =>
    haveI := instDecidableAllOrderlyOn s.stop t.stop es
    inferInstanceAs (Decidable (_ ∧ AllOrderlyOn _ _ es))

end Orderly

/-! ### What each part does -/

namespace Posix

variable {N : Type*} {f : PosixFile} {orig : Ret} {c : Posix N} {x : FileCall}

theorem onFile_of_some (h : c.fileCall = some x) : (c.onFile f orig).1 = (f.answer x).1 := by
  cases c with
  | ftello _ | fsync _ | fxstat _ => cases h
  | _ => simp only [onFile, h]

theorem onFile_of_none (h : c.fileCall = none) : (c.onFile f orig).1 = f := by
  cases c with
  | ftello _ | fsync _ | fxstat _ => rfl
  | _ => simp only [onFile, h]

/-- A call posts what its call on the file posts. -/
theorem posts_of_some (client : Client) (h : c.fileCall = some x) : c.posts client = client.opPosts x.op := by
  cases c with
  | write _ _ | pwrite _ _ _ | read _ _ | pread _ _ _ | fread _ _ _ | feof _ =>
    cases h
    rfl
  | lseek _ _ whence | fseek _ _ whence =>
    obtain ⟨w, -, rfl⟩ := Option.map_eq_some_iff.mp h
    rfl
  | _ => cases h

theorem posts_of_none (client : Client) (h : c.fileCall = none) : c.posts client = [] := by
  cases c with
  | write _ _ | pwrite _ _ _ => cases h
  | _ => rfl

theorem closes_fileCall {fd : ℤ} (h : c.closes = some fd) : c.fileCall = none := by
  cases c with
  | close _ | fclose _ => rfl
  | _ => cases h

end Posix

section Wrap

variable {N α : Type*} [DecidableEq N] [DecidableEq α] {s : Process N} {env : Env α} {orig : Ret} {c : Posix N} {fd : ℤ}
  {o : ℕ} {f : PosixFile}

/-- A call that the file answers runs its operation on the client. -/
theorem wrap_client_some (env : Env α) (orig : Ret) (hc : c.fd? = some fd) (hr : s.resolve fd = some o)
    {x : FileCall} (hx : c.fileCall = some x) :
    (s.wrap env orig c).process.clients o = ((s.clients o).op x.op).1 := by
  cases c with
  | write _ _ | pwrite _ _ _ | read _ _ | pread _ _ _ | fread _ _ _ | feof _ =>
    cases hc
    cases hx
    exact (delegate_client orig hr _).1
  | lseek _ _ whence | fseek _ _ whence =>
    cases hc
    obtain ⟨w, hw, rfl⟩ := Option.map_eq_some_iff.mp hx
    obtain rfl := Whence.from?_eq hw
    exact (delegate_client orig hr _).1
  | _ => cases hx

/-- The other calls that it answers leave the client as it is. -/
theorem wrap_client_none (env : Env α) (orig : Ret) (hc : c.fd? = some fd) (hr : s.resolve fd = some o)
    (hx : c.fileCall = none) (hfit : c.closes = none → c.Fits mrSize.seqOffset f) :
    (s.wrap env orig c).process.clients o = s.clients o := by
  cases c with
  | close _ | fclose _ => rfl
  | fsync _ =>
    cases hc
    exact (delegate_client orig hr _).1
  | ftello _ =>
    cases hc
    exact (delegate_client { orig with value := toInt orig.value } hr _).1
  | fxstat _ =>
    cases hc
    show (s.fxstat fd orig).process.clients o = _
    unfold Process.fxstat
    rw [hr]
    rfl
  | _ =>
    obtain ⟨x, hsome, -⟩ := hfit rfl
    rw [hx] at hsome
    cases hsome

/-- The log of the descriptor after a call. -/
theorem InUse.wrap {f₀ : PosixFile} {writes : ℕ} {ps : List (Peer α)} (h : InUse f₀ writes (s.clients o) ps f)
    (env : Env α) (orig : Ret) (hc : c.fd? = some fd) (hr : s.resolve fd = some o)
    (hfit : c.closes = none → c.Fits mrSize.seqOffset f) :
    InUse f₀ (writes + c.writes) ((s.wrap env orig c).process.clients o)
      (ps.map fun p => p.apply (c.posts (s.clients o))) (c.onFile f orig).1 := by
  cases hx : c.fileCall with
  | none =>
    rw [wrap_client_none env orig hc hr hx hfit, Posix.posts_of_none _ hx, map_apply_nil, Posix.onFile_of_none hx]
    unfold Posix.writes
    rw [hx]
    exact h
  | some x =>
    have hopen : c.closes = none := by
      by_contra hno
      obtain ⟨fd', hcl⟩ := Option.ne_none_iff_exists'.mp hno
      rw [Posix.closes_fileCall hcl] at hx
      cases hx
    have hxfit : x.Fits mrSize.seqOffset f := by
      have hf := hfit hopen
      cases c with
      | ftello _ | fsync _ | fxstat _ | close _ | fclose _ => cases hx
      | _ =>
        obtain ⟨y, hy, hyfit⟩ := hf
        obtain rfl := Option.some.inj (hx.symm.trans hy)
        exact hyfit
    rw [wrap_client_some env orig hc hr hx, Posix.posts_of_some _ hx, Posix.onFile_of_some hx]
    unfold Posix.writes
    rw [hx]
    exact h.call hxfit

end Wrap

/-! ### The disk is what the cluster keeps -/

section Durable

variable {N α : Type*} [DecidableEq α]

/-- Every log is in use by the client of its path, or with the servers alone. -/
structure Durable (p : Process N) (filename : ℕ → Option N) (servers : N → List (Peer α)) (t : Disk N) : Prop where
  idle : p.pool.idle = []
  owner : ∀ q o, p.pathCli q = some o → filename o = some q
  inUse : ∀ q o f, p.pathCli q = some o → t.files.file q = some f →
    InUse (t.kept q) (t.writes q) (p.clients o) (servers q) f
  held : ∀ q, p.pathCli q = none → Held (servers q) (t.kept q)
  logs : ∀ q f, t.files.file q = some f → q ∈ t.logs

/-- The cluster and the disk. -/
structure Backs (s : Cluster N α) (t : Disk N) : Prop where
  sound : s.session.Sound
  tracks : Tracks s.session.process t.files
  durable : Durable s.session.process s.filename s.servers t

/-- Before the first call of a process the servers have all logs. -/
theorem durable_start {servers : N → List (Peer α)} {kept : N → PosixFile} (h : ∀ q, Held (servers q) (kept q)) :
    Durable Process.init (fun _ => none) servers ⟨⟨fun _ => none, fun _ => none⟩, kept, fun _ => 0, []⟩ where
  idle := rfl
  owner _ _ hq := by cases hq
  inUse _ _ _ hq := by cases hq
  held q _ := h q
  logs _ _ hf := by cases hf

theorem backs_init {addrs : List α} (hn : addrs.Nodup) (hne : addrs ≠ []) :
    Backs (Cluster.init addrs : Cluster N α) Disk.init where
  sound := Session.sound_init
  tracks := Tracks.init
  durable := durable_start fun _ => held_empty hn hne

variable {p p' : Process N} {filename : ℕ → Option N} {servers : N → List (Peer α)} {t t' : Disk N} {q : N} {o : ℕ}

/-- Nothing that it looks at changes. -/
theorem Durable.congr (h : Durable p filename servers t) (hpath : p'.pathCli = p.pathCli) (hpool : p'.pool = p.pool)
    (hclients : p'.clients = p.clients) (hfile : t'.files.file = t.files.file) (hkept : t'.kept = t.kept)
    (hwrites : t'.writes = t.writes) (hlogs : t'.logs = t.logs) : Durable p' filename servers t' := by
  refine ⟨hpool ▸ h.idle, hpath ▸ h.owner, ?_, ?_, ?_⟩
  · rw [hpath, hclients, hfile, hkept, hwrites]
    exact h.inUse
  · rw [hpath, hkept]
    exact h.held
  · rw [hfile, hlogs]
    exact h.logs

/-- The process ends. -/
theorem Backs.stop {s : Cluster N α} (h : Backs s t) (hstop : t.MayStop) : Backs s.stop t.stop where
  sound := Session.sound_init
  tracks := Tracks.init
  durable := by
    refine durable_start fun q => ?_
    show Held (s.servers q) (((t.files.file q).map PosixFile.reopen).getD (t.kept q))
    cases hq : s.session.process.pathCli q with
    | none =>
      rw [h.tracks.noFile q hq]
      exact h.durable.held q hq
    | some o =>
      obtain ⟨f, hf, -⟩ := h.tracks.file q o hq
      have hin := h.durable.inUse q o f hq hf
      rw [hf]
      rcases hstop q (h.durable.logs q f hf) f hf with ⟨hsolid, hrec⟩ | ⟨hnil, hzero⟩
      · exact hin.stop hsolid hrec
      · rw [hzero] at hin
        exact hin.stop_unwritten hnil

variable [DecidableEq N]

/-- One log in use changes with its client. -/
theorem Durable.update (h : Durable p filename servers t) (hd : p.Distinct) (hq : p.pathCli q = some o)
    (hpath : p'.pathCli = p.pathCli) (hpool : p'.pool = p.pool) (hframe : ∀ o', o' ≠ o → p'.clients o' = p.clients o')
    {f : PosixFile} {n : ℕ} {ps : List (Peer α)} (hin : InUse (t.kept q) n (p'.clients o) ps f)
    (hfile : t'.files.file = Function.update t.files.file q (some f)) (hkept : t'.kept = t.kept)
    (hwrites : t'.writes = Function.update t.writes q n) (hlogs : t'.logs = t.logs) (hlog : q ∈ t.logs) :
    Durable p' filename (Function.update servers q ps) t' where
  idle := hpool ▸ h.idle
  owner := hpath ▸ h.owner
  inUse := by
    rw [hpath, hfile, hkept, hwrites]
    intro q' o' f' hq' hf'
    by_cases hqq : q' = q
    · subst hqq
      obtain rfl : o = o' := Option.some.inj (hq.symm.trans hq')
      rw [Function.update_self] at hf'
      obtain rfl := Option.some.inj hf'
      rw [Function.update_self, Function.update_self]
      exact hin
    · rw [Function.update_of_ne hqq] at hf'
      rw [Function.update_of_ne hqq, Function.update_of_ne hqq,
        hframe o' fun he => hqq (hd.inj q' q o' hq' (he ▸ hq))]
      exact h.inUse q' o' f' hq' hf'
  held := by
    rw [hpath, hkept]
    intro q' hq'
    have hqq : q' ≠ q := fun he => by rw [he, hq] at hq'; cases hq'
    rw [Function.update_of_ne hqq]
    exact h.held q' hq'
  logs := by
    rw [hfile, hlogs]
    intro q' f' hf'
    by_cases hqq : q' = q
    · rw [hqq]
      exact hlog
    · rw [Function.update_of_ne hqq] at hf'
      exact h.logs q' f' hf'

/-- A path without a client gets a new one. -/
theorem getClient_new (hd : p.Distinct) (hi : p.pool.idle = []) (hw : p.pool.made < 2 ^ 32) (env : Env α) {flags : ℕ}
    (hflags : isCompSideLog flags = true) (hq : p.pathCli q = none) : p.getClient env q flags (-1) =
      { p with
        pool := p.pool.getClient.1
        clients := Function.update p.clients p.pool.made
          (Pool.newClient mrSize env.peers (needRecoverData flags)).1
        pathCli := Function.update p.pathCli q (some p.pool.made) } := by
  unfold Process.getClient
  rw [if_pos hflags, hq, Tracks.takeClient_new hd hi hw]
  rfl

/-- The log of a path is loaded. -/
theorem Durable.load (h : Durable p filename servers t) (hd : p.Distinct) (hw : p.pool.made < 2 ^ 32)
    (htracks : Tracks p t.files) {env : Env α} (henv : env.peers = servers q) {flags : ℕ}
    (hflags : isCompSideLog flags = true) (hq : p.pathCli q = none)
    (ht : needRecoverData flags = true ∨ (t.kept q).bytes = []) :
    Tracks (p.getClient env q flags (-1)) (t.load q).files ∧
      Durable (p.getClient env q flags (-1)) (Function.update filename p.pool.made (some q))
        (Function.update servers q (Pool.newClient mrSize env.peers (needRecoverData flags)).2) (t.load q) := by
  have hbegun : Begun (Pool.newClient mrSize env.peers (needRecoverData flags)) (t.kept q) := henv ▸ h.held q hq _ ht
  have hin := hbegun.inUse
  have hload : t.load q = ⟨{ t.files with file := Function.update t.files.file q (some (t.kept q)) }, t.kept,
      Function.update t.writes q 0, q :: t.logs⟩ := by
    unfold Disk.load
    rw [htracks.noFile q hq]
  have hadopt := htracks.adopt hd hq (fun _ => hw) hflags (Tracks.hands_new hd h.idle hw hin.keeps)
  obtain ⟨-, hidle⟩ := Tracks.getClient_created hd h.idle hw
  have hfresh : ∀ q' o', p.pathCli q' = some o' → o' ≠ p.pool.made := fun q' o' hq' =>
    ne_of_lt (hd.pool.busy_lt (hd.busy q' o' hq'))
  rw [hload]
  refine ⟨hadopt, ?_⟩
  rw [getClient_new hd h.idle hw env hflags hq]
  refine ⟨hidle, fun q' o' hq' => ?_, fun q' o' f hq' hf => ?_, fun q' hq' => ?_, fun q' f hf => ?_⟩
  · rcases Assoc.update_cases hq' with ⟨rfl, ho⟩ | ⟨hne, hq'⟩
    · obtain rfl := Option.some.inj ho
      exact Function.update_self _ _ _
    · rw [Function.update_of_ne (hfresh q' o' hq')]
      exact h.owner q' o' hq'
  · rcases Assoc.update_cases hq' with ⟨rfl, ho⟩ | ⟨hne, hq'⟩
    · obtain rfl := Option.some.inj ho
      obtain rfl := Option.some.inj ((Function.update_self q' _ t.files.file).symm.trans hf)
      simp only [Function.update_self]
      exact hin
    · have hf' : t.files.file q' = some f := (Function.update_of_ne hne _ _).symm.trans hf
      simp only [Function.update_of_ne hne, Function.update_of_ne (hfresh q' o' hq')]
      exact h.inUse q' o' f hq' hf'
  · have hne : q' ≠ q := by
      rintro rfl
      cases (Function.update_self q' _ p.pathCli).symm.trans hq'
    rw [Function.update_of_ne hne]
    exact h.held q' ((Function.update_of_ne hne _ _).symm.trans hq')
  · by_cases hqq : q' = q
    · exact hqq ▸ List.mem_cons_self
    · exact List.mem_cons_of_mem _ (h.logs q' f ((Function.update_of_ne hqq _ _).symm.trans hf))

end Durable

/-! ### One call -/

section Call

variable {N α : Type*} [DecidableEq N] [DecidableEq α] {s : Cluster N α} {t : Disk N} {e : HostCall N}

omit [DecidableEq N] in
theorem Posix.recovers_of_open {c : Posix N} {p : N} {flags : ℕ} (hc : c.openArgs = some (p, flags)) :
    c.recovers = needRecoverData flags := by
  cases c with
  | openPath _ _ | openat _ _ _ =>
    cases hc
    rfl
  | fopen _ mode =>
    cases hc
    show true = needRecoverData (Process.modeFlags mode)
    unfold Process.modeFlags
    split <;> rfl
  | _ => cases hc

omit [DecidableEq N] in
theorem HostCall.asks_of_fd {fd : ℤ} (hc : e.call.fd? = some fd) : e.asks = none := by
  unfold HostCall.asks Event.asks
  cases he : e.call with
  | openPath _ _ | openat _ _ _ | fopen _ _ | unlink _ | xstat _ =>
    rw [he] at hc
    cases hc
  | _ => rfl

namespace Cluster

/-- The name and the servers after a new client for a path. -/
theorem afterCall_new (hd : s.session.process.Distinct) (hi : s.session.process.pool.idle = [])
    (hw : s.session.process.pool.made < 2 ^ 32) {q : N} (hasks : e.asks = some q)
    (hq : s.session.process.pathCli q = none) : s.afterCall e =
      (Function.update s.filename s.session.process.pool.made (some q),
        Function.update s.servers q (Pool.newClient mrSize (s.event e).env.peers e.call.recovers).2) := by
  obtain ⟨hget, -⟩ := Tracks.getClient_created hd hi hw
  unfold afterCall Process.synced
  simp only [hasks, hq, if_true]
  rw [hget]

theorem afterCall_known {q : N} (hasks : e.asks = some q) (hq : s.session.process.pathCli q ≠ none) :
    s.afterCall e = (s.filename, s.servers) := by
  unfold afterCall
  simp only [hasks, if_neg hq]

theorem afterCall_fd {fd : ℤ} (hc : e.call.fd? = some fd) : s.afterCall e =
    match (s.session.process.resolve fd).bind fun o => (s.filename o).map (Prod.mk o) with
      | some (o, q) => (s.filename, Function.update s.servers q
          ((s.servers q).map fun x => x.apply (e.call.posts (s.session.process.clients o))))
      | none => (s.filename, s.servers) := by
  unfold afterCall
  rw [HostCall.asks_of_fd hc]
  cases he : e.call with
  | openPath _ _ | openat _ _ _ | fopen _ _ | unlink _ | xstat _ =>
    rw [he] at hc
    cases hc
  | _ =>
    rw [he] at hc
    cases hc
    rfl

/-- A call that needs no client of its own leaves the servers alone. -/
theorem afterCall_rest (hasks : e.asks = none) (hc : e.call.fd? = none)
    (hu : ∀ q ∈ e.call.unlinks, s.session.process.pathCli q = none) : s.afterCall e = (s.filename, s.servers) := by
  unfold afterCall
  rw [hasks]
  cases he : e.call with
  | unlink q =>
    simp only [hu q (by rw [he]; rfl)]
  | openPath _ _ | openat _ _ _ | fopen _ _ | xstat _ => rfl
  | _ =>
    rw [he] at hc
    cases hc

end Cluster

/-- The logs that the calls find. -/
theorem Backs.ask (h : Backs s t) (hw : s.session.process.pool.made < 2 ^ 32) {q : N} (hasks : e.asks = some q)
    {flags : ℕ} (hflags : isCompSideLog flags = true) (hrec : e.call.recovers = needRecoverData flags)
    (ht : t.files.file q = none → e.call.recovers = true ∨ (t.kept q).bytes = []) :
    Tracks (s.session.process.getClient (s.event e).env q flags (-1)) (t.loaded e).files ∧
      Durable (s.session.process.getClient (s.event e).env q flags (-1)) (s.afterCall e).1 (s.afterCall e).2
        (t.loaded e) ∧ ∃ f, (t.loaded e).files.file q = some f := by
  have hload : t.loaded e = t.load q := by
    unfold Disk.loaded
    rw [hasks]
  rw [hload]
  cases hq : s.session.process.pathCli q with
  | some o =>
    obtain ⟨f, hf, -⟩ := h.tracks.file q o hq
    have hsame : t.load q = t := by
      unfold Disk.load
      rw [hf]
    have hget : s.session.process.getClient (s.event e).env q flags (-1) = s.session.process := by
      unfold Process.getClient
      rw [if_pos hflags, hq]
      rfl
    rw [hsame, hget, Cluster.afterCall_known hasks (by rw [hq]; simp)]
    exact ⟨h.tracks, h.durable, f, hf⟩
  | none =>
    have henv : (s.event e).env.peers = s.servers q := by
      unfold Cluster.event
      rw [hasks]
      rfl
    have hd := h.sound.distinct
    have hno := h.tracks.noFile q hq
    obtain ⟨htracks, hdur⟩ := h.durable.load hd hw h.tracks henv hflags hq (hrec ▸ ht hno)
    rw [Cluster.afterCall_new hd h.durable.idle hw hasks hq, hrec]
    refine ⟨htracks, hdur, t.kept q, ?_⟩
    unfold Disk.load
    rw [hno]
    exact Function.update_self _ _ _

theorem Disk.loaded_of_none (hasks : e.asks = none) : t.loaded e = t := by
  unfold Disk.loaded
  rw [hasks]

theorem Disk.after_writes (hfd : e.call.fd? = none) : (t.after e).writes = (t.loaded e).writes := by
  unfold Disk.after
  rw [hfd]
  rfl

/-- A call on an open log counts with its writes. -/
theorem Disk.after_fd {fd : ℤ} {q : N} (hc : e.call.fd? = some fd) (hq : t.files.opened fd = some q) :
    t.after e = ⟨((t.loaded e).files.step e.call e.orig).1, (t.loaded e).kept,
      Function.update (t.loaded e).writes q ((t.loaded e).writes q + e.call.writes), (t.loaded e).logs⟩ := by
  unfold Disk.after
  rw [hc, Option.bind_some, hq]

omit [DecidableEq N] in
theorem Posix.fd_of_open {c : Posix N} {p : N} {flags : ℕ} (hc : c.openArgs = some (p, flags)) :
    c.fd? = none ∧ c.unlinks = none := by
  cases c with
  | openPath _ _ | openat _ _ _ | fopen _ _ => exact ⟨rfl, rfl⟩
  | _ => cases hc

/-- A call that needs no client. -/
theorem Backs.rest (h : Backs s t) (hasks : e.asks = none) (hfd : e.call.fd? = none)
    (hu : ∀ q ∈ e.call.unlinks, s.session.process.pathCli q = none) {p : Process N} (hp : p = s.session.process)
    (hfile : ((t.loaded e).files.step e.call e.orig).1.file = t.files.file) :
    Durable p (s.afterCall e).1 (s.afterCall e).2 (t.after e) := by
  have hwrites := Disk.after_writes (t := t) hfd
  have hload := Disk.loaded_of_none (t := t) hasks
  have hkept : (t.after e).kept = (t.loaded e).kept ∧ (t.after e).logs = (t.loaded e).logs := ⟨rfl, rfl⟩
  rw [hload] at hwrites hkept
  rw [hp, Cluster.afterCall_rest hasks hfd hu]
  exact h.durable.congr rfl rfl rfl hfile hkept.1 hwrites hkept.2

/-- What a call does to the cluster and to the disk. -/
structure Agrees (s : Cluster N α) (t : Disk N) (e : HostCall N) : Prop where
  tracks : Tracks (s.session.outcome (s.event e)).process (t.after e).files
  durable : Durable (s.session.outcome (s.event e)).process (s.afterCall e).1 (s.afterCall e).2 (t.after e)
  ret : (s.session.outcome (s.event e)).ret = ((t.loaded e).files.step e.call e.orig).2

/-- An open. -/
theorem Backs.call_open (h : Backs s t) (ho : (HostEvent.call e).Orderly s t) {q : N} {flags : ℕ}
    (hc : e.call.openArgs = some (q, flags)) : Agrees s t e := by
  obtain ⟨hfresh, hw, -, htrunc, -⟩ := ho
  obtain ⟨hfd, hu⟩ := Posix.fd_of_open hc
  have hout : s.session.outcome (s.event e) = s.session.process.openPath (s.event e).env q flags e.orig :=
    Process.wrap_of_openArgs hc
  have hasks : e.asks = if 0 ≤ e.orig.value ∧ isCompSideLog flags = true then some q else none := Event.asks_of_open hc
  have hfiles : (t.after e).files = ((t.loaded e).files.step e.call e.orig).1 := rfl
  by_cases hv : 0 ≤ e.orig.value ∧ isCompSideLog flags = true
  · rw [if_pos hv] at hasks
    obtain ⟨htracks, hdur, f, hf⟩ := h.ask hw hasks hv.2 (Posix.recovers_of_open hc) (htrunc q hasks)
    have hfree := h.sound.free hfresh hc hv.1
    have hstep : (t.loaded e).files.step e.call e.orig =
        ({ (t.loaded e).files with opened := Function.update (t.loaded e).files.opened e.orig.value (some q) },
          e.orig) := by
      rw [Files.step_of_openArgs hc, if_pos hv, Files.provide_of_some hf]
    have hproc : (s.session.outcome (s.event e)).process =
        s.session.process.getClient (s.event e).env q flags e.orig.value := by
      rw [hout]
      unfold Process.openPath
      rw [if_pos hv.1]
      rfl
    obtain ⟨o, -, heq, -⟩ := Tracks.getClient_eq s.session.process (s.event e).env q hv.2 e.orig.value
    refine ⟨?_, ?_, by rw [hout, hstep]; rfl⟩
    · rw [hproc, hfiles, hstep]
      exact Tracks.openPath hv.2 htracks hv.1 hfree
    · rw [hproc, heq, Process.bindFd_eq]
      exact hdur.congr rfl rfl rfl (by rw [hfiles, hstep]) rfl (Disk.after_writes hfd) rfl
  · rw [if_neg hv] at hasks
    have hstep : (t.loaded e).files.step e.call e.orig = (t.files, e.orig) := by
      rw [Files.step_of_openArgs hc, if_neg hv, Disk.loaded_of_none hasks]
    have hproc : (s.session.outcome (s.event e)).process = s.session.process := by
      rw [hout]
      unfold Process.openPath
      split
      · rename_i hpos
        exact Process.getClient_of_not (by simpa using fun hf => hv ⟨hpos, hf⟩) _
      · rfl
    refine ⟨?_, h.rest hasks hfd (by rw [hu]; simp) hproc (by rw [hstep]), by rw [hout, hstep]; rfl⟩
    rw [hproc, hfiles, hstep]
    exact h.tracks

/-- `unlink` of a path that is not a log of the process. -/
theorem Backs.call_unlink (h : Backs s t) (ho : (HostEvent.call e).Orderly s t) {q : N} (hc : e.call = .unlink q) :
    Agrees s t e := by
  obtain ⟨-, -, hfree, -, -⟩ := ho
  have hno : t.files.file q = none := hfree q (by rw [hc]; rfl)
  have hq : s.session.process.pathCli q = none := by
    cases hq : s.session.process.pathCli q with
    | none => rfl
    | some o =>
      obtain ⟨f, hf, -⟩ := h.tracks.file q o hq
      rw [hno] at hf
      cases hf
  have hasks : e.asks = none := by
    unfold HostCall.asks
    rw [hc]
    rfl
  have hfd : e.call.fd? = none := by
    rw [hc]
    rfl
  have hu : ∀ p ∈ e.call.unlinks, s.session.process.pathCli p = none := by
    rw [hc]
    rintro p ⟨⟩
    exact hq
  have hout : s.session.outcome (s.event e) = s.session.process.pass e.orig := by
    show s.session.process.wrap (s.event e).env e.orig e.call = _
    rw [hc]
    show s.session.process.unlink q e.orig = _
    unfold Process.unlink
    rw [hq]
  have hstep : (t.loaded e).files.step e.call e.orig = (t.files, e.orig) := by
    rw [Disk.loaded_of_none hasks, hc]
    show ({ t.files with file := Function.update t.files.file q none }, e.orig) = _
    rw [← hno, Function.update_eq_self]
  have hfiles : (t.after e).files = ((t.loaded e).files.step e.call e.orig).1 := rfl
  refine ⟨?_, h.rest hasks hfd hu (by rw [hout]; rfl) (by rw [hstep]), by rw [hout, hstep]; rfl⟩
  rw [hout, hfiles, hstep]
  exact h.tracks

/-- `__xstat64`. -/
theorem Backs.call_xstat (h : Backs s t) (ho : (HostEvent.call e).Orderly s t) {q : N} (hc : e.call = .xstat q) :
    Agrees s t e := by
  obtain ⟨-, hw, -, htrunc, -⟩ := ho
  have hasks : e.asks = if 0 ≤ e.orig.value ∧ e.orig.stSize = 0 then some q else none := by
    unfold HostCall.asks
    rw [hc]
    rfl
  have hfd : e.call.fd? = none := by
    rw [hc]
    rfl
  have hrec : e.call.recovers = needRecoverData oCsl := by
    rw [hc]
    rfl
  have hout : s.session.outcome (s.event e) = s.session.process.xstat (s.event e).env q e.orig := by
    show s.session.process.wrap (s.event e).env e.orig e.call = _
    rw [hc]
    rfl
  have hfiles : (t.after e).files = ((t.loaded e).files.step e.call e.orig).1 := rfl
  have hu : ∀ p ∈ e.call.unlinks, s.session.process.pathCli p = none := by
    rw [hc]
    exact fun p hp => by cases hp
  have hcsl : isCompSideLog oCsl = true := by decide
  by_cases hv : 0 ≤ e.orig.value ∧ e.orig.stSize = 0
  · rw [if_pos hv] at hasks
    obtain ⟨htracks, hdur, f, hf⟩ := h.ask hw hasks hcsl hrec (htrunc q hasks)
    have hstep : (t.loaded e).files.step e.call e.orig =
        ((t.loaded e).files, { e.orig with stSize := f.bytes.length }) := by
      rw [hc]
      show (if e.orig.value < 0 then _ else _) = _
      rw [if_neg (by omega)]
      simp only [hf]
    have hcall := htracks.xstat_ask hf hv
    refine ⟨?_, ?_, by rw [hout, hcall, hstep]; rfl⟩
    · rw [hout, hcall, hfiles, hstep]
      exact htracks
    · rw [hout, hcall]
      exact hdur.congr rfl rfl rfl (by rw [hfiles, hstep]) rfl (Disk.after_writes hfd) rfl
  · rw [if_neg hv] at hasks
    obtain ⟨hproc, hstep⟩ := h.tracks.xstat_pass (s.event e).env (p := q) hv
    rw [← hc, ← Disk.loaded_of_none (t := t) hasks] at hstep
    have hsame : (t.after e).files = t.files := by
      rw [hfiles, hstep]
      exact congrArg Disk.files (Disk.loaded_of_none hasks)
    refine ⟨?_, h.rest hasks hfd hu (by rw [hout, hproc]) (congrArg Files.file hsame), by rw [hout, hstep]⟩
    rw [hout, hproc, hsame]
    exact h.tracks

/-- A call on a descriptor. -/
theorem Backs.call_fd (h : Backs s t) (ho : (HostEvent.call e).Orderly s t) {fd : ℤ} (hc : e.call.fd? = some fd) :
    Agrees s t e := by
  obtain ⟨-, -, -, -, hfits⟩ := ho
  have hfit : t.files.FitsOn e.call e.orig fd := hfits fd hc
  have hload := Disk.loaded_of_none (t := t) (HostCall.asks_of_fd hc)
  have hd := h.sound.distinct
  obtain ⟨hpath, hpool, -, hframe⟩ := Process.wrap_of_fd s.session.process (s.event e).env e.orig hc
  -- the maps follow, whether or not the descriptor is closed
  obtain ⟨htracks, hret⟩ : Tracks (s.session.outcome (s.event e)).process (t.files.step e.call e.orig).1 ∧
      (s.session.outcome (s.event e)).ret = (t.files.step e.call e.orig).2 := by
    cases hcl : e.call.closes with
    | none =>
      rw [Files.step_of_fd hc hcl]
      exact h.tracks.descriptor hd hc hcl hfit
    | some fd' =>
      have hout : s.session.outcome (s.event e) =
          { s.session.process with fdCli := Assoc.erase s.session.process.fdCli fd' }.pass e.orig :=
        Process.wrap_of_closes hcl
      rw [hout, Files.step_of_closes hcl]
      exact ⟨h.tracks.close fd', rfl⟩
  have hfiles : (t.after e).files = (t.files.step e.call e.orig).1 := by
    show ((t.loaded e).files.step e.call e.orig).1 = _
    rw [hload]
  refine ⟨hfiles ▸ htracks, ?_, by rw [hload]; exact hret⟩
  have hkept : (t.after e).kept = t.kept ∧ (t.after e).logs = t.logs := by
    show (t.loaded e).kept = _ ∧ (t.loaded e).logs = _
    rw [hload]
    exact ⟨rfl, rfl⟩
  rw [Cluster.afterCall_fd hc]
  cases hr : s.session.process.resolve fd with
  | none =>
    have hopened := h.tracks.unopened fd hr
    refine h.durable.congr hpath hpool (funext fun o => hframe o (by rw [hr]; simp)) ?_ hkept.1 ?_ hkept.2
    · rw [hfiles]
      exact Files.step_unopened hc hopened
    · unfold Disk.after
      rw [hc, hload]
      simp only [Option.bind_some, hopened]
  | some o =>
    obtain ⟨q, hq, hqo⟩ := h.tracks.opened fd o hr
    obtain ⟨f, hf, -⟩ := h.tracks.file q o hqo
    have hin := h.durable.inUse q o f hqo hf
    have howner := h.durable.owner q o hqo
    have hclose : e.call.closes = none → e.call.Fits mrSize.seqOffset f := by
      intro _
      unfold Files.FitsOn at hfit
      rw [hq] at hfit
      exact hfit f hf
    simp only [Option.bind_some, howner, Option.map_some]
    refine h.durable.update hd hqo hpath hpool (fun o' hne => hframe o' fun he => hne ?_)
      (hin.wrap (s.event e).env e.orig hc hr hclose) ?_ hkept.1 ?_ hkept.2 (h.durable.logs q f hf)
    · rw [hr] at he
      exact (Option.some.inj he).symm
    · rw [hfiles]
      exact Files.step_opened hc hq hf
    · rw [Disk.after_fd hc hq, hload]

/-- **One call.** It returns what it returns on the disk, and the cluster goes on
backing it. -/
theorem Backs.call (h : Backs s t) (ho : (HostEvent.call e).Orderly s t) : Backs (s.after e) (t.after e) ∧
    (s.session.outcome (s.event e)).ret = ((t.loaded e).files.step e.call e.orig).2 := by
  have hagrees : Agrees s t e := by
    rcases e.call.kinds with ⟨fd, hc⟩ | ⟨p, flags, hc⟩ | ⟨p, hc⟩ | ⟨p, hc⟩
    · exact h.call_fd ho hc
    · exact h.call_open ho hc
    · exact h.call_unlink ho hc
    · exact h.call_xstat ho hc
  obtain ⟨hfresh, hw, hfree, -, -⟩ := ho
  have hcare : s.session.Careful (s.event e) := by
    refine ⟨fun p hp x _ hx => ?_, fun _ _ _ _ => hw⟩
    obtain ⟨f, hf, -⟩ := h.tracks.file p x.2 hx
    rw [hfree p hp] at hf
    cases hf
  have hsound : (s.session.after (s.event e)).Sound := h.sound.step hcare (Session.step_eq_some.mpr ⟨hfresh, rfl⟩)
  exact ⟨⟨hsound, hagrees.tracks, hagrees.durable⟩, hagrees.ret⟩

end Call

/-! ### Runs -/

section Runs

variable {N α : Type*} [DecidableEq N] [DecidableEq α] {s : Cluster N α} {t : Disk N}

theorem Backs.rets_eq (es : List (HostEvent N)) (h : Backs s t) (ho : AllOrderlyOn s t es) : s.rets es = t.rets es := by
  induction es generalizing s t with
  | nil => rfl
  | cons e es ih =>
    cases e with
    | call e =>
      obtain ⟨hbacks, hret⟩ := h.call ho.1
      exact congrArg₂ List.cons hret (ih hbacks ho.2)
    | stop => exact ih (h.stop ho.1) ho.2

/-- **The logs are a durable disk.** Over any number of processes, each opening any
number of logs and making any orderly calls until it ends, every call returns
what it returns on a disk that keeps the bytes of every path. -/
theorem durable_files {addrs : List α} (hn : addrs.Nodup) (hne : addrs ≠ []) {es : List (HostEvent N)}
    (h : AllOrderlyOn (Cluster.init addrs) Disk.init es) : (Cluster.init addrs).rets es = Disk.init.rets es :=
  (backs_init hn hne).rets_eq es h

/-- A call whose original returns `value`. -/
def hostCall (c : Posix String) (value : ℤ) : HostEvent String := .call ⟨c, ⟨value, [], 0⟩, mrSize.region Mem.zero⟩

/-- Two logs written by one process and read by the next two, by another name for
the call and at other offsets; one of them is written again in between. -/
def lifetimes : List (HostEvent String) :=
  [hostCall (.openPath "/a" oCsl) 3, hostCall (.fopen "/b" ['a', 'l']) 4, hostCall (.write 3 [1, 2]) 0,
    hostCall (.pwrite 4 [9] 2) 0, hostCall (.write 4 [7]) 0, hostCall (.write 3 [3]) 0, hostCall (.close 3) 0, .stop,
    hostCall (.xstat "/a") 0, hostCall (.openPath "/b" oCsl) 3, hostCall (.read 3 8) 0,
    hostCall (.pwrite 3 [5] 1) 0, hostCall (.write 3 [6]) 0, .stop,
    hostCall (.openat 0 "/a" oCsl) 5, hostCall (.pread 5 8 1) 0, hostCall (.fopen "/b" ['r', 'l']) 6,
    hostCall (.fread 6 2 8) 0]

theorem durable_files_lifetimes : ((Cluster.init [7, 8] : Cluster String ℕ).rets lifetimes).drop 7 =
    [⟨0, [], 3⟩, ⟨3, [], 0⟩, ⟨3, [7, 0, 9], 0⟩, ⟨1, [], 0⟩, ⟨1, [], 0⟩,
      ⟨5, [], 0⟩, ⟨2, [2, 3], 0⟩, ⟨6, [], 0⟩, ⟨4, [7, 5, 9, 6], 0⟩] := by
  rw [durable_files (by decide) (by decide) (by decide)]
  decide

end Runs

end ComputeSideLog
