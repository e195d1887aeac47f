/-
# What an open finds

A log's descriptor has no offset of its own: it refers to the client of its
path, which has one `buf_offset` and outlives the descriptor. `getClient`
(`src/csl.cc`) looks at the flags of an open only where it fetches a client
for a path that has none. So the second open of a path starts at the offset
the first one left, shares it as long as both are open, and does not
truncate.

`Opening` is a session of opens, writes, reads, seeks and closes of logs,
with what the descriptors of each path last left in the file. An open
`Follows` `open(2)` if the offset is 0 and no other descriptor's, and the
file is empty under `O_TRUNC` and otherwise as it was left. In runs whose
opens are `Clean`, all of them follow; an open that is not does not
(`open_follows`).

Key definitions: `Session.view`, `Session.Independent`, `Opening.step`,
`Opening.Follows`, `Opening.Clean`.
Key theorems: `Process.getClient_created`, `Opening.Inv.descriptor`,
`Opening.Inv.openPath`, `Opening.open_follows`.
-/
import ComputeSideLog.GetLine
import ComputeSideLog.Isolation

namespace ComputeSideLog

section

variable {N α : Type*}

/-- The file as a descriptor shows it: the contents, and the offset of the
client. -/
def Session.view (s : Session N) (fd : ℤ) : Option PosixFile :=
  (s.process.resolve fd).map fun o => (s.process.clients o).file

variable [DecidableEq N] [DecidableEq α]

/-- A descriptor's offset and those of the others do not depend on each other:
a call on one descriptor moves no other. -/
def Session.Independent (s : Session N) (fd : ℤ) : Prop :=
  ∀ (e : Event N α) (fd' : ℤ), fd' ≠ fd →
    (e.call.fd? = some fd' → ((s.after e).view fd).map PosixFile.offset = (s.view fd).map PosixFile.offset) ∧
    (e.call.fd? = some fd → ((s.after e).view fd').map PosixFile.offset = (s.view fd').map PosixFile.offset)

end

/-- A session, and the contents that the descriptors of a path left; none if the
path was not opened. -/
structure Opening (N : Type*) where
  session : Session N
  left : N → Option (List UInt8)

namespace Opening

variable {N α : Type*}

/-- Before the first call. -/
def init : Opening N := ⟨.init, fun _ => none⟩

/-- The calls that are made: `open` with `O_CSL`, and calls on descriptors. -/
def InScope (e : Event N α) : Bool :=
  match e.call with
  | .openPath _ flags => isCompSideLog flags
  | .close _ | .write _ _ | .pwrite _ _ _ | .read _ _ | .lseek _ _ _ | .fxstat _ => true
  | _ => false

variable [DecidableEq N] [DecidableEq α]

/-- What is left after a call: the contents the descriptor shows, under the path
that it was opened on. -/
def leftAfter (s : Opening N) (e : Event N α) : N → Option (List UInt8) :=
  match e.opens with
  | some (p, fd) => Function.update s.left p (((s.session.after e).view fd).map PosixFile.bytes)
  | none =>
    match (e.call.fd?.bind s.session.opened), (e.call.fd?.bind s.session.process.resolve) with
    | some f, some o => Function.update s.left f.path (some ((s.session.after e).process.clients o).file.bytes)
    | _, _ => s.left

/-- One call. -/
def step (s : Opening N) (e : Event N α) : Option (Opening N) :=
  if InScope e then (s.session.step e).map fun t => ⟨t, s.leftAfter e⟩ else none

/-- A successful open of `p` follows `open(2)`. If the path was not opened
before, what counts as left is what a peer holds. -/
structure Follows (s : Opening N) (e : Event N α) (p : N) (flags : ℕ) : Prop where
  offset : ((s.session.after e).view e.orig.value).map PosixFile.offset = some 0
  independent : (s.session.after e).Independent (α := α) e.orig.value
  truncated : needRecoverData flags = false →
    ((s.session.after e).view e.orig.value).map PosixFile.bytes = some []
  kept : needRecoverData flags = true → ∀ bs ∈ s.left p,
    ((s.session.after e).view e.orig.value).map PosixFile.bytes = some bs
  new : needRecoverData flags = true → s.left p = none → (∀ q ∈ e.env.peers, ¬ q.Eligible) →
    ((s.session.after e).view e.orig.value).map PosixFile.bytes = some []

/-- The path has no client yet, and a new one gets an id of its own; or its
client is at offset 0, no open descriptor refers to it, and it is empty if it
is to be truncated. -/
def CleanPath (s : Process N) (p : N) (flags : ℕ) : Prop :=
  match s.pathCli p with
  | none => s.pool.made < 2 ^ 32
  | some o => (s.clients o).bufOffset = 0 ∧ (∀ x ∈ s.fdCli, s.resolve x.1 ≠ some o) ∧
      (needRecoverData flags = false → (s.clients o).fileSize = 0)

instance (s : Process N) (p : N) (flags : ℕ) : Decidable (CleanPath s p flags) :=
  match h : s.pathCli p with
  | none => decidable_of_iff (s.pool.made < 2 ^ 32) (by rw [CleanPath, h])
  | some o => decidable_of_iff ((s.clients o).bufOffset = 0 ∧ (∀ x ∈ s.fdCli, s.resolve x.1 ≠ some o) ∧
      (needRecoverData flags = false → (s.clients o).fileSize = 0)) (by rw [CleanPath, h])

/-- The call is no successful open, or one of a path that is clean. -/
def Clean (s : Opening N) (e : Event N α) : Prop :=
  ∀ x ∈ e.call.openArgs, 0 ≤ e.orig.value → CleanPath s.session.process x.1 x.2

instance (s : Opening N) (e : Event N α) : Decidable (s.Clean e) :=
  inferInstanceAs (Decidable (∀ x ∈ e.call.openArgs, _))

/-! ### A call on a descriptor -/

variable {s : Opening N} {e : Event N α}

/-- The sessions of such runs: every path that has a client is left as the client
shows it, no two descriptors share one, and no client was recycled. -/
structure Inv (s : Opening N) : Prop where
  sound : s.session.Sound
  idle : s.session.process.pool.idle = []
  left : ∀ p, s.left p = (s.session.process.pathCli p).map fun o => (s.session.process.clients o).file.bytes
  alone : ∀ fd fd' o, s.session.process.resolve fd = some o → s.session.process.resolve fd' = some o → fd = fd'
  size : ∀ o, (s.session.process.clients o).buffer.size = mrSize.size

omit [DecidableEq N] in
theorem inv_init : Inv (init : Opening N) where
  sound := Session.sound_init
  idle := rfl
  left := fun _ => rfl
  alone := fun _ _ _ h => by cases h
  size := fun _ => rfl

/-- A call on another descriptor leaves the entry of this one. -/
theorem resolve_after {s : Session N} {fd fd' : ℤ} (hc : e.call.fd? = some fd') (hne : fd ≠ fd') :
    (s.after e).process.resolve fd = s.process.resolve fd := by
  obtain ⟨-, -, -, -, ⟨-, hfd⟩ | ⟨-, hfd⟩⟩ := Session.after_of_fd (s := s) hc
  · unfold Process.resolve
    rw [hfd]
  · unfold Process.resolve
    rw [hfd]
    exact Assoc.find_erase_ne hne _

theorem Inv.view_after (h : Inv s) {fd fd' : ℤ} (hc : e.call.fd? = some fd') (hne : fd ≠ fd') :
    (s.session.after e).view fd = s.session.view fd := by
  unfold Session.view
  rw [resolve_after hc hne]
  cases hr : s.session.process.resolve fd with
  | none => rfl
  | some o =>
    have hframe := (Process.wrap_of_fd s.session.process e.env e.orig hc).2.2.2 o fun hr' =>
      hne (h.alone fd fd' o hr hr')
    exact congrArg (fun c : Client => some c.file) hframe

theorem Inv.independent (h : Inv s) (fd : ℤ) : s.session.Independent (α := α) fd :=
  fun _ _ hne => ⟨fun hc => by rw [h.view_after hc hne.symm], fun hc => by rw [h.view_after hc hne]⟩

/-- The buffer of a client keeps its size under the calls that are made. -/
theorem size_after (hscope : InScope e = true) {fd : ℤ} (hc : e.call.fd? = some fd) (o : ℕ) :
    ((s.session.after e).process.clients o).buffer.size = (s.session.process.clients o).buffer.size := by
  have hop : ∀ (orig : Ret) (x : Op), ((s.session.process.delegate fd orig (Client.perform x)).process.clients
      o).buffer.size = (s.session.process.clients o).buffer.size := by
    intro orig x
    unfold Process.delegate
    split
    · rename_i o' _
      by_cases ho : o = o'
      · subst ho
        show (Function.update s.session.process.clients o _ o).buffer.size = _
        rw [Function.update_self]
        exact congrArg Prod.fst (Client.op_geometry (s.session.process.clients o) x)
      · show (Function.update s.session.process.clients o' _ o).buffer.size = _
        rw [Function.update_of_ne ho]
    · rfl
  have hframe := (Process.wrap_of_fd s.session.process e.env e.orig hc).2.2.2 o
  show ((s.session.process.wrap e.env e.orig e.call).process.clients o).buffer.size = _
  unfold InScope at hscope
  cases he : e.call with
  | write fd' buf | pwrite fd' buf offset | read fd' count | lseek fd' offset whence =>
    rw [he] at hc
    cases hc
    exact hop _ _
  | fxstat fd' =>
    show ((s.session.process.fxstat fd' e.orig).process.clients o).buffer.size = _
    unfold Process.fxstat
    split <;> rfl
  | close fd' => rfl
  | openPath p flags =>
    rw [he] at hc
    cases hc
  | _ => simp [he] at hscope

omit [DecidableEq N] [DecidableEq α] in
theorem opens_of_fd {fd : ℤ} (hc : e.call.fd? = some fd) : e.opens = none := by
  unfold Event.opens
  rw [Posix.openArgs_of_fd hc]

theorem leftAfter_of_none {fd : ℤ} (hc : e.call.fd? = some fd) (hr : s.session.process.resolve fd = none) :
    s.leftAfter e = s.left := by
  unfold leftAfter
  rw [opens_of_fd hc, hc]
  simp only [Option.bind_some, hr]
  cases s.session.opened fd <;> rfl

theorem leftAfter_of_some {fd : ℤ} (hc : e.call.fd? = some fd) {f : File N} {o : ℕ}
    (hf : s.session.opened fd = some f) (hr : s.session.process.resolve fd = some o) :
    s.leftAfter e = Function.update s.left f.path (some ((s.session.after e).process.clients o).file.bytes) := by
  unfold leftAfter
  rw [opens_of_fd hc, hc]
  simp only [Option.bind_some, hr, hf]

theorem Inv.descriptor (h : Inv s) (hscope : InScope e = true) {fd : ℤ} (hc : e.call.fd? = some fd) :
    Inv ⟨s.session.after e, s.leftAfter e⟩ := by
  obtain ⟨-, -, hpath, hpool, hfd⟩ := Session.after_of_fd (s := s.session) hc
  have hframe : ∀ o, s.session.process.resolve fd ≠ some o →
      (s.session.after e).process.clients o = s.session.process.clients o :=
    (Process.wrap_of_fd s.session.process e.env e.orig hc).2.2.2
  refine ⟨h.sound.descriptor hc, by rw [hpool, h.idle], fun p => ?_, fun fd₁ fd₂ o h₁ h₂ => ?_,
    fun o => (size_after hscope hc o).trans (h.size o)⟩
  · show s.leftAfter e p = ((s.session.after e).process.pathCli p).map _
    rw [hpath]
    -- only the path of the descriptor's client may be left differently
    have hother : ∀ o, s.session.process.pathCli p = some o → s.session.process.resolve fd ≠ some o →
        s.left p = some ((s.session.after e).process.clients o).file.bytes := by
      intro o hp hne
      rw [h.left p, hp, hframe o hne]
      rfl
    cases hr : s.session.process.resolve fd with
    | none =>
      rw [leftAfter_of_none hc hr]
      cases hp : s.session.process.pathCli p with
      | none => rw [h.left p, hp]; rfl
      | some o => exact hother o hp (by simp [hr])
    | some o =>
      obtain ⟨q, hq, hqo⟩ := h.sound.agree fd o hr
      rw [leftAfter_of_some hc hq hr]
      by_cases hpq : p = q
      · rw [hpq, Function.update_self, hqo]
        rfl
      · rw [Function.update_of_ne hpq]
        cases hp : s.session.process.pathCli p with
        | none => rw [h.left p, hp]; rfl
        | some o' =>
          refine hother o' hp fun hr' => hpq ?_
          rw [hr, Option.some.injEq] at hr'
          exact h.sound.distinct.inj p q o' hp (hr' ▸ hqo)
  · rcases hfd with ⟨-, hfd⟩ | ⟨-, hfd⟩
    · unfold Process.resolve at h₁ h₂
      rw [hfd] at h₁ h₂
      exact h.alone fd₁ fd₂ o h₁ h₂
    · unfold Process.resolve at h₁ h₂
      rw [hfd] at h₁ h₂
      exact h.alone fd₁ fd₂ o (Assoc.find_erase_eq_some h₁).2 (Assoc.find_erase_eq_some h₂).2

/-! ### An open -/

theorem recovered_frame (c : Client) (ps : List (Peer α)) :
    (c.recovered ps).bufOffset = c.bufOffset ∧ (c.recovered ps).buffer.size = c.buffer.size := by
  unfold Client.recovered
  dsimp only
  split
  · split <;> exact ⟨rfl, rfl⟩
  · exact ⟨rfl, rfl⟩

/-- A new client is at offset 0, and empty if nothing is recovered. -/
theorem newClient_spec (L : Layout) (ps : List (Peer α)) (r : Bool) :
    (Pool.newClient L ps r).1.bufOffset = 0 ∧ (Pool.newClient L ps r).1.buffer.size = L.size ∧
      ((r = false ∨ ∀ q ∈ ps, ¬ q.Eligible) → (Pool.newClient L ps r).1.fileSize = 0) := by
  unfold Pool.newClient
  cases r with
  | false => exact ⟨rfl, rfl, fun _ => rfl⟩
  | true =>
    obtain ⟨hoff, hsize⟩ := recovered_frame (Client.fresh L) ps
    refine ⟨hoff, hsize, fun hnone => ?_⟩
    show ((Client.fresh L).recovered ps).fileSize = 0
    rw [recovered_of_none (hnone.resolve_left (by decide))]
    rfl

end Opening

/-- `getClient` for a path without a client constructs one, if no client is idle
and its id is not taken. -/
theorem Process.getClient_created {N α : Type*} [DecidableEq N] [DecidableEq α] {s : Process N} {env : Env α} {p : N}
    {flags : ℕ} {fd : ℤ} (hf : isCompSideLog flags = true) (hp : s.pathCli p = none) (hidle : s.pool.idle = [])
    (hid : Assoc.find s.pool.busy (ClientPool.idOf s.pool.made) = none) :
    s.getClient env p flags fd = Process.bindFd
      { s with
        pool := s.pool.getClient.1
        clients := Function.update s.clients s.pool.made (Pool.newClient mrSize env.peers (needRecoverData flags)).1
        pathCli := Function.update s.pathCli p (some s.pool.made) } fd s.pool.made := by
  have hget : s.pool.getClient = (s.pool.getClient.1, s.pool.made, .created) := by
    unfold ClientPool.getClient
    simp only [hidle, hid]
  unfold Process.getClient Process.takeClient
  rw [if_pos hf, hp, hget]

namespace Opening

variable {N α : Type*} [DecidableEq N] [DecidableEq α] {s : Opening N} {e : Event N α}

omit [DecidableEq N] in
theorem Inv.resolve_none (h : Inv s) {fd : ℤ} (hfresh : s.session.opened fd = none) :
    s.session.process.resolve fd = none := by
  by_contra hsome
  obtain ⟨o, ho⟩ := Option.ne_none_iff_exists'.mp hsome
  obtain ⟨q, hq, -⟩ := h.sound.agree fd o ho
  rw [hfresh] at hq
  cases hq

/-- A client that no descriptor refers to may be bound to one. -/
theorem alone_insert {m : List (ℤ × ℕ)} {fd : ℤ} {o : ℕ}
    (h : ∀ fd₁ fd₂ o', Assoc.find m fd₁ = some o' → Assoc.find m fd₂ = some o' → fd₁ = fd₂)
    (hold : ∀ fd', Assoc.find m fd' ≠ some o) : ∀ fd₁ fd₂ o', Assoc.find (Assoc.insert m fd o) fd₁ = some o' →
      Assoc.find (Assoc.insert m fd o) fd₂ = some o' → fd₁ = fd₂ := by
  intro fd₁ fd₂ o' h₁ h₂
  rcases Assoc.find_insert_cases h₁ with g₁ | ⟨rfl, rfl⟩
  · rcases Assoc.find_insert_cases h₂ with g₂ | ⟨-, rfl⟩
    · exact h fd₁ fd₂ o' g₁ g₂
    · exact absurd g₁ (hold fd₁)
  · rcases Assoc.find_insert_cases h₂ with g₂ | ⟨rfl, -⟩
    · exact absurd g₂ (hold fd₂)
    · rfl

/-- What is left after an open that leads to session `t`. -/
def leftOpen (s : Opening N) (t : Session N) (p : N) (fd : ℤ) : N → Option (List UInt8) :=
  Function.update s.left p ((t.view fd).map PosixFile.bytes)

section

variable (env : Env α) {p : N} {flags : ℕ} {fd : ℤ} (hf : isCompSideLog flags = true) (hfd : 0 ≤ fd)
  (hfresh : s.session.opened fd = none)
include hf hfd hfresh

/-- The path has a client. -/
theorem Inv.reopened (h : Inv s) {o : ℕ} (hp : s.session.process.pathCli p = some o) :
    (s.session.openLog env p flags fd).process =
        { s.session.process with fdCli := Assoc.insert s.session.process.fdCli fd o } ∧
      (s.session.openLog env p flags fd).process.resolve fd = some o ∧
      (s.session.openLog env p flags fd).view fd = some (s.session.process.clients o).file := by
  have hproc : (s.session.openLog env p flags fd).process =
      { s.session.process with fdCli := Assoc.insert s.session.process.fdCli fd o } := by
    unfold Session.openLog Process.getClient Process.bindFd
    rw [if_pos hf, hp]
    simp only [if_pos hfd]
  have hres : (s.session.openLog env p flags fd).process.resolve fd = some o := by
    rw [hproc]
    exact Assoc.find_insert_self (h.resolve_none hfresh)
  refine ⟨hproc, hres, ?_⟩
  unfold Session.view
  rw [hres, hproc]
  rfl

theorem Inv.reopen (h : Inv s) {o : ℕ} (hp : s.session.process.pathCli p = some o)
    (hfree : ∀ x ∈ s.session.process.fdCli, s.session.process.resolve x.1 ≠ some o) :
    Inv ⟨s.session.openLog env p flags fd, s.leftOpen (s.session.openLog env p flags fd) p fd⟩ := by
  obtain ⟨hproc, -, hview⟩ := h.reopened env hf hfd hfresh hp
  have hsound : (s.session.openLog env p flags fd).Sound := by
    refine h.sound.openLog env hfd hfresh fun _ hnone => ?_
    rw [hp] at hnone
    cases hnone
  refine ⟨hsound, ?_, fun q => ?_, ?_, ?_⟩
  · rw [hproc]
    exact h.idle
  · show s.leftOpen (s.session.openLog env p flags fd) p fd q =
      ((s.session.openLog env p flags fd).process.pathCli q).map _
    rw [leftOpen, hview, hproc]
    by_cases hq : q = p
    · rw [hq, Function.update_self, hp]
      rfl
    · rw [Function.update_of_ne hq]
      exact h.left q
  · rw [hproc]
    exact alone_insert h.alone fun fd' hr => hfree _ (Assoc.mem_of_find hr) hr
  · rw [hproc]
    exact h.size

/-- The path has no client and gets a new one. -/
theorem Inv.created (h : Inv s) (hp : s.session.process.pathCli p = none)
    (hm : s.session.process.pool.made < 2 ^ 32) :
    (s.session.openLog env p flags fd).process =
        { fdCli := Assoc.insert s.session.process.fdCli fd s.session.process.pool.made
          pathCli := Function.update s.session.process.pathCli p (some s.session.process.pool.made)
          pool := s.session.process.pool.getClient.1
          clients := Function.update s.session.process.clients s.session.process.pool.made
            (Pool.newClient mrSize env.peers (needRecoverData flags)).1 } ∧
      (s.session.openLog env p flags fd).view fd =
        some (Pool.newClient mrSize env.peers (needRecoverData flags)).1.file := by
  have hid : ClientPool.idOf s.session.process.pool.made = s.session.process.pool.made := Nat.mod_eq_of_lt hm
  have hnew := (h.sound.distinct.pool.create hm h.idle).1
  have hproc : (s.session.openLog env p flags fd).process =
      { fdCli := Assoc.insert s.session.process.fdCli fd s.session.process.pool.made
        pathCli := Function.update s.session.process.pathCli p (some s.session.process.pool.made)
        pool := s.session.process.pool.getClient.1
        clients := Function.update s.session.process.clients s.session.process.pool.made
          (Pool.newClient mrSize env.peers (needRecoverData flags)).1 } := by
    show s.session.process.getClient env p flags fd = _
    rw [Process.getClient_created hf hp h.idle (by rw [hid]; exact hnew), Process.bindFd, if_pos hfd]
  refine ⟨hproc, ?_⟩
  have hres : (s.session.openLog env p flags fd).process.resolve fd = some s.session.process.pool.made := by
    rw [hproc]
    exact Assoc.find_insert_self (h.resolve_none hfresh)
  unfold Session.view
  rw [hres, hproc, Option.map_some]
  dsimp only
  rw [Function.update_self]

theorem Inv.create (h : Inv s) (hp : s.session.process.pathCli p = none)
    (hm : s.session.process.pool.made < 2 ^ 32) :
    Inv ⟨s.session.openLog env p flags fd, s.leftOpen (s.session.openLog env p flags fd) p fd⟩ := by
  obtain ⟨hproc, hview⟩ := h.created env hf hfd hfresh hp hm
  -- no path has the new client
  have hother : ∀ q o, s.session.process.pathCli q = some o → o ≠ s.session.process.pool.made := by
    intro q o hq he
    have hlt := h.sound.distinct.pool.busy_lt (h.sound.distinct.busy q o hq)
    omega
  refine ⟨h.sound.openLog env hfd hfresh fun _ _ _ => hm, ?_, fun q => ?_, ?_, fun o => ?_⟩
  · rw [hproc]
    show s.session.process.pool.getClient.1.idle = []
    unfold ClientPool.getClient
    rw [h.idle]
  · show s.leftOpen (s.session.openLog env p flags fd) p fd q =
      ((s.session.openLog env p flags fd).process.pathCli q).map _
    rw [leftOpen, hview, hproc]
    dsimp only
    by_cases hq : q = p
    · rw [hq, Function.update_self, Function.update_self, Option.map_some, Option.map_some, Function.update_self]
    · rw [Function.update_of_ne hq, Function.update_of_ne hq, h.left q]
      cases hqo : s.session.process.pathCli q with
      | none => rfl
      | some o => rw [Option.map_some, Option.map_some, Function.update_of_ne (hother q o hqo)]
  · rw [hproc]
    refine alone_insert h.alone fun fd' hr => ?_
    obtain ⟨q, -, hq⟩ := h.sound.agree fd' _ hr
    exact hother q _ hq rfl
  · rw [hproc]
    show (Function.update s.session.process.clients s.session.process.pool.made _ o).buffer.size = _
    by_cases ho : o = s.session.process.pool.made
    · rw [ho, Function.update_self]
      exact (newClient_spec mrSize env.peers _).2.1
    · rw [Function.update_of_ne ho]
      exact h.size o

/-- An open of a clean path. -/
theorem Inv.openPath (h : Inv s) (hclean : CleanPath s.session.process p flags) :
    Inv ⟨s.session.openLog env p flags fd, s.leftOpen (s.session.openLog env p flags fd) p fd⟩ := by
  unfold CleanPath at hclean
  cases hp : s.session.process.pathCli p with
  | none =>
    rw [hp] at hclean
    exact h.create env hf hfd hfresh hp hclean
  | some o =>
    rw [hp] at hclean
    exact h.reopen env hf hfd hfresh hp hclean.2.1

end

/-! ### Runs -/

/-- A successful open, as the session sees it. -/
theorem after_open {p : N} {flags : ℕ} (hc : e.call = .openPath p flags) (hv : 0 ≤ e.orig.value) :
    s.session.after e = s.session.openLog e.env p flags e.orig.value ∧
      s.leftAfter e = s.leftOpen (s.session.openLog e.env p flags e.orig.value) p e.orig.value ∧
      e.opens = some (p, e.orig.value) := by
  have hargs : e.call.openArgs = some (p, flags) := by rw [hc]; rfl
  have hopens : e.opens = some (p, e.orig.value) := by
    unfold Event.opens
    rw [hargs]
    exact if_pos hv
  obtain ⟨-, ht⟩ := (Session.after_of_open (s := s.session) hargs).resolve_right fun hlt => by omega
  refine ⟨ht, ?_, hopens⟩
  unfold leftAfter
  rw [hopens, ht]
  rfl

omit [DecidableEq N] [DecidableEq α] in
theorem inScope_open (hscope : InScope e = true) {p : N} {flags : ℕ} (hc : e.call.openArgs = some (p, flags)) :
    e.call = .openPath p flags ∧ isCompSideLog flags = true := by
  unfold InScope at hscope
  cases he : e.call with
  | openPath q fl =>
    rw [he] at hc hscope
    cases hc
    exact ⟨rfl, hscope⟩
  | openat _ _ _ | fopen _ _ =>
    rw [he] at hscope
    cases hscope
  | _ =>
    rw [he] at hc
    cases hc

theorem Inv.step (h : Inv s) (hclean : s.Clean e) {t : Opening N} (hs : s.step e = some t) : Inv t := by
  simp only [Opening.step, Option.ite_none_right_eq_some, Option.map_eq_some_iff] at hs
  obtain ⟨hscope, u, hu, rfl⟩ := hs
  obtain ⟨hfresh, rfl⟩ := Session.step_eq_some.mp hu
  rcases e.call.kinds with ⟨fd, hc⟩ | ⟨p, flags, hc⟩ | ⟨p, hc⟩ | ⟨p, hc⟩
  · exact h.descriptor hscope hc
  · have hcall := inScope_open hscope hc
    by_cases hv : 0 ≤ e.orig.value
    · obtain ⟨hafter, hleft, hopens⟩ := after_open (s := s) hcall.1 hv
      rw [hafter, hleft]
      refine h.openPath e.env hcall.2 hv ?_ (hclean (p, flags) (by rw [hc]; rfl) hv)
      exact hfresh (p, e.orig.value) (by rw [hopens]; rfl)
    · obtain ⟨-, ht⟩ := (Session.after_of_open (s := s.session) hc).resolve_left fun hlt => hv hlt.1
      have hleft : s.leftAfter e = s.left := by
        unfold leftAfter Event.opens
        rw [hc, hcall.1]
        simp only [if_neg hv]
        rfl
      rw [ht, hleft]
      exact h
  · unfold InScope at hscope
    rw [hc] at hscope
    cases hscope
  · unfold InScope at hscope
    rw [hc] at hscope
    cases hscope

theorem inv_of_reach (h : Trace.Reach (Trace.restrict (Clean (N := N) (α := α)) step) init s) : Inv s :=
  h.inv_restrict inv_init fun _ _ _ hs hclean he => hs.step hclean he

theorem client_after_lseek {t : Session N} {fd offset : ℤ} {whence : Whence} {orig : Ret} {env : Env α} {o : ℕ}
    (hr : t.process.resolve fd = some o) :
    (t.after ⟨.lseek fd offset whence, orig, env⟩).process.clients o = (t.process.clients o).seek offset whence := by
  show (t.process.delegate fd orig (Client.perform (.seek offset whence))).process.clients o = _
  unfold Process.delegate
  rw [hr]
  exact Function.update_self _ _ _

section

variable {p : N} {flags : ℕ} (hc : e.call = .openPath p flags) (hf : isCompSideLog flags = true)
  (hv : 0 ≤ e.orig.value) (hfresh : s.session.opened e.orig.value = none)
include hc hf hv hfresh

/-- An open of a clean path follows `open(2)`. -/
theorem Inv.follows (h : Inv s) (hclean : CleanPath s.session.process p flags) : s.Follows e p flags := by
  obtain ⟨hafter, -, -⟩ := after_open (s := s) hc hv
  have hinv := h.openPath e.env hf hv hfresh hclean
  have hindep := hinv.independent (α := α) e.orig.value
  have hempty : ∀ c : Client, c.fileSize = 0 → c.file.bytes = [] := by
    intro c hz
    show c.buffer.mem.slice 0 c.fileSize = []
    rw [hz]
    rfl
  unfold CleanPath at hclean
  cases hp : s.session.process.pathCli p with
  | none =>
    rw [hp] at hclean
    have hview := (h.created e.env hf hv hfresh hp hclean).2
    obtain ⟨hoff, -, hzero⟩ := newClient_spec mrSize e.env.peers (needRecoverData flags)
    have hleft : s.left p = none := by rw [h.left p, hp]; rfl
    rw [← hafter] at hview hindep
    refine ⟨?_, hindep, fun htrunc => ?_, fun _ bs hbs => ?_, fun _ _ hpeers => ?_⟩
    · rw [hview]
      exact congrArg some hoff
    · rw [hview]
      exact congrArg some (hempty _ (hzero (.inl htrunc)))
    · rw [hleft] at hbs
      cases hbs
    · rw [hview]
      exact congrArg some (hempty _ (hzero (.inr hpeers)))
  | some o =>
    rw [hp] at hclean
    obtain ⟨-, -, hview⟩ := h.reopened e.env hf hv hfresh hp
    have hleft : s.left p = some (s.session.process.clients o).file.bytes := by rw [h.left p, hp]; rfl
    rw [← hafter] at hview hindep
    refine ⟨?_, hindep, fun htrunc => ?_, fun _ bs hbs => ?_, fun _ hnone => ?_⟩
    · rw [hview]
      exact congrArg some hclean.1
    · rw [hview]
      exact congrArg some (hempty _ (hclean.2.2 htrunc))
    · rw [hview, Option.map_some, ← hleft]
      exact hbs
    · rw [hleft] at hnone
      cases hnone

/-- An open that follows is one of a clean path, while ids are left. -/
theorem Inv.clean_of_follows (h : Inv s) (hm : s.session.process.pool.made < 2 ^ 32) (hfol : s.Follows e p flags) :
    CleanPath s.session.process p flags := by
  unfold CleanPath
  cases hp : s.session.process.pathCli p with
  | none => exact hm
  | some o =>
    obtain ⟨hafter, -, -⟩ := after_open (s := s) hc hv
    obtain ⟨hproc, hres, hview⟩ := h.reopened e.env hf hv hfresh hp
    rw [← hafter] at hview
    have hoff : (s.session.process.clients o).bufOffset = 0 := by
      have hzero := hfol.offset
      rw [hview] at hzero
      exact Option.some.inj hzero
    refine ⟨hoff, fun x hx hr => ?_, fun htrunc => ?_⟩
    · have hne : x.1 ≠ e.orig.value := by
        intro he
        rw [he, h.resolve_none hfresh] at hr
        cases hr
      have hr' : (s.session.after e).process.resolve x.1 = some o := by
        rw [hafter, hproc]
        exact (Assoc.find_insert_ne hne).trans hr
      have hres' : (s.session.after e).process.resolve e.orig.value = some o := by rw [hafter, hres]
      have hmoved := (hfol.independent ⟨.lseek x.1 1 .seekSet, e.orig, e.env⟩ x.1 hne).1 rfl
      rw [hfol.offset, Session.view, resolve_after rfl hne.symm, hres', Option.map_some, Option.map_some,
        client_after_lseek hr'] at hmoved
      have hsize : (s.session.after e).process.clients o = s.session.process.clients o := by rw [hafter, hproc]
      rw [hsize] at hmoved
      have hone : min (toSize 1) (subSize (s.session.process.clients o).buffer.size 1) = 0 := Option.some.inj hmoved
      rw [h.size o] at hone
      exact absurd hone (by decide)
    · have hnil := hfol.truncated htrunc
      rw [hview] at hnil
      have hlen := congrArg List.length (Option.some.inj hnil)
      simpa [Client.file, Mem.slice_length] using hlen

end

/-- **Opening a log.** In every run whose opens are clean, the offsets of the
descriptors are independent of each other, and the next open follows
`open(2)` if it is clean; while ids are left, only if it is. -/
theorem open_follows (h : Trace.Reach (Trace.restrict (Clean (N := N) (α := α)) step) init s) :
    (∀ fd, s.session.Independent (α := α) fd) ∧
    ∀ (e : Event N α) (p : N) (flags : ℕ), e.call = .openPath p flags → isCompSideLog flags = true →
      0 ≤ e.orig.value → s.session.Fresh e →
      (CleanPath s.session.process p flags → s.Follows e p flags) ∧
      (s.session.process.pool.made < 2 ^ 32 → s.Follows e p flags → CleanPath s.session.process p flags) := by
  have hinv := inv_of_reach h
  refine ⟨fun fd => hinv.independent fd, fun e p flags hc hf hv hfresh => ?_⟩
  have hopened : s.session.opened e.orig.value = none :=
    hfresh (p, e.orig.value) (by rw [(after_open (s := s) hc hv).2.2]; rfl)
  exact ⟨hinv.follows hc hf hv hopened, hinv.clean_of_follows hc hf hv hopened⟩

/-- A log is written, read from the start and closed at offset 0; opened again it
shows what was written. -/
theorem open_follows_again : ∃ s : Opening String, Trace.Reach (Trace.restrict (Clean (α := ℕ)) step) init s ∧
    s.left "/a" = some [7, 8] ∧ s.Follows (Session.plain (.openPath "/a" oCsl) 5) "/a" oCsl := by
  obtain ⟨s, hs, hp⟩ : ∃ s : Opening String, Trace.Reach (Trace.restrict (Clean (α := ℕ)) step) init s ∧
      (s.left "/a" = some [7, 8] ∧ CleanPath s.session.process "/a" oCsl ∧
        s.session.Fresh (Session.plain (.openPath "/a" oCsl) 5)) :=
    Trace.exists_reach_of_exec
      [Session.plain (.openPath "/a" (oCsl + oTrunc)) 3, Session.plain (.openPath "/b" oCsl) 4,
        Session.plain (.write 3 [7, 8]) 0, Session.plain (.write 4 [1]) 0, Session.plain (.lseek 3 0 .seekSet) 0,
        Session.plain (.fxstat 3) 0, Session.plain (.close 3) 0] (by decide)
  exact ⟨s, hs, hp.1, ((open_follows hs).2 _ _ _ rfl (by decide) (by decide) hp.2.2).1 hp.2.1⟩

/-- Opened a second time, a log is at the offset of the first descriptor. -/
theorem open_shares_offset : ¬ ∀ s : Opening String, Trace.Reach (step (α := ℕ)) init s →
    ∀ (e : Event String ℕ) (p : String) (flags : ℕ), e.call = .openPath p flags → isCompSideLog flags = true →
      0 ≤ e.orig.value → s.session.Fresh e → s.Follows e p flags := by
  intro h
  obtain ⟨s, hs, hp⟩ : ∃ s : Opening String, Trace.Reach (step (α := ℕ)) init s ∧
      (s.session.Fresh (Session.plain (.openPath "/a" oCsl) 4) ∧
        ((s.session.after (Session.plain (.openPath "/a" oCsl) 4)).view 4).map PosixFile.offset = some 2) :=
    Trace.exists_reach_of_exec [Session.plain (.openPath "/a" oCsl) 3, Session.plain (.write 3 [7, 8]) 0] (by decide)
  have hzero : ((s.session.after (Session.plain (.openPath "/a" oCsl) 4)).view 4).map PosixFile.offset = some 0 :=
    (h s hs _ _ _ rfl (by decide) (by decide) hp.1).offset
  rw [hp.2] at hzero
  cases hzero

end Opening
end ComputeSideLog
