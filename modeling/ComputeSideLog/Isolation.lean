/-
# Isolation of descriptors

Two descriptors opened on different paths, or on one path before and after an
`unlink`, should not share a client. They do where `unlink` recycles a client
that an open descriptor still refers to: the next log takes it from the pool
(`unlinked_shared`). The other way to share one is a client id that comes
round after `2 ^ 32` clients.

Where neither happens (`Careful`), an entry of `csl_fd_cli` always agrees with
the entry of `csl_path_cli` for the path its descriptor was opened on
(`Sound`). So files and clients correspond, and a call on one descriptor
changes nothing for the others.

Key definitions: `Session.Isolated`, `Session.Careful`, `Session.Sound`.
Key theorems: `Session.Sound.step`, `Session.descriptors_isolated`.
-/
import ComputeSideLog.Interpose

namespace ComputeSideLog

namespace Process

variable {N α : Type*}

/-- Paths have different clients, all of them busy. -/
structure Distinct (s : Process N) : Prop where
  pool : s.pool.Ok
  busy : ∀ p o, s.pathCli p = some o → s.pool.Busy o
  inj : ∀ p q o, s.pathCli p = some o → s.pathCli q = some o → p = q

theorem distinct_init : (init : Process N).Distinct where
  pool := ClientPool.ok_empty
  busy := fun _ _ h => by cases h
  inj := fun _ _ _ h => by cases h

variable {s t : Process N}

/-- The maps by path and by id decide it. -/
theorem Distinct.congr (h : s.Distinct) (hpath : t.pathCli = s.pathCli) (hpool : t.pool = s.pool) :
    t.Distinct where
  pool := hpool ▸ h.pool
  busy := by
    rw [hpath, hpool]
    exact h.busy
  inj := by
    rw [hpath]
    exact h.inj

variable [DecidableEq N] [DecidableEq α]

omit [DecidableEq α] in
/-- A path without a client gets one from the pool. -/
theorem Distinct.take (h : s.Distinct) {p : N} (hp : s.pathCli p = none)
    (hw : s.pool.idle = [] → s.pool.made < 2 ^ 32) (hpool : t.pool = s.pool.getClient.1)
    (hpath : t.pathCli = Function.update s.pathCli p (some s.pool.getClient.2.1)) : t.Distinct := by
  obtain ⟨hok, hidle, hbusy, hkeep, -⟩ := h.pool.getClient hw
  have hcases : ∀ q o, t.pathCli q = some o →
      (q = p ∧ o = s.pool.getClient.2.1) ∨ (q ≠ p ∧ s.pathCli q = some o) := by
    intro q o hq
    rw [hpath] at hq
    rcases Assoc.update_cases hq with ⟨hqp, ho⟩ | hold
    · exact .inl ⟨hqp, (Option.some.inj ho).symm⟩
    · exact .inr hold
  refine ⟨hpool ▸ hok, fun q o hq => ?_, fun q q' o hq hq' => ?_⟩
  · rw [hpool]
    rcases hcases q o hq with ⟨-, rfl⟩ | ⟨-, hq⟩
    · exact hbusy
    · exact hkeep o (h.busy q o hq)
  · -- the client from the pool was not busy, so no other path had it
    rcases hcases q o hq with ⟨rfl, rfl⟩ | ⟨-, hq⟩
    · rcases hcases q' _ hq' with ⟨rfl, -⟩ | ⟨-, hq'⟩
      · rfl
      · exact absurd (h.busy _ _ hq') hidle
    · rcases hcases q' o hq' with ⟨rfl, rfl⟩ | ⟨-, hq'⟩
      · exact absurd (h.busy _ _ hq) hidle
      · exact h.inj _ _ _ hq hq'

/-- What `getClient` does for a log. -/
theorem Distinct.getClient (h : s.Distinct) (env : Env α) {p : N} {flags : ℕ} (hf : isCompSideLog flags = true)
    (fd : ℤ) (hw : s.pathCli p = none → s.pool.idle = [] → s.pool.made < 2 ^ 32) :
    (s.getClient env p flags fd).Distinct ∧
      (∀ q o, s.pathCli q = some o → (s.getClient env p flags fd).pathCli q = some o) ∧
      ∃ o, (s.getClient env p flags fd).pathCli p = some o ∧
        (s.getClient env p flags fd).fdCli = if 0 ≤ fd then Assoc.insert s.fdCli fd o else s.fdCli := by
  obtain ⟨o, t, ht, hp, hfd, hcases⟩ := getClient_cases s env p hf fd
  have hbind : (bindFd t fd o).fdCli = if 0 ≤ fd then Assoc.insert s.fdCli fd o else s.fdCli := by
    unfold bindFd
    rw [← hfd]
    split <;> rfl
  have hpaths : (bindFd t fd o).pathCli = t.pathCli ∧ (bindFd t fd o).pool = t.pool := by
    rw [bindFd_eq]
    exact ⟨rfl, rfl⟩
  rw [ht, hbind, hpaths.1]
  refine ⟨?_, ?_, o, hp, rfl⟩
  · rcases hcases with ⟨-, rfl⟩ | ⟨hnone, rfl, hpool, hpath⟩
    · exact h.congr hpaths.1 hpaths.2
    · exact (h.take hnone (hw hnone) hpool hpath).congr hpaths.1 hpaths.2
  · rcases hcases with ⟨-, rfl⟩ | ⟨hnone, -, -, hpath⟩
    · exact fun q o hq => hq
    · intro q o' hq
      rw [hpath, Function.update_of_ne fun he => by rw [he, hnone] at hq; cases hq]
      exact hq

/-- `unlink` frees the path's client and keeps the others. -/
theorem Distinct.unlink (h : s.Distinct) (p : N) (orig : Ret) :
    (s.unlink p orig).process.Distinct ∧ (s.unlink p orig).process.fdCli = s.fdCli ∧
      ∀ q, q ≠ p → (s.unlink p orig).process.pathCli q = s.pathCli q := by
  unfold Process.unlink
  cases hp : s.pathCli p with
  | none => exact ⟨h, rfl, fun q _ => rfl⟩
  | some o =>
    obtain ⟨hok, -, hkeep⟩ := h.pool.recycleClient (h.busy p o hp)
    have hcases : ∀ q o', Function.update s.pathCli p none q = some o' → q ≠ p ∧ s.pathCli q = some o' := by
      intro q o' hq
      rcases Assoc.update_cases hq with ⟨-, hno⟩ | hold
      · cases hno
      · exact hold
    refine ⟨⟨hok, fun q o' hq => ?_, fun q q' o' hq hq' => ?_⟩, rfl, fun q hq => Function.update_of_ne hq _ _⟩
    · obtain ⟨hne, hq⟩ := hcases q o' hq
      refine hkeep o' (fun he => hne ?_) (h.busy q o' hq)
      exact h.inj q p o (he ▸ hq) hp
    · exact h.inj q q' o' (hcases q o' hq).2 (hcases q' o' hq').2

end Process

namespace Session

variable {N α : Type*}

/-- Descriptors of different files never resolve to one client. -/
def Isolated (s : Session N) : Prop := ∀ fd fd' f f', s.opened fd = some f → s.opened fd' = some f' → f ≠ f' →
  ∀ o o', s.process.resolve fd = some o → s.process.resolve fd' = some o' → o ≠ o'

variable [DecidableEq N] [DecidableEq α]

/-- A path is unlinked only when no descriptor refers to its client, and a client
is constructed only while the ids have not come round. -/
def Careful (s : Session N) (e : Event N α) : Prop :=
  (∀ p ∈ e.call.unlinks, ∀ x ∈ s.process.fdCli, s.process.pathCli p ≠ some x.2) ∧
    ∀ p ∈ e.asks, s.process.pathCli p = none → s.process.pool.idle = [] → s.process.pool.made < 2 ^ 32

instance (s : Session N) (e : Event N α) : Decidable (Careful s e) := inferInstanceAs (Decidable (_ ∧ _))

/-- The two maps agree: a descriptor's client is the client of the path it was
opened on, which was not unlinked since. -/
structure Sound (s : Session N) : Prop where
  distinct : s.process.Distinct
  agree : ∀ fd o, s.process.resolve fd = some o →
    ∃ p, s.opened fd = some ⟨p, s.gens p⟩ ∧ s.process.pathCli p = some o

omit [DecidableEq N] in
theorem sound_init : (init : Session N).Sound := ⟨Process.distinct_init, fun _ _ h => by cases h⟩

variable {s : Session N} {e : Event N α}

omit [DecidableEq N] in
theorem Sound.isolated (h : s.Sound) : s.Isolated := by
  intro fd fd' f f' hf hf' hne o o' ho ho' he
  obtain ⟨p, hp, hpo⟩ := h.agree fd o ho
  obtain ⟨q, hq, hqo⟩ := h.agree fd' o' ho'
  rw [he] at hpo
  rw [hf, Option.some.injEq] at hp
  rw [hf', Option.some.injEq] at hq
  rw [hp, hq, h.distinct.inj p q o' hpo hqo] at hne
  exact hne rfl

/-! ### One call -/

theorem Sound.descriptor (h : s.Sound) {fd : ℤ} (hc : e.call.fd? = some fd) : (s.after e).Sound := by
  obtain ⟨hgens, -, hpath, hpool, hfd⟩ := after_of_fd (s := s) hc
  refine ⟨h.distinct.congr hpath hpool, fun fd' o ho => ?_⟩
  rw [hgens, hpath]
  unfold Process.resolve at ho
  rcases hfd with ⟨hopen, hfd⟩ | ⟨hopen, hfd⟩
  · rw [hfd] at ho
    rw [hopen]
    exact h.agree fd' o ho
  · rw [hfd] at ho
    obtain ⟨hne, ho⟩ := Assoc.find_erase_eq_some ho
    rw [hopen, Function.update_of_ne hne]
    exact h.agree fd' o ho

theorem Sound.openLog (h : s.Sound) (env : Env α) {p : N} {flags : ℕ} {fd : ℤ} (hfd : 0 ≤ fd)
    (hfresh : s.opened fd = none) (hw : isCompSideLog flags = true → s.process.pathCli p = none →
      s.process.pool.idle = [] → s.process.pool.made < 2 ^ 32) : (s.openLog env p flags fd).Sound := by
  have hne : ∀ fd' f, s.opened fd' = some f → fd' ≠ fd := by
    rintro fd' f hf rfl
    rw [hfresh] at hf
    cases hf
  unfold Session.openLog
  cases hf : isCompSideLog flags with
  | false =>
    rw [Process.getClient_of_not hf]
    refine ⟨h.distinct, fun fd' o ho => ?_⟩
    obtain ⟨q, hq, hqo⟩ := h.agree fd' o ho
    exact ⟨q, (Function.update_of_ne (hne fd' _ hq) _ _).trans hq, hqo⟩
  | true =>
    obtain ⟨hdis, hkeep, o, hp, hmap⟩ := h.distinct.getClient env hf fd (hw hf)
    refine ⟨hdis, fun fd' o' ho => ?_⟩
    unfold Process.resolve at ho
    rw [hmap, if_pos hfd] at ho
    rcases Assoc.find_insert_cases ho with ho | ⟨rfl, rfl⟩
    · obtain ⟨q, hq, hqo⟩ := h.agree fd' o' ho
      exact ⟨q, (Function.update_of_ne (hne fd' _ hq) _ _).trans hq, hkeep q o' hqo⟩
    · exact ⟨p, Function.update_self _ _ _, hp⟩

theorem Sound.unlink (h : s.Sound) {p : N} (hc : e.call = .unlink p)
    (hfree : ∀ x ∈ s.process.fdCli, s.process.pathCli p ≠ some x.2) : (s.after e).Sound := by
  obtain ⟨hdis, hmap, hkeep⟩ := h.distinct.unlink p e.orig
  rw [after_of_unlink hc]
  refine ⟨hdis, fun fd o ho => ?_⟩
  unfold Process.resolve at ho
  rw [hmap] at ho
  obtain ⟨q, hq, hqo⟩ := h.agree fd o ho
  have hne : q ≠ p := by
    rintro rfl
    exact hfree _ (Assoc.mem_of_find ho) hqo
  refine ⟨q, ?_, (hkeep q hne).trans hqo⟩
  rw [hq]
  show _ = some (⟨q, Function.update s.gens p _ q⟩ : File N)
  rw [Function.update_of_ne hne]

theorem Sound.xstat (h : s.Sound) {p : N} (hc : e.call = .xstat p) (hw : e.asks = some p →
      s.process.pathCli p = none → s.process.pool.idle = [] → s.process.pool.made < 2 ^ 32) :
    (s.after e).Sound := by
  rcases after_of_xstat (s := s) hc with ⟨hasks, -, ht⟩ | ⟨b, -, ht⟩
  · rw [ht]
    obtain ⟨hdis, hkeep, o, hp, hmap⟩ := h.distinct.getClient e.env
      (show isCompSideLog oCsl = true by decide) (-1) (hw hasks)
    refine ⟨hdis, fun fd o' ho => ?_⟩
    unfold Process.resolve probe at ho
    rw [hmap, if_neg (by omega)] at ho
    obtain ⟨q, hq, hqo⟩ := h.agree fd o' ho
    exact ⟨q, hq, hkeep q o' hqo⟩
  · rw [ht]
    exact ⟨h.distinct, h.agree⟩

/-- A careful call keeps the maps in agreement. -/
theorem Sound.step (h : s.Sound) (hok : Careful s e) {t : Session N} (hs : s.step e = some t) : t.Sound := by
  obtain ⟨hfresh, rfl⟩ := step_eq_some.mp hs
  rcases e.call.kinds with ⟨fd, hc⟩ | ⟨p, flags, hc⟩ | ⟨p, hc⟩ | ⟨p, hc⟩
  · exact h.descriptor hc
  · rcases after_of_open (s := s) hc with ⟨hv, ht⟩ | ⟨hv, ht⟩
    · rw [ht]
      refine h.openLog e.env hv (hfresh (p, e.orig.value) ?_) fun hf => hok.2 p ?_
      · unfold Event.opens
        rw [hc]
        simp [hv]
      · unfold Event.asks
        cases he : e.call with
        | xstat q =>
          rw [he] at hc
          cases hc
        | _ =>
          rw [he] at hc
          simp [hc, hv, hf]
    · rw [ht]
      exact h
  · exact h.unlink hc (hok.1 p (by rw [hc]; rfl))
  · exact h.xstat hc fun ha => hok.2 p (by rw [ha]; rfl)

/-! ### Whole runs -/

theorem sound_of_reach (h : Trace.Reach (Trace.restrict (Careful (N := N) (α := α)) step) init s) : s.Sound :=
  h.inv_restrict sound_init fun _ _ _ hs hok he => hs.step hok he

/-- **Isolation of descriptors.** In every run in which a path is unlinked only
when no descriptor refers to its client, and the ids of clients do not come
round, descriptors of different files never resolve to one client, and a call
on one of them does not change what a call on the other returns. -/
theorem descriptors_isolated (h : Trace.Reach (Trace.restrict (Careful (N := N) (α := α)) step) init s) :
    s.Isolated ∧ ∀ fd fd' f f', s.opened fd = some f → s.opened fd' = some f' → f ≠ f' →
      ∀ e e' : Event N α, e.call.fd? = some fd → e'.call.fd? = some fd' →
        ((s.after e).outcome e').ret = (s.outcome e').ret := by
  have hiso := (sound_of_reach h).isolated
  refine ⟨hiso, fun fd fd' f f' hf hf' hne e e' he he' => ?_⟩
  have hfd : fd' ≠ fd := by
    rintro rfl
    rw [hf, Option.some.injEq] at hf'
    exact hne hf'
  obtain ⟨-, -, hmap, hframe⟩ := Process.wrap_of_fd s.process e.env e.orig he
  have hres : (s.after e).process.resolve fd' = s.process.resolve fd' := by
    show Assoc.find (s.process.wrap e.env e.orig e.call).process.fdCli fd' = Assoc.find s.process.fdCli fd'
    rw [hmap]
    split
    · rfl
    · exact Assoc.find_erase_ne hfd _
  refine Process.wrap_ret_congr he' hres fun o ho => hframe o fun ho' => ?_
  rw [hres] at ho
  exact hiso fd fd' f f' hf hf' hne o o ho' ho rfl

/-- A call whose original returns the value, while no peer holds anything. -/
def plain (c : Posix String) (value : ℤ) : Event String ℕ := ⟨c, ⟨value, [], 0⟩, ⟨[], mrSize.region Mem.zero⟩⟩

/-- Two logs open at once, and a third one that takes over the client of the
first after it was closed and unlinked. -/
def reopened : List (Event String ℕ) :=
  [plain (.openPath "/a" oCsl) 3, plain (.openPath "/b" oCsl) 4, plain (.write 3 [1, 2]) 0, plain (.close 3) 0,
    plain (.unlink "/a") 0, plain (.openPath "/c" oCsl) 3]

theorem descriptors_isolated_reopened :
    ∃ s, Trace.Reach (Trace.restrict (Careful (N := String) (α := ℕ)) step) init s ∧
      (s.opened 3 = some ⟨"/c", 0⟩ ∧ s.opened 4 = some ⟨"/b", 0⟩ ∧ s.process.resolve 3 = some 0 ∧
        s.process.resolve 4 = some 1) ∧
      s.Isolated ∧ ((s.after (plain (.write 3 [9]) 0)).outcome (plain (.pread 4 1 0) 0)).ret =
        (s.outcome (plain (.pread 4 1 0) 0)).ret := by
  obtain ⟨s, hs, hp⟩ : ∃ s, Trace.Reach (Trace.restrict (Careful (N := String) (α := ℕ)) step) init s ∧
      (s.opened 3 = some ⟨"/c", 0⟩ ∧ s.opened 4 = some ⟨"/b", 0⟩ ∧ s.process.resolve 3 = some 0 ∧
        s.process.resolve 4 = some 1) := Trace.exists_reach_of_exec reopened (by decide)
  obtain ⟨hiso, hret⟩ := descriptors_isolated hs
  exact ⟨s, hs, hp, hiso, hret 3 4 _ _ hp.1 hp.2.1 (by decide) _ _ rfl rfl⟩

/-- A path is unlinked while a descriptor is open on it, and another log is
opened: both descriptors have the same client. -/
theorem unlinked_shared : ¬ ∀ s : Session String, Trace.Reach (step (α := ℕ)) init s → s.Isolated := by
  intro h
  obtain ⟨s, hs, hf, hf', ho, ho'⟩ : ∃ s, Trace.Reach (step (α := ℕ)) init s ∧
      (s.opened 3 = some ⟨"/a", 0⟩ ∧ s.opened 4 = some ⟨"/b", 0⟩ ∧ s.process.resolve 3 = some 0 ∧
        s.process.resolve 4 = some 0) :=
    Trace.exists_reach_of_exec
      [plain (.openPath "/a" oCsl) 3, plain (.unlink "/a") 0, plain (.openPath "/b" oCsl) 4] (by decide)
  exact h s hs 3 4 _ _ hf hf' (by decide) 0 0 ho ho' rfl

end Session
end ComputeSideLog
