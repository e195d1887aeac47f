/-
# Transparency for ordinary files

A path that is never opened as a log should not notice the wrappers: every
call on it, or on a descriptor or stream opened on it, returns what the
original function returns. The wrappers have one deliberate exception. A file
that `__xstat64` finds empty is taken for a log whose data is with the peers,
and from then on its client's size is reported (`empty_reported`). All else
is passed on, whatever calls came before: entries of `csl_fd_cli` belong to
open descriptors, and none of them was opened on the path (`Plain`).

Key definitions: `Session.Ordinary`, `Session.Concerns`, `Session.Plain`.
Key theorems: `Session.Plain.step`, `Session.ordinary_transparent`.
-/
import ComputeSideLog.Interpose

namespace ComputeSideLog
namespace Session

variable {N α : Type*}

/-- The call concerns the path: it names the path or works on a descriptor opened
on it. -/
def Concerns (s : Session N) (c : Posix N) (p : N) : Prop :=
  c.path? = some p ∨ ∃ fd f, c.fd? = some fd ∧ s.opened fd = some f ∧ f.path = p

/-- What holds for a path that is no log: it has a client only if it was found
empty, its descriptors have none, and no closed descriptor has one. -/
structure Plain (p : N) (s : Session N) : Prop where
  path : (s.process.pathCli p).isSome → s.probed p = true
  opened : ∀ fd f, s.opened fd = some f → f.path = p → s.process.resolve fd = none
  closed : ∀ fd, s.opened fd = none → s.process.resolve fd = none

theorem plain_init (p : N) : Plain p init where
  path := fun h => by cases h
  opened := fun _ _ h => by cases h
  closed := fun _ _ => rfl

variable [DecidableEq N] [DecidableEq α]

/-- The call does not open the path as a log. -/
def Ordinary (p : N) (_ : Session N) (e : Event N α) : Prop :=
  ∀ x ∈ e.call.openArgs, 0 ≤ e.orig.value → x.1 = p → isCompSideLog x.2 = false

instance (p : N) (s : Session N) (e : Event N α) : Decidable (Ordinary p s e) :=
  inferInstanceAs (Decidable (∀ x ∈ e.call.openArgs, _))

variable {p : N} {s : Session N} {e : Event N α}

/-! ### One call -/

theorem Plain.descriptor (h : Plain p s) {fd : ℤ} (hc : e.call.fd? = some fd) : Plain p (s.after e) := by
  obtain ⟨-, hprobed, hpath, -, hfd⟩ := after_of_fd (s := s) hc
  refine ⟨by rw [hpath, hprobed]; exact h.path, ?_, ?_⟩
  all_goals unfold Process.resolve
  all_goals
    rcases hfd with ⟨hopen, hmap⟩ | ⟨hopen, hmap⟩
    all_goals rw [hopen, hmap]
  · exact h.opened
  · intro fd' f hf hp
    have hne : fd' ≠ fd := by
      rintro rfl
      rw [Function.update_self] at hf
      cases hf
    rw [Function.update_of_ne hne] at hf
    rw [Assoc.find_erase_ne hne]
    exact h.opened fd' f hf hp
  · exact h.closed
  · intro fd' hf
    by_cases hfd : fd' = fd
    · rw [hfd]
      exact Assoc.find_erase_self _
    · rw [Function.update_of_ne hfd] at hf
      rw [Assoc.find_erase_ne hfd]
      exact h.closed fd' hf

theorem Plain.openLog (h : Plain p s) (env : Env α) {q : N} {flags : ℕ} {fd : ℤ}
    (hfresh : s.opened fd = none) (hok : q = p → isCompSideLog flags = false) :
    Plain p (s.openLog env q flags fd) := by
  obtain ⟨hpaths, hfds⟩ := Process.getClient_frame s.process env q flags fd
  refine ⟨fun hp => ?_, fun fd' f hf hp => ?_, fun fd' hf => ?_⟩
  · refine h.path ?_
    by_cases hq : q = p
    · unfold Session.openLog at hp
      rwa [Process.getClient_of_not (hok hq)] at hp
    · rw [← hpaths p fun he => hq he.symm]
      exact hp
  · by_cases hfd : fd' = fd
    · -- the new descriptor: its number had no entry, and gets none for this path
      have hq : q = p := by
        rw [hfd] at hf
        have hf' : (⟨q, s.gens q⟩ : File N) = f := by simpa [Session.openLog] using hf
        rw [← hp, ← hf']
      show (s.process.getClient env q flags fd).resolve fd' = none
      rw [Process.getClient_of_not (hok hq), hfd]
      exact h.closed fd hfresh
    · refine (hfds fd' (.inl hfd)).trans (h.opened fd' f ?_ hp)
      rw [← hf]
      exact (Function.update_of_ne hfd _ _).symm
  · have hfd : fd' ≠ fd := by
      rintro rfl
      simp [Session.openLog] at hf
    refine (hfds fd' (.inl hfd)).trans (h.closed fd' ?_)
    rw [← hf]
    exact (Function.update_of_ne hfd _ _).symm

/-- `unlink` only touches the entry of its path. -/
theorem unlink_frame (s : Process N) (q : N) (orig : Ret) : (s.unlink q orig).process.fdCli = s.fdCli ∧
    (s.unlink q orig).process.pathCli = Function.update s.pathCli q none := by
  unfold Process.unlink
  cases hq : s.pathCli q with
  | none =>
    have hself := Function.update_eq_self q s.pathCli
    rw [hq] at hself
    exact ⟨rfl, hself.symm⟩
  | some o => exact ⟨rfl, rfl⟩

theorem unlink_ret (s : Process N) (q : N) (orig : Ret) :
    (s.unlink q orig).ret = orig ∧ (s.unlink q orig).original = true := by
  unfold Process.unlink
  cases s.pathCli q <;> exact ⟨rfl, rfl⟩

theorem Plain.unlink (h : Plain p s) {q : N} (hc : e.call = .unlink q) : Plain p (s.after e) := by
  obtain ⟨hmap, hpath⟩ := unlink_frame s.process q e.orig
  rw [after_of_unlink hc]
  refine ⟨?_, ?_, ?_⟩
  · show ((s.process.unlink q e.orig).process.pathCli p).isSome → Function.update s.probed q false p = true
    rw [hpath]
    by_cases hp : p = q
    · rw [hp, Function.update_self]
      exact fun hs => by cases hs
    · rw [Function.update_of_ne hp, Function.update_of_ne hp]
      exact h.path
  · unfold Process.resolve
    rw [hmap]
    exact h.opened
  · unfold Process.resolve
    rw [hmap]
    exact h.closed

theorem Plain.xstat (h : Plain p s) {q : N} (hc : e.call = .xstat q) : Plain p (s.after e) := by
  rcases after_of_xstat (s := s) hc with ⟨-, -, ht⟩ | ⟨b, hb, ht⟩
  · obtain ⟨hpaths, hfds⟩ := Process.getClient_frame s.process e.env q oCsl (-1)
    have hres : ∀ fd, s.process.resolve fd = none →
        (s.process.getClient e.env q oCsl (-1)).resolve fd = none := by
      intro fd hfd
      rw [hfds fd (by omega), hfd]
    rw [ht]
    refine ⟨?_, fun fd f hf hp => hres fd (h.opened fd f hf hp), fun fd hf => hres fd (h.closed fd hf)⟩
    unfold probe
    dsimp only
    by_cases hp : p = q
    · rw [hp, Function.update_self]
      exact fun _ => rfl
    · rw [Function.update_of_ne hp, hpaths p hp]
      exact h.path
  · rw [ht]
    refine ⟨?_, h.opened, h.closed⟩
    dsimp only
    by_cases hp : p = q
    · subst hp
      rw [Function.update_self]
      exact fun hs => hb (h.path hs)
    · rw [Function.update_of_ne hp]
      exact h.path

/-- A call that does not open the path as a log. -/
theorem Plain.step (h : Plain p s) (hok : Ordinary p s e) {t : Session N} (hs : s.step e = some t) :
    Plain p t := by
  obtain ⟨hfresh, rfl⟩ := step_eq_some.mp hs
  rcases e.call.kinds with ⟨fd, hc⟩ | ⟨q, flags, hc⟩ | ⟨q, hc⟩ | ⟨q, hc⟩
  · exact h.descriptor hc
  · rcases after_of_open (s := s) hc with ⟨hv, ht⟩ | ⟨hv, ht⟩
    · rw [ht]
      exact h.openLog e.env (hfresh (q, e.orig.value) (by simp [Event.opens, hc, hv])) (hok (q, flags) hc hv)
    · rw [ht]
      exact h
  · exact h.unlink hc
  · exact h.xstat hc

/-! ### Whole runs -/

theorem plain_of_reach (h : Trace.Reach (Trace.restrict (Ordinary (α := α) p) step) init s) : Plain p s :=
  h.inv_restrict (plain_init p) fun _ _ _ hs hok he => hs.step hok he

/-- `__xstat64` of a path without a client reports the original's size unless it
is 0. -/
theorem xstat_ret (s : Process N) (env : Env α) (p : N) (orig : Ret) :
    (s.xstat env p orig).original = true ∧
      (s.xstat env p orig).ret = { orig with stSize := (s.xstat env p orig).ret.stSize } ∧
      ((0 ≤ orig.value → s.pathCli p = none ∧ orig.stSize ≠ 0) → (s.xstat env p orig).ret = orig) := by
  unfold Process.xstat
  by_cases hv : orig.value < 0
  · rw [if_pos hv]
    exact ⟨rfl, rfl, fun _ => rfl⟩
  · rw [if_neg hv]
    cases hp : s.pathCli p with
    | some o => exact ⟨rfl, rfl, fun hno => by simp at hno; omega⟩
    | none =>
      by_cases hz : orig.stSize = 0
      · rw [if_pos hz]
        exact ⟨rfl, rfl, fun hno => absurd hz (hno (by omega)).2⟩
      · rw [if_neg hz]
        exact ⟨rfl, rfl, fun _ => rfl⟩

/-- Every call on the path but `__xstat64` is passed on. -/
theorem Plain.passed (h : Plain p s) (hc : s.Concerns e.call p) (hstat : ∀ q, e.call ≠ .xstat q)
    (hfit : ∀ fd, e.call = .ftello fd → toInt e.orig.value = e.orig.value) :
    (s.outcome e).ret = e.orig ∧ (s.outcome e).original = true := by
  unfold outcome
  rcases e.call.kinds with ⟨fd, hk⟩ | ⟨q, flags, hk⟩ | ⟨q, hk⟩ | ⟨q, hk⟩
  · have hnone : s.process.resolve fd = none := by
      rcases hc with hc | ⟨fd', f, hc, hf, hp⟩
      · rw [Posix.path_of_fd hk] at hc
        cases hc
      · rw [hk, Option.some.injEq] at hc
        rw [hc]
        exact h.opened fd' f hf hp
    exact Process.wrap_of_resolve_none hk hnone hfit
  · rw [Process.wrap_of_openArgs hk]
    exact ⟨rfl, rfl⟩
  · rw [hk]
    exact unlink_ret s.process q e.orig
  · exact absurd hk (hstat q)

/-- **Transparency for ordinary files.** After any calls that do not open the
path as a log, a call on the path, or on a descriptor or stream opened on it,
is passed on and returns what the original returns, but for the size that
`__xstat64` reports once it found the file empty. -/
theorem ordinary_transparent (h : Trace.Reach (Trace.restrict (Ordinary (α := α) p) step) init s)
    (hc : s.Concerns e.call p) (hfit : ∀ fd, e.call = .ftello fd → toInt e.orig.value = e.orig.value) :
    (s.outcome e).original = true ∧
      (s.outcome e).ret = { e.orig with stSize := (s.outcome e).ret.stSize } ∧
      ((e.call = .xstat p → 0 ≤ e.orig.value → s.probed p = false ∧ e.orig.stSize ≠ 0) →
        (s.outcome e).ret = e.orig) := by
  have hplain := plain_of_reach h
  by_cases hstat : ∃ q, e.call = .xstat q
  · obtain ⟨q, hk⟩ := hstat
    have hq : q = p := by
      rcases hc with hc | ⟨fd, f, hc, -⟩
      · rw [hk] at hc
        exact Option.some.inj hc
      · rw [hk] at hc
        cases hc
    subst hq
    have hout : s.outcome e = s.process.xstat e.env q e.orig := by
      unfold outcome
      rw [hk]
      rfl
    obtain ⟨horig, hrest, hret⟩ := xstat_ret s.process e.env q e.orig
    rw [hout]
    refine ⟨horig, hrest, fun hno => hret fun hv => ?_⟩
    obtain ⟨hprobed, hsize⟩ := hno hk hv
    refine ⟨?_, hsize⟩
    by_contra hsome
    rw [hplain.path (Option.isSome_iff_ne_none.mpr hsome)] at hprobed
    cases hprobed
  · obtain ⟨hret, horig⟩ := hplain.passed hc (fun q hk => hstat ⟨q, hk⟩) hfit
    rw [hret]
    exact ⟨horig, rfl, fun _ => rfl⟩

/-- A call whose original returns the value and the size, while no peer holds
anything. -/
def sized (c : Posix String) (value stSize : ℤ) : Event String ℕ :=
  ⟨c, ⟨value, [], stSize⟩, ⟨[], mrSize.region Mem.zero⟩⟩

/-- A log and an ordinary file; the ordinary one takes over the descriptor of the
log, and an empty file is looked at. -/
def mixed : List (Event String ℕ) :=
  [sized (.openPath "/log" oCsl) 3 0, sized (.write 3 [1]) 1 0, sized (.close 3) 0 0,
    sized (.fopen "/f" ['r']) 3 0, sized (.xstat "/empty") 0 0]

theorem ordinary_transparent_mixed :
    ∃ s, Trace.Reach (Trace.restrict (Ordinary (α := ℕ) "/f") step) init s ∧
      (s.outcome (sized (.xstat "/f") 0 7)).ret = ⟨0, [], 7⟩ ∧
      (s.outcome (sized (.ftello 3) 12 0)).ret = ⟨12, [], 0⟩ := by
  obtain ⟨s, hs, hf, hp⟩ : ∃ s, Trace.Reach (Trace.restrict (Ordinary (α := ℕ) "/f") step) init s ∧
      (s.opened 3 = some ⟨"/f", 0⟩ ∧ s.probed "/f" = false) := Trace.exists_reach_of_exec mixed (by decide)
  have hstat := ordinary_transparent (e := sized (.xstat "/f") 0 7) hs (.inl rfl) (fun _ h => by cases h)
  have htell := ordinary_transparent (e := sized (.ftello 3) 12 0) hs (.inr ⟨3, _, rfl, hf, rfl⟩)
    (fun _ _ => by decide)
  exact ⟨s, hs, hstat.2.2 fun _ _ => ⟨hp, by decide⟩, htell.2.2 fun h => by cases h⟩

/-- An ordinary file is looked at while it is empty; once it has grown to 5
bytes, `__xstat64` still reports 0. -/
theorem empty_reported : ¬ ∀ (p : String) (s : Session String) (e : Event String ℕ),
    Trace.Reach (Trace.restrict (Ordinary (α := ℕ) p) step) init s → Ordinary p s e → s.Concerns e.call p →
      (s.outcome e).ret = e.orig := by
  intro h
  obtain ⟨s, hs, hp⟩ : ∃ s, Trace.Reach (Trace.restrict (Ordinary (α := ℕ) "/f") step) init s ∧
      (s.outcome (sized (.xstat "/f") 0 5)).ret.stSize = 0 :=
    Trace.exists_reach_of_exec [sized (.xstat "/f") 0 0] (by decide)
  rw [h "/f" s (sized (.xstat "/f") 0 5) hs (fun _ hx => by cases hx) (.inl rfl)] at hp
  revert hp
  decide

end Session
end ComputeSideLog
