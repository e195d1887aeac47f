/-
# Programs that make calls

A program makes one call after another and goes on from what each returns; it
is a tree with a branch for every result. What the calls do is left to a
system, a function from a state and a call to the next state and the result,
so that one program can be run on several. A system may stand on a host, which
has a state of its own and says first what a call amounts to (`hosted`).

`wp` is the weakest precondition: every call is allowed when it is made, and
the end satisfies a condition. It has a rule for each way to build a program,
among them for a loop with a counter and an early exit (`wp_loop`). Two systems
on one host that agree on the allowed calls agree on every program that makes
only those (`simulate`).

Key definitions: `Program`, `Program.run`, `Program.loop`, `Program.wp`,
`Program.hosted`, `Program.pair`.
Key theorems: `Program.wp_bind`, `Program.wp_loop`, `Program.simulate`.
-/
import Mathlib.Data.Nat.Notation
import Mathlib.Logic.Basic

namespace ComputeSideLog

/-- A program that makes calls `C`, gets results `R` and ends with an `A`. -/
inductive Program (C R A : Type*) where
  | ret (a : A)
  | call (c : C) (next : R → Program C R A)

namespace Program

variable {C D R A B S T E : Type*}

/-- One program after another. -/
def bind : Program C R A → (A → Program C R B) → Program C R B
  | .ret a, k => k a
  | .call c next, k => .call c fun r => (next r).bind k

/-- At most `n` rounds of `body`, which ends the program with `some b`, and then `k`. -/
def loop (body : Program C R (Option B)) (k : Program C R B) : ℕ → Program C R B
  | 0 => k
  | n + 1 => body.bind fun
    | some b => .ret b
    | none => loop body k n

/-- The run on a system, from a state. -/
def run (f : S → C → S × R) : Program C R A → S → S × A
  | .ret a, s => (s, a)
  | .call c next, s => (next (f s c).2).run f (f s c).1

/-- Every call is allowed when it is made, and the end satisfies `Q`. -/
def wp (ok : S → C → Prop) (f : S → C → S × R) : Program C R A → (A → S → Prop) → S → Prop
  | .ret a, Q, s => Q a s
  | .call c next, Q, s => ok s c ∧ (next (f s c).2).wp ok f Q (f s c).1

/-- A system on a host. -/
def hosted (host : E → C → E × D) (f : S → D → S × R) (u : S × E) (c : C) : (S × E) × R :=
  (((f u.1 (host u.2 c).2).1, (host u.2 c).1), (f u.1 (host u.2 c).2).2)

/-- Two systems side by side; the results are those of the second. -/
def pair (f : S → D → S × R) (g : T → D → T × R) (u : S × T) (d : D) : (S × T) × R :=
  (((f u.1 d).1, (g u.2 d).1), (g u.2 d).2)

variable {ok : S → C → Prop} {f : S → C → S × R}

theorem wp_mono {Q Q' : A → S → Prop} (hQ : ∀ a s, Q a s → Q' a s) (p : Program C R A) {s : S}
    (h : p.wp ok f Q s) : p.wp ok f Q' s := by
  induction p generalizing s with
  | ret a => exact hQ a s h
  | call c next ih => exact ⟨h.1, ih _ h.2⟩

theorem wp_bind {Q : B → S → Prop} (p : Program C R A) (k : A → Program C R B) {s : S} :
    (p.bind k).wp ok f Q s ↔ p.wp ok f (fun a => (k a).wp ok f Q) s := by
  induction p generalizing s with
  | ret a => exact Iff.rfl
  | call c next ih => exact and_congr_right fun _ => ih _

/-- **The rule for loops**: a round that does not end the program takes the
invariant from `i` to `i + 1`. -/
theorem wp_loop {Q : B → S → Prop} {body : Program C R (Option B)} {k : Program C R B} (I : ℕ → S → Prop) {n : ℕ}
    (hbody : ∀ i, i < n → ∀ s, I i s → body.wp ok f (fun b s => b = none ∧ I (i + 1) s) s)
    (hk : ∀ s, I n s → k.wp ok f Q s) {s : S} (h : I 0 s) : (loop body k n).wp ok f Q s := by
  have hrest : ∀ m i, i + m = n → ∀ s, I i s → (loop body k m).wp ok f Q s := by
    intro m
    induction m with
    | zero =>
      intro i hi s hs
      exact hk s (hi ▸ hs)
    | succ m ih =>
      intro i hi s hs
      refine (wp_bind body _).mpr (wp_mono (fun b s hb => ?_) body (hbody i (by omega) s hs))
      obtain ⟨rfl, hinv⟩ := hb
      exact ih (i + 1) (by omega) s hinv
  exact hrest n 0 (Nat.zero_add n) s h

/-- **Simulation.** Systems on one host that return the same on allowed calls and
stay related return the same to a whole program, and the host ends in the same
state. -/
theorem simulate {host : E → C → E × D} {f : S → D → S × R} {g : T → D → T × R} {ok : (S × T) × E → C → Prop}
    {Rel : S → T → Prop} (hstep : ∀ s t e c, Rel s t → ok ((s, t), e) c →
      Rel (f s (host e c).2).1 (g t (host e c).2).1 ∧ (f s (host e c).2).2 = (g t (host e c).2).2)
    {Q : A → (S × T) × E → Prop} (p : Program C R A) {s : S} {t : T} {e : E} (h : Rel s t)
    (hp : p.wp ok (hosted host (pair f g)) Q ((s, t), e)) :
    ∃ s' t' e' a, p.run (hosted host f) (s, e) = ((s', e'), a) ∧ p.run (hosted host g) (t, e) = ((t', e'), a) ∧
      Rel s' t' ∧ Q a ((s', t'), e') := by
  induction p generalizing s t e with
  | ret a => exact ⟨s, t, e, a, rfl, rfl, h, hp⟩
  | call c next ih =>
    obtain ⟨hok, hrest⟩ := hp
    obtain ⟨hrel, hret⟩ := hstep s t e c h hok
    obtain ⟨s', t', e', a, hs, ht, hrel', hq⟩ := ih (g t (host e c).2).2 hrel hrest
    refine ⟨s', t', e', a, ?_, ht, hrel', hq⟩
    show (next (f s (host e c).2).2).run (hosted host f) ((f s (host e c).2).1, (host e c).1) = _
    rw [hret]
    exact hs

end Program

end ComputeSideLog
