/-
# Runs of the pool of memory regions

A pool starts with the regions that its constructor creates, all of one
size, and is then asked for regions of any sizes and given some back, in any
order. A request that finds free regions, but none that is large enough,
dereferences the end of the set instead of creating a region as
`src/rdma/mr_pool.h` says; exactly those requests are not met
(`request_delivered`).

If only held regions are given back, and nobody writes to a region that he
does not hold, the regions created are at every point the held and the free
ones, each once, and a request gets one of the smallest that will do, zeroed
and held by nobody (`regions_split`).

Key definitions: `MrPool.preallocate`, `PoolRun.step`, `MrPool.Delivers`,
`PoolRun.HeldOnly`, `PoolRun.Split`.
Key theorems: `MrPool.perm_insertMr`, `MrPool.delivers_iff`,
`PoolRun.request_delivered`, `PoolRun.Split.step`, `PoolRun.regions_split`.
-/
import Mathlib.Data.Fintype.EquivFin
import Mathlib.Data.List.Perm.Basic
import ComputeSideLog.Lib.Trace
import ComputeSideLog.MrPool

namespace ComputeSideLog

namespace MrPool

/-- A region that the constructor creates: zeroed and put into `free_mrs`. -/
def allocate (mrSize : ℕ) (p : MrPool) (addr : ℕ) : MrPool :=
  { p with made := ⟨addr, mrSize⟩ :: p.made }.recycleMR ⟨addr, mrSize⟩

/-- The constructor, for `MR_SIZE` and the addresses of the pre-allocated
regions. -/
def preallocate (mrSize : ℕ) (addrs : List ℕ) : MrPool := addrs.foldl (allocate mrSize) empty

/-- A request is met: a region that exists and is large enough, a free one if
one is large enough, otherwise a new one. -/
def Delivers (p : MrPool) (size : ℕ) : Prop :=
  ∀ addr, p.Unused addr → ∃ q mr, p.getMRofSize size addr = some (q, mr) ∧ mr ∈ q.made ∧ size ≤ mr.size ∧
    (mr ∈ p.freeMrs ∨ (∀ b ∈ p.freeMrs, b.size < size) ∧ mr ∉ p.made)

variable {p : MrPool} {mr : Mr}

theorem perm_insertMr {bs : List Mr} (h : mr ∉ bs) : (insertMr mr bs).Perm (mr :: bs) := by
  induction bs with
  | nil => exact .refl _
  | cons b bs ih =>
    rw [List.mem_cons, not_or] at h
    unfold insertMr
    split
    · exact .refl _
    · split
      · exact ((ih h.2).cons b).trans (.swap mr b bs)
      · rename_i hlt hgt
        exact absurd (eq_of_not_mrCmp hlt hgt) h.1

theorem exists_unused (p : MrPool) : ∃ addr, p.Unused addr := by
  obtain ⟨addr, h⟩ := Infinite.exists_notMem_finset (p.made.map Mr.addr).toFinset
  refine ⟨addr, fun b hb he => h ?_⟩
  rw [List.mem_toFinset, ← he]
  exact List.mem_map_of_mem hb

/-- What a request that the pool can meet gets. -/
theorem Adequate.cases {size : ℕ} (h : p.Adequate size) (hs : p.freeMrs.Pairwise fun b b' => mrCmp b b' = true)
    (addr : ℕ) : ∃ q mr, p.getMRofSize size addr = some (q, mr) ∧ size ≤ mr.size ∧
      ((p.freeMrs = [] ∧ mr = ⟨addr, size⟩ ∧ q.made = mr :: p.made) ∨
        (mr ∈ p.freeMrs ∧ q.made = p.made ∧ ∀ b ∈ p.freeMrs, size ≤ b.size → mr.size ≤ b.size)) := by
  obtain ⟨q, mr, hget⟩ := h.getMRofSize addr
  refine ⟨q, mr, hget, ?_⟩
  unfold MrPool.getMRofSize at hget
  split at hget
  · rename_i hnil
    cases hget
    exact ⟨le_rfl, .inl ⟨hnil, rfl, rfl⟩⟩
  · split at hget
    · rename_i b hfind
      cases hget
      exact ⟨by simpa using List.find?_some hfind,
        .inr ⟨List.mem_of_find?_eq_some hfind, rfl, find?_least hs hfind⟩⟩
    · cases hget

/-- A request is met if and only if the pool is empty or has a region that is
large enough. -/
theorem delivers_iff (hfree : ∀ b ∈ p.freeMrs, b ∈ p.made)
    (hs : p.freeMrs.Pairwise fun b b' => mrCmp b b' = true) (size : ℕ) : p.Delivers size ↔ p.Adequate size := by
  constructor
  · intro h
    obtain ⟨addr, ha⟩ := p.exists_unused
    obtain ⟨q, mr, hget, -, hle, -⟩ := h addr ha
    rcases getMRofSize_cases hget with ⟨hnil, -, -⟩ | ⟨hmem, -, -⟩
    · exact .inl hnil
    · exact .inr ⟨mr, hmem, hle⟩
  · intro h addr ha
    obtain ⟨q, mr, hget, hle, ⟨hnil, rfl, hmade⟩ | ⟨hmem, hmade, -⟩⟩ := h.cases hs addr
    · refine ⟨q, _, hget, by rw [hmade]; exact List.mem_cons_self, hle, .inr ⟨?_, fun hm => ha _ hm rfl⟩⟩
      rw [hnil]
      exact fun b hb => absurd hb List.not_mem_nil
    · exact ⟨q, mr, hget, by rw [hmade]; exact hfree mr hmem, hle, .inl hmem⟩

end MrPool

/-- A pool and the regions that were handed out and have not come back. -/
structure PoolRun where
  pool : MrPool
  held : List Mr

namespace PoolRun

/-- A request with the address that a new region would get, a region given back,
and one whose bytes are written. -/
inductive Event where
  | get (size addr : ℕ)
  | recycle (mr : Mr)
  | write (mr : Mr) (m : Mem)

/-- A new pool. -/
def init (mrSize : ℕ) (addrs : List ℕ) : PoolRun := ⟨MrPool.preallocate mrSize addrs, []⟩

/-- One event. The regions that are given back or written exist; they need not
be held. -/
def step (s : PoolRun) : Event → Option PoolRun
  | .get size addr =>
    if s.pool.Unused addr then (s.pool.getMRofSize size addr).map fun r => ⟨r.1, r.2 :: s.held⟩ else none
  | .recycle mr => if mr ∈ s.pool.made then some ⟨s.pool.recycleMR mr, s.held.erase mr⟩ else none
  | .write mr m => if mr ∈ s.pool.made then some ⟨s.pool.write mr m, s.held⟩ else none

/-- Only held regions are given back or written. -/
def HeldOnly (s : PoolRun) : Event → Prop
  | .get _ _ => True
  | .recycle mr => mr ∈ s.held
  | .write mr _ => mr ∈ s.held

instance (s : PoolRun) : ∀ ev, Decidable (HeldOnly s ev)
  | .get _ _ => instDecidableTrue
  | .recycle mr => inferInstanceAs (Decidable (mr ∈ s.held))
  | .write mr _ => inferInstanceAs (Decidable (mr ∈ s.held))

variable {s t : PoolRun} {ev : Event}

/-- What an event can do. -/
theorem step_cases (h : s.step ev = some t) :
    (∃ size addr mr, ev = .get size addr ∧ s.pool.Unused addr ∧
        s.pool.getMRofSize size addr = some (t.pool, mr) ∧ t.held = mr :: s.held) ∨
      (∃ mr, ev = .recycle mr ∧ mr ∈ s.pool.made ∧ t = ⟨s.pool.recycleMR mr, s.held.erase mr⟩) ∨
      ∃ mr m, ev = .write mr m ∧ mr ∈ s.pool.made ∧ t = ⟨s.pool.write mr m, s.held⟩ := by
  cases ev with
  | get size addr =>
    simp only [step, Option.ite_none_right_eq_some, Option.map_eq_some_iff] at h
    obtain ⟨hu, ⟨q, mr⟩, hget, rfl⟩ := h
    exact .inl ⟨size, addr, mr, rfl, hu, hget, rfl⟩
  | recycle mr =>
    simp only [step, Option.ite_none_right_eq_some, Option.some.injEq] at h
    exact .inr (.inl ⟨mr, rfl, h.1, h.2.symm⟩)
  | write mr m =>
    simp only [step, Option.ite_none_right_eq_some, Option.some.injEq] at h
    exact .inr (.inr ⟨mr, m, rfl, h.1, h.2.symm⟩)

/-! ### Requests that are met -/

/-- The free regions exist and are in the order of `mr_cmp`. -/
structure Ordered (p : MrPool) : Prop where
  made : ∀ b ∈ p.freeMrs, b ∈ p.made
  sorted : p.freeMrs.Pairwise fun b b' => mrCmp b b' = true

theorem Ordered.recycleMR {p : MrPool} (h : Ordered p) {mr : Mr} (hmr : mr ∈ p.made) : Ordered (p.recycleMR mr) := by
  refine ⟨fun b hb => ?_, MrPool.sorted_insertMr h.sorted⟩
  rcases MrPool.mem_insertMr.mp hb with rfl | hb
  · exact hmr
  · exact h.made b hb

theorem Ordered.allocate {p : MrPool} (h : Ordered p) (mrSize addr : ℕ) : Ordered (p.allocate mrSize addr) :=
  Ordered.recycleMR (p := { p with made := ⟨addr, mrSize⟩ :: p.made })
    ⟨fun b hb => List.mem_cons_of_mem _ (h.made b hb), h.sorted⟩ List.mem_cons_self

theorem ordered_preallocate (mrSize : ℕ) : ∀ (addrs : List ℕ) {p : MrPool}, Ordered p →
    Ordered (addrs.foldl (MrPool.allocate mrSize) p)
  | [], _, h => h
  | addr :: addrs, _, h => ordered_preallocate mrSize addrs (h.allocate mrSize addr)

theorem Ordered.step (h : Ordered s.pool) (hs : s.step ev = some t) : Ordered t.pool := by
  rcases step_cases hs with ⟨size, addr, mr, -, -, hget, -⟩ | ⟨mr, -, hmr, rfl⟩ | ⟨mr, m, -, -, rfl⟩
  · rcases MrPool.getMRofSize_cases hget with ⟨-, -, hp⟩ | ⟨-, -, hp⟩
    · rw [hp]
      exact ⟨fun b hb => List.mem_cons_of_mem _ (h.made b hb), h.sorted⟩
    · rw [hp]
      exact ⟨fun b hb => h.made b (List.mem_of_mem_erase hb), h.sorted.sublist List.erase_sublist⟩
  · exact h.recycleMR hmr
  · exact ⟨h.made, h.sorted⟩

/-- **When a request is met.** In every state that requests and regions given
back, of whatever sizes, can lead to, `GetMRofSize` delivers if and only if
no region is free or one that is free is large enough. -/
theorem request_delivered {mrSize : ℕ} {addrs : List ℕ} (h : Trace.Reach step (init mrSize addrs) s) (size : ℕ) :
    s.pool.Delivers size ↔ s.pool.Adequate size := by
  have hord : Ordered s.pool := by
    refine h.inv (I := fun s => Ordered s.pool) ?_ fun s ev t hs hst => hs.step hst
    exact ordered_preallocate mrSize addrs ⟨by simp [MrPool.empty], .nil⟩
  exact MrPool.delivers_iff hord.made hord.sorted size

/-- A region of 16 bytes is taken and given back; 12 bytes can be had. -/
theorem request_delivered_small : ∃ s, Trace.Reach step (init 64 []) s ∧ s.pool.freeMrs = [⟨0, 16⟩] ∧
    s.pool.Delivers 12 := by
  obtain ⟨s, hs, hp⟩ : ∃ s, Trace.Reach step (init 64 []) s ∧ s.pool.freeMrs = [⟨0, 16⟩] :=
    Trace.exists_reach_of_exec [.get 16 0, .recycle ⟨0, 16⟩] (by decide)
  refine ⟨s, hs, hp, (request_delivered hs 12).mpr (.inr ⟨⟨0, 16⟩, ?_, by decide⟩)⟩
  rw [hp]
  exact List.mem_cons_self

/-- The same run; 32 bytes cannot. -/
theorem request_fails : ¬ ∀ s, Trace.Reach step (init 64 []) s → ∀ size, s.pool.Delivers size := by
  intro h
  obtain ⟨s, hs, hp⟩ : ∃ s, Trace.Reach step (init 64 []) s ∧
      s.pool.Unused 1 ∧ (s.pool.getMRofSize 32 1).isNone = true :=
    Trace.exists_reach_of_exec [.get 16 0, .recycle ⟨0, 16⟩] (by decide)
  obtain ⟨q, mr, hget, -⟩ := h s hs 32 1 hp.1
  rw [hget] at hp
  exact absurd hp.2 (by simp)

/-! ### Held and free regions -/

/-- The regions created are the held and the free ones, each once. -/
structure Split (s : PoolRun) : Prop where
  ok : s.pool.Ok (· ∈ s.held)
  sorted : s.pool.freeMrs.Pairwise fun b b' => mrCmp b b' = true
  nodup : s.pool.made.Nodup
  perm : s.pool.made.Perm (s.held ++ s.pool.freeMrs)

theorem Split.held_nodup (h : Split s) : s.held.Nodup :=
  (List.nodup_append.mp (h.perm.nodup_iff.mp h.nodup)).1

/-- A region is created and held. -/
theorem Split.hold {p : MrPool} {held : List Mr} (h : Split ⟨p, held⟩) {size addr : ℕ} (hu : p.Unused addr) :
    Split ⟨{ p with made := ⟨addr, size⟩ :: p.made }, ⟨addr, size⟩ :: held⟩ := by
  refine ⟨(h.ok.hold hu).congr fun b => ?_, h.sorted, ?_, h.perm.cons _⟩
  · rw [List.mem_cons, or_comm]
  · exact List.nodup_cons.mpr ⟨fun hm => hu _ hm rfl, h.nodup⟩

theorem Split.write (h : Split s) {mr : Mr} (hmr : mr ∈ s.held) (m : Mem) : Split ⟨s.pool.write mr m, s.held⟩ :=
  ⟨(h.ok.write hmr m).1, h.sorted, h.nodup, h.perm⟩

/-- A free region is taken. -/
theorem Split.take (h : Split s) {mr : Mr} (hmr : mr ∈ s.pool.freeMrs)
    (hok : MrPool.Ok { s.pool with freeMrs := s.pool.freeMrs.erase mr } (· ∈ mr :: s.held)) :
    Split ⟨{ s.pool with freeMrs := s.pool.freeMrs.erase mr }, mr :: s.held⟩ := by
  refine ⟨hok, h.sorted.sublist List.erase_sublist, h.nodup, h.perm.trans ?_⟩
  have hfree : (s.held ++ s.pool.freeMrs).Perm (s.held ++ mr :: s.pool.freeMrs.erase mr) :=
    (List.perm_cons_erase hmr).append_left _
  exact hfree.trans List.perm_middle

theorem Split.get (h : Split s) {size addr : ℕ} {mr : Mr} (hu : s.pool.Unused addr)
    (hget : s.pool.getMRofSize size addr = some (t.pool, mr)) (hheld : t.held = mr :: s.held) : Split t := by
  obtain ⟨q, held⟩ := t
  subst hheld
  have hok : q.Ok (· ∈ mr :: s.held) := by
    refine (h.ok.getMRofSize hu hget).1.congr fun b => ?_
    rw [List.mem_cons, or_comm]
  rcases MrPool.getMRofSize_cases hget with ⟨-, rfl, rfl⟩ | ⟨hmem, -, rfl⟩
  · exact (h.hold hu).write List.mem_cons_self Mem.zero
  · exact h.take hmem hok

/-- A held region goes back. -/
theorem Split.recycle (h : Split s) {mr : Mr} (hmr : mr ∈ s.held) : Split ⟨s.pool.recycleMR mr, s.held.erase mr⟩ := by
  have hnot : mr ∉ s.pool.freeMrs := fun hm => h.ok.apart mr hm hmr
  refine ⟨(h.ok.recycleMR hmr).1.congr fun b => ?_, MrPool.sorted_insertMr h.sorted, h.nodup, h.perm.trans ?_⟩
  · rw [h.held_nodup.mem_erase_iff, and_comm]
  · have hback : (s.held ++ s.pool.freeMrs).Perm (s.held.erase mr ++ mr :: s.pool.freeMrs) :=
      ((List.perm_cons_erase hmr).append_right _).trans List.perm_middle.symm
    exact hback.trans ((MrPool.perm_insertMr hnot).symm.append_left _)

theorem Split.step (h : Split s) (hok : HeldOnly s ev) (hs : s.step ev = some t) : Split t := by
  rcases step_cases hs with ⟨size, addr, mr, -, hu, hget, hheld⟩ | ⟨mr, rfl, -, rfl⟩ | ⟨mr, m, rfl, -, rfl⟩
  · exact h.get hu hget hheld
  · exact h.recycle hok
  · exact h.write hok m

/-- The constructor, region by region. -/
theorem split_preallocate (mrSize : ℕ) (addrs : List ℕ) {p : MrPool} (h : Split ⟨p, []⟩) (hn : addrs.Nodup)
    (hu : ∀ addr ∈ addrs, p.Unused addr) : Split ⟨addrs.foldl (MrPool.allocate mrSize) p, []⟩ := by
  induction addrs generalizing p with
  | nil => exact h
  | cons addr addrs ih =>
    obtain ⟨hnot, hn⟩ := List.nodup_cons.mp hn
    have hstep : Split ⟨p.allocate mrSize addr, []⟩ := by
      have hheld : Split ⟨{ p with made := ⟨addr, mrSize⟩ :: p.made }, [⟨addr, mrSize⟩]⟩ :=
        h.hold (hu addr List.mem_cons_self)
      have hback := hheld.recycle List.mem_cons_self
      rwa [List.erase_cons_head] at hback
    refine ih hstep hn fun a ha b hb => ?_
    rcases List.mem_cons.mp hb with rfl | hb
    · intro he
      have ha' : addr = a := he
      exact hnot (ha' ▸ ha)
    · exact hu a (List.mem_cons_of_mem _ ha) b hb

theorem split_init (mrSize : ℕ) {addrs : List ℕ} (hn : addrs.Nodup) : Split (init mrSize addrs) :=
  split_preallocate mrSize addrs ⟨MrPool.ok_empty.congr (by simp), .nil, .nil, .refl _⟩ hn
    fun _ _ => by simp [MrPool.Unused, MrPool.empty]

/-- **The pool never shares or loses a region.** When only held regions are given
back and written, the regions created are at every point the held and the
free ones, each once; and a request that the pool can meet gets a region that
nobody holds and that is zero, from among the smallest free ones that are
large enough, if there is one. -/
theorem regions_split {mrSize : ℕ} {addrs : List ℕ} (hn : addrs.Nodup)
    (h : Trace.Reach (Trace.restrict HeldOnly step) (init mrSize addrs) s) :
    s.pool.made.Nodup ∧ s.pool.made.Perm (s.held ++ s.pool.freeMrs) ∧
    ∀ size addr, s.pool.Unused addr → s.pool.Adequate size →
      ∃ q mr, s.pool.getMRofSize size addr = some (q, mr) ∧ mr ∉ s.held ∧ q.mem mr.addr = Mem.zero ∧
        size ≤ mr.size ∧ ∀ b ∈ s.pool.freeMrs, size ≤ b.size → mr ∈ s.pool.freeMrs ∧ mr.size ≤ b.size := by
  have hsplit : Split s :=
    h.inv_restrict (I := Split) (split_init mrSize hn) fun s ev t hs hok hst => hs.step hok hst
  refine ⟨hsplit.nodup, hsplit.perm, fun size addr hu had => ?_⟩
  obtain ⟨q, mr, hget, hle, hwhich⟩ := had.cases hsplit.sorted addr
  obtain ⟨-, hfree, hzero, -⟩ := hsplit.ok.getMRofSize hu hget
  refine ⟨q, mr, hget, hfree, hzero, hle, fun b hb hbs => ?_⟩
  rcases hwhich with ⟨hnil, -, -⟩ | ⟨hmem, -, hleast⟩
  · rw [hnil] at hb
    exact absurd hb List.not_mem_nil
  · exact ⟨hmem, hleast b hb hbs⟩

/-- Three regions of two sizes, one of them written and given back. -/
theorem regions_split_three : ∃ s, Trace.Reach (Trace.restrict HeldOnly step) (init 16 [3, 1]) s ∧
    s.held = [⟨7, 32⟩, ⟨1, 16⟩] ∧ s.pool.freeMrs = [⟨3, 16⟩] ∧
    ∃ q mr, s.pool.getMRofSize 8 9 = some (q, mr) ∧ mr ∉ s.held ∧ q.mem mr.addr = Mem.zero := by
  obtain ⟨s, hs, hp⟩ : ∃ s, Trace.Reach (Trace.restrict HeldOnly step) (init 16 [3, 1]) s ∧
      (s.held = [⟨7, 32⟩, ⟨1, 16⟩] ∧ s.pool.freeMrs = [⟨3, 16⟩]) ∧ s.pool.Unused 9 :=
    Trace.exists_reach_of_exec
      [.get 16 5, .get 9 6, .get 32 7, .write ⟨3, 16⟩ (Mem.zero.write 0 [1, 2]), .recycle ⟨1, 16⟩, .recycle ⟨3, 16⟩,
        .get 16 8, .recycle ⟨1, 16⟩, .get 4 8, .recycle ⟨7, 32⟩, .get 20 8] (by decide)
  obtain ⟨-, -, hget⟩ := regions_split (by decide) hs
  have hbig : (⟨3, 16⟩ : Mr) ∈ s.pool.freeMrs := by rw [hp.1.2]; exact List.mem_cons_self
  obtain ⟨q, mr, hq, hfree, hzero, -⟩ := hget 8 9 hp.2 (.inr ⟨⟨3, 16⟩, hbig, by decide⟩)
  exact ⟨s, hs, hp.1.1, hp.1.2, q, mr, hq, hfree, hzero⟩

end PoolRun
end ComputeSideLog
