/-
# The pool of memory regions

`NCLMrPool` (`src/rdma/mr_pool.cc`) keeps the regions that are not in use in a
set, ordered by size and then by address (`mr_cmp`). `GetMRofSize` creates a
region if the set is empty and otherwise takes the first one that is large
enough; if there is none it dereferences the end of the set, which is no step
here. `RecycleMR` zeroes a region and puts it back.

`Ok` says for the regions that someone holds that they are apart from the
free ones, and that the free ones are zero. `FreeSet` is the set of free
regions as the pool keeps it, from which the first that is large enough has
the size asked for if any has (`FreeSet.handed`).

Key definitions: `MrPool.getMRofSize`, `MrPool.recycleMR`, `MrPool.Ok`,
`MrPool.FreeSet`, `MrPool.Adequate`, `MrPool.Exact`.
Key theorems: `MrPool.Ok.getMRofSize`, `MrPool.Ok.recycleMR`,
`MrPool.Ok.write`, `MrPool.find?_least`, `MrPool.FreeSet.handed`.
-/
import Mathlib.Data.List.Nodup
import Mathlib.Logic.Function.Basic
import ComputeSideLog.Lib.Bytes

namespace ComputeSideLog

/-- A registered region: the address of its `Buffer`, and its size. -/
structure Mr where
  addr : ℕ
  size : ℕ
  deriving DecidableEq, Repr

/-- `mr_cmp`. -/
def mrCmp (b1 b2 : Mr) : Bool :=
  if b1.size ≠ b2.size then decide (b1.size < b2.size) else decide (b1.addr < b2.addr)

/-- `free_mrs` in its order, the bytes of the regions by address, and the regions
created so far. -/
structure MrPool where
  freeMrs : List Mr
  mem : ℕ → Mem
  made : List Mr

namespace MrPool

/-- A pool without regions. -/
def empty : MrPool := ⟨[], fun _ => Mem.zero, []⟩

/-- No region has the address. -/
def Unused (p : MrPool) (addr : ℕ) : Prop := ∀ b ∈ p.made, b.addr ≠ addr

instance (p : MrPool) (addr : ℕ) : Decidable (p.Unused addr) :=
  inferInstanceAs (Decidable (∀ b ∈ p.made, b.addr ≠ addr))

/-- `GetMRofSize`, where `addr` is the address a new region gets. -/
def getMRofSize (p : MrPool) (size addr : ℕ) : Option (MrPool × Mr) :=
  match p.freeMrs with
  | [] =>
    some ({ p with mem := Function.update p.mem addr Mem.zero, made := ⟨addr, size⟩ :: p.made }, ⟨addr, size⟩)
  | mrs =>
    match mrs.find? fun b => size ≤ b.size with
    | some mr => some ({ p with freeMrs := mrs.erase mr }, mr)
    | none => none

/-- The insertion into `free_mrs`. -/
def insertMr (mr : Mr) : List Mr → List Mr
  | [] => [mr]
  | b :: bs => if mrCmp mr b then mr :: b :: bs else if mrCmp b mr then b :: insertMr mr bs else b :: bs

/-- `RecycleMR`. -/
def recycleMR (p : MrPool) (mr : Mr) : MrPool :=
  { p with mem := Function.update p.mem mr.addr Mem.zero, freeMrs := insertMr mr p.freeMrs }

/-- The region's bytes become `m`. -/
def write (p : MrPool) (mr : Mr) (m : Mem) : MrPool := { p with mem := Function.update p.mem mr.addr m }

theorem eq_of_not_mrCmp {b b' : Mr} (h : ¬ mrCmp b b' = true) (h' : ¬ mrCmp b' b = true) : b = b' := by
  obtain ⟨addr, size⟩ := b
  obtain ⟨addr', size'⟩ := b'
  unfold mrCmp at h h'
  by_cases hs : size = size'
  · simp only [hs, ne_eq, not_true_eq_false, if_false, decide_eq_true_eq] at h h'
    rw [Mr.mk.injEq]
    omega
  · simp only [ne_eq, hs, Ne.symm hs, not_false_eq_true, if_true, decide_eq_true_eq] at h h'
    omega

theorem mem_insertMr {mr b : Mr} {bs : List Mr} : b ∈ insertMr mr bs ↔ b = mr ∨ b ∈ bs := by
  induction bs with
  | nil => simp [insertMr]
  | cons b' bs ih =>
    unfold insertMr
    split
    · exact List.mem_cons
    · split
      · rw [List.mem_cons, ih, List.mem_cons, or_left_comm]
      · rename_i h h'
        rw [eq_of_not_mrCmp h h', List.mem_cons, or_self_left]

theorem nodup_insertMr {mr : Mr} {bs : List Mr} (h : bs.Nodup) (hmr : mr ∉ bs) : (insertMr mr bs).Nodup := by
  induction bs with
  | nil => exact List.nodup_singleton mr
  | cons b bs ih =>
    rw [List.mem_cons, not_or] at hmr
    unfold insertMr
    split
    · exact List.nodup_cons.mpr ⟨by rw [List.mem_cons, not_or]; exact hmr, h⟩
    · split
      · rw [List.nodup_cons] at h ⊢
        refine ⟨fun hb => ?_, ih h.2 hmr.2⟩
        rcases mem_insertMr.mp hb with rfl | hb
        · exact hmr.1 rfl
        · exact h.1 hb
      · exact h

/-! ### Held and free regions -/

/-- The regions are apart: each was created under its own address, the held ones
are not free, and the free ones are zero. -/
structure Ok (p : MrPool) (held : Mr → Prop) : Prop where
  free_made : ∀ b ∈ p.freeMrs, b ∈ p.made
  held_made : ∀ b, held b → b ∈ p.made
  addr_inj : ∀ b ∈ p.made, ∀ b' ∈ p.made, b.addr = b'.addr → b = b'
  apart : ∀ b ∈ p.freeMrs, ¬ held b
  nodup : p.freeMrs.Nodup
  zero : ∀ b ∈ p.freeMrs, p.mem b.addr = Mem.zero

theorem ok_empty : empty.Ok fun _ => False :=
  ⟨by simp [empty], by simp, by simp [empty], by simp, by simp [empty], by simp [empty]⟩

variable {p q : MrPool} {held : Mr → Prop} {mr : Mr}

/-- What a request for a region can do. -/
theorem getMRofSize_cases {size addr : ℕ} (h : p.getMRofSize size addr = some (q, mr)) :
    (p.freeMrs = [] ∧ mr = ⟨addr, size⟩ ∧
        q = { p with mem := Function.update p.mem addr Mem.zero, made := ⟨addr, size⟩ :: p.made }) ∨
      (mr ∈ p.freeMrs ∧ size ≤ mr.size ∧ q = { p with freeMrs := p.freeMrs.erase mr }) := by
  unfold getMRofSize at h
  split at h
  · rename_i hnil
    rw [Option.some.injEq, Prod.mk.injEq] at h
    exact .inl ⟨hnil, h.2.symm, h.1.symm⟩
  · split at h
    · rename_i b hfind
      rw [Option.some.injEq, Prod.mk.injEq] at h
      obtain ⟨rfl, rfl⟩ := h
      exact .inr ⟨List.mem_of_find?_eq_some hfind, by simpa using List.find?_some hfind, rfl⟩
    · cases h

/-- Two regions with an address in common are one. -/
theorem Ok.addr_ne (h : p.Ok held) {b b' : Mr} (hb : b ∈ p.made) (hb' : b' ∈ p.made) (hne : b ≠ b') :
    b.addr ≠ b'.addr := fun he => hne (h.addr_inj b hb b' hb' he)

/-- A write to a held region changes no other. -/
theorem Ok.write (h : p.Ok held) (hmr : held mr) (m : Mem) :
    (p.write mr m).Ok held ∧ ∀ b, held b → b ≠ mr → (p.write mr m).mem b.addr = p.mem b.addr := by
  have hmade := h.held_made mr hmr
  refine ⟨⟨h.free_made, h.held_made, h.addr_inj, h.apart, h.nodup, fun b hb => ?_⟩, fun b hb hne => ?_⟩
  · have hne : b ≠ mr := fun he => h.apart b hb (he ▸ hmr)
    calc (p.write mr m).mem b.addr = p.mem b.addr :=
          Function.update_of_ne (h.addr_ne (h.free_made b hb) hmade hne) _ _
      _ = Mem.zero := h.zero b hb
  · exact Function.update_of_ne (h.addr_ne (h.held_made b hb) hmade hne) _ _

/-- A region that is created is held by who creates it. -/
theorem Ok.hold (h : p.Ok held) {size addr : ℕ} (hfresh : p.Unused addr) :
    Ok { p with made := ⟨addr, size⟩ :: p.made } fun b => held b ∨ b = ⟨addr, size⟩ := by
  refine ⟨fun b hb => List.mem_cons_of_mem _ (h.free_made b hb), ?_, ?_, ?_, h.nodup, h.zero⟩
  · rintro b (hb | rfl)
    · exact List.mem_cons_of_mem _ (h.held_made b hb)
    · exact List.mem_cons_self
  · intro b hb b' hb' he
    rcases List.mem_cons.mp hb with rfl | hb
    · rcases List.mem_cons.mp hb' with rfl | hb'
      · rfl
      · exact absurd he.symm (hfresh b' hb')
    · rcases List.mem_cons.mp hb' with rfl | hb'
      · exact absurd he (hfresh b hb)
      · exact h.addr_inj b hb b' hb' he
  · rintro b hb (hb' | rfl)
    · exact h.apart b hb hb'
    · exact hfresh _ (h.free_made _ hb) rfl

/-- The region handed out was held by nobody and is zero; the held ones keep
their bytes. -/
theorem Ok.getMRofSize (h : p.Ok held) {size addr : ℕ} (hfresh : p.Unused addr)
    (hget : p.getMRofSize size addr = some (q, mr)) :
    q.Ok (fun b => held b ∨ b = mr) ∧ ¬ held mr ∧ q.mem mr.addr = Mem.zero ∧
      ∀ b, held b → q.mem b.addr = p.mem b.addr := by
  rcases getMRofSize_cases hget with ⟨-, rfl, rfl⟩ | ⟨hmem, -, rfl⟩
  · have hne : ∀ b, held b → b.addr ≠ addr := fun b hb => hfresh b (h.held_made b hb)
    exact ⟨((h.hold hfresh).write (.inr rfl) Mem.zero).1, fun hb => hne _ hb rfl, Function.update_self _ _ _,
      fun b hb => Function.update_of_ne (hne b hb) _ _⟩
  · refine ⟨⟨fun b hb => h.free_made b (List.mem_of_mem_erase hb), ?_, h.addr_inj, ?_, h.nodup.erase mr,
      fun b hb => h.zero b (List.mem_of_mem_erase hb)⟩, h.apart mr hmem, h.zero mr hmem, fun _ _ => rfl⟩
    · rintro b (hb | rfl)
      · exact h.held_made b hb
      · exact h.free_made b hmem
    · rintro b hb (hb' | rfl)
      · exact h.apart b (List.mem_of_mem_erase hb) hb'
      · exact (h.nodup.mem_erase_iff.mp hb).1 rfl

/-- A held region goes back zeroed; the others keep their bytes. -/
theorem Ok.recycleMR (h : p.Ok held) (hmr : held mr) :
    (p.recycleMR mr).Ok (fun b => held b ∧ b ≠ mr) ∧
      ∀ b, held b → b ≠ mr → (p.recycleMR mr).mem b.addr = p.mem b.addr := by
  have hmade := h.held_made mr hmr
  have hkeep : ∀ b ∈ p.made, b ≠ mr → (p.recycleMR mr).mem b.addr = p.mem b.addr :=
    fun b hb hne => Function.update_of_ne (h.addr_ne hb hmade hne) _ _
  refine ⟨⟨fun b hb => ?_, fun b hb => h.held_made b hb.1, h.addr_inj, fun b hb hb' => ?_,
    nodup_insertMr h.nodup fun hmem => h.apart mr hmem hmr, fun b hb => ?_⟩,
    fun b hb hne => hkeep b (h.held_made b hb) hne⟩
  · rcases mem_insertMr.mp hb with rfl | hb
    · exact hmade
    · exact h.free_made b hb
  · rcases mem_insertMr.mp hb with rfl | hb
    · exact hb'.2 rfl
    · exact h.apart b hb hb'.1
  · rcases mem_insertMr.mp hb with rfl | hb
    · exact Function.update_self _ _ _
    · have hne : b ≠ mr := fun he => h.apart b hb (he ▸ hmr)
      rw [hkeep b (h.free_made b hb) hne]
      exact h.zero b hb

/-- Regions may be let go without going back. -/
theorem Ok.mono (h : p.Ok held) {held' : Mr → Prop} (hh : ∀ b, held' b → held b) : p.Ok held' where
  free_made := h.free_made
  held_made := fun b hb => h.held_made b (hh b hb)
  addr_inj := h.addr_inj
  apart := fun b hb hb' => h.apart b hb (hh b hb')
  nodup := h.nodup
  zero := h.zero

theorem Ok.congr (h : p.Ok held) {held' : Mr → Prop} (hh : ∀ b, held' b ↔ held b) : p.Ok held' :=
  h.mono fun b hb => (hh b).mp hb

/-! ### The free regions -/

/-- `free_mrs` as the pool keeps it: in the order of `mr_cmp`, with sizes of type
`size_t`, and zeroed. -/
structure FreeSet (p : MrPool) : Prop where
  sorted : p.freeMrs.Pairwise fun b b' => mrCmp b b' = true
  small : ∀ b ∈ p.freeMrs, b.size < 2 ^ 64
  zero : ∀ b ∈ p.freeMrs, p.mem b.addr = Mem.zero

/-- The pool has no free region, or one that is large enough. -/
def Adequate (p : MrPool) (size : ℕ) : Prop := p.freeMrs = [] ∨ ∃ b ∈ p.freeMrs, size ≤ b.size

/-- The pool has no free region, or one of exactly this size. -/
def Exact (p : MrPool) (size : ℕ) : Prop := p.freeMrs = [] ∨ ∃ b ∈ p.freeMrs, b.size = size

theorem freeSet_empty : empty.FreeSet := ⟨.nil, by simp [empty], by simp [empty]⟩

theorem size_le_of_mrCmp {b b' : Mr} (h : mrCmp b b' = true) : b.size ≤ b'.size := by
  unfold mrCmp at h
  split at h
  · exact (decide_eq_true_eq.mp h).le
  · rename_i hs
    exact (not_not.mp hs).le

theorem mrCmp_trans {a b c : Mr} (h : mrCmp a b = true) (h' : mrCmp b c = true) : mrCmp a c = true := by
  unfold mrCmp at h h' ⊢
  split at h <;> split at h' <;> split <;> simp only [decide_eq_true_eq] at h h' ⊢ <;> omega

theorem sorted_insertMr {bs : List Mr} (h : bs.Pairwise fun b b' => mrCmp b b' = true) :
    (insertMr mr bs).Pairwise fun b b' => mrCmp b b' = true := by
  induction bs with
  | nil => exact List.pairwise_singleton _ _
  | cons b bs ih =>
    obtain ⟨hb, hbs⟩ := List.pairwise_cons.mp h
    unfold insertMr
    split
    · rename_i hlt
      refine List.pairwise_cons.mpr ⟨fun b' hb' => ?_, h⟩
      rcases List.mem_cons.mp hb' with rfl | hb'
      · exact hlt
      · exact mrCmp_trans hlt (hb b' hb')
    · split
      · rename_i hgt
        refine List.pairwise_cons.mpr ⟨fun b' hb' => ?_, ih hbs⟩
        rcases mem_insertMr.mp hb' with rfl | hb'
        · exact hgt
        · exact hb b' hb'
      · exact h

/-- The pool's two operations keep the set as it is kept. -/
theorem FreeSet.getMRofSize (h : p.FreeSet) {size addr : ℕ} (hget : p.getMRofSize size addr = some (q, mr)) :
    q.FreeSet := by
  rcases getMRofSize_cases hget with ⟨hnil, -, rfl⟩ | ⟨-, -, rfl⟩
  · refine ⟨h.sorted, h.small, fun b hb => ?_⟩
    rw [hnil] at hb
    cases hb
  · exact ⟨h.sorted.sublist List.erase_sublist, fun b hb => h.small b (List.mem_of_mem_erase hb),
      fun b hb => h.zero b (List.mem_of_mem_erase hb)⟩

theorem FreeSet.recycleMR (h : p.FreeSet) (hmr : mr.size < 2 ^ 64) : (p.recycleMR mr).FreeSet := by
  refine ⟨sorted_insertMr h.sorted, fun b hb => ?_, fun b hb => ?_⟩
  · rcases mem_insertMr.mp hb with rfl | hb
    · exact hmr
    · exact h.small b hb
  · by_cases ha : b.addr = mr.addr
    · exact (congrArg _ ha).trans (Function.update_self _ _ _)
    · rcases mem_insertMr.mp hb with rfl | hb
      · exact absurd rfl ha
      · exact (Function.update_of_ne ha _ _).trans (h.zero b hb)

/-- The first region that is large enough is one of the smallest that are. -/
theorem find?_least {bs : List Mr} (hs : bs.Pairwise fun b b' => mrCmp b b' = true) {size : ℕ}
    (hfind : bs.find? (fun b => size ≤ b.size) = some mr) : ∀ b ∈ bs, size ≤ b.size → mr.size ≤ b.size := by
  intro b hb hle
  obtain ⟨-, as, cs, rfl, hbefore⟩ := List.find?_eq_some_iff_append.mp hfind
  rcases List.mem_append.mp hb with hb | hb
  · -- an earlier region would have been taken
    have hsmall := hbefore b hb
    simp [hle] at hsmall
  · rcases List.mem_cons.mp hb with rfl | hb
    · exact le_rfl
    · exact size_le_of_mrCmp ((List.pairwise_cons.mp (List.pairwise_append.mp hs).2.1).1 b hb)

/-- The first region that is large enough has the size asked for if any has. -/
theorem FreeSet.first_exact (h : p.FreeSet) {size : ℕ}
    (hfind : p.freeMrs.find? (fun b => size ≤ b.size) = some mr) :
    mr.size = size ↔ ∃ b ∈ p.freeMrs, b.size = size := by
  refine ⟨fun hs => ⟨mr, List.mem_of_find?_eq_some hfind, hs⟩, ?_⟩
  rintro ⟨b, hb, hs⟩
  refine le_antisymm ?_ (by simpa using List.find?_some hfind)
  exact (find?_least h.sorted hfind b hb hs.ge).trans_eq hs

/-- A request that the pool can meet. -/
theorem Adequate.getMRofSize {size : ℕ} (h : p.Adequate size) (addr : ℕ) :
    ∃ q mr, p.getMRofSize size addr = some (q, mr) := by
  unfold MrPool.getMRofSize
  split
  · exact ⟨_, _, rfl⟩
  · rename_i hne
    obtain ⟨b, hb, hle⟩ := h.resolve_left hne
    have hsome : (p.freeMrs.find? fun b => size ≤ b.size).isSome :=
      List.find?_isSome.mpr ⟨b, hb, by simpa using hle⟩
    obtain ⟨mr, hmr⟩ := Option.isSome_iff_exists.mp hsome
    rw [hmr]
    exact ⟨_, _, rfl⟩

/-- What is handed out: a region of the size asked for if and only if the pool
is empty or has one; at least as large and zero in any case. -/
theorem FreeSet.handed (h : p.FreeSet) {size addr : ℕ} (hs : size < 2 ^ 64)
    (hget : p.getMRofSize size addr = some (q, mr)) :
    (mr.size = size ↔ p.Exact size) ∧ size ≤ mr.size ∧ mr.size < 2 ^ 64 ∧ q.mem mr.addr = Mem.zero := by
  unfold MrPool.getMRofSize at hget
  unfold Exact
  split at hget
  · rename_i hnil
    cases hget
    exact ⟨⟨fun _ => .inl hnil, fun _ => rfl⟩, le_rfl, hs, Function.update_self _ _ _⟩
  · rename_i hne
    split at hget
    · rename_i b hfind
      cases hget
      have hmem := List.mem_of_find?_eq_some hfind
      rw [h.first_exact hfind]
      exact ⟨⟨.inr, fun hex => hex.resolve_left hne⟩, by simpa using List.find?_some hfind, h.small _ hmem,
        h.zero _ hmem⟩
    · cases hget

end MrPool
end ComputeSideLog
