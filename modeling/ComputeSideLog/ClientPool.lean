/-
# The pool of clients

`CSLClientPool` (`src/client_pool.cc`) keeps the clients of a process in two
maps by id, idle and busy. `GetClient` takes the idle client with the least
id, or constructs one under the next id, a 32-bit counter; `RecycleClient`
moves a busy client back.

A client object is named by the number of its construction. The maps go by
ids, so they tell clients apart only as long as the counter has not come
round (`ClientPool.Ok`).

Key definitions: `ClientPool.getClient`, `ClientPool.recycleClient`,
`ClientPool.Ok`.
Key theorems: `ClientPool.Ok.getClient`, `ClientPool.Ok.recycleClient`.
-/
import Mathlib.Data.Nat.ModEq
import Mathlib.Tactic.Ring
import ComputeSideLog.Lib.Assoc

namespace ComputeSideLog

/-- `idle_clients` and `busy_clients`, from ids to client objects, and the number
of clients constructed. -/
structure ClientPool where
  idle : List (ℕ × ℕ)
  busy : List (ℕ × ℕ)
  made : ℕ

namespace ClientPool

/-- A pool without clients. -/
def empty : ClientPool := ⟨[], [], 0⟩

/-- `GetId` of a client object: `global_id` when it was constructed. -/
def idOf (o : ℕ) : ℕ := o % 2 ^ 32

/-- Where `GetClient` takes a client from: a new object, an idle one, or, where
the id of a new object is taken, the busy client with that id. -/
inductive Source where
  | created
  | reused
  | clash
  deriving DecidableEq, Repr

/-- `GetClient` on the maps: the pool after it, the object and its source. -/
def getClient (p : ClientPool) : ClientPool × ℕ × Source :=
  match p.idle with
  | [] =>
    ({ p with busy := Assoc.insert p.busy (idOf p.made) p.made, made := p.made + 1 },
      match Assoc.find p.busy (idOf p.made) with
      | some o => (o, .clash)
      | none => (p.made, .created))
  | (id, o) :: rest => ({ p with idle := rest, busy := Assoc.insert p.busy id o }, o, .reused)

/-- `RecycleClient` on the maps: the pool after it and the object it resets. -/
def recycleClient (p : ClientPool) (id : ℕ) : ClientPool × Option ℕ :=
  match Assoc.find p.busy id with
  | none => (p, none)
  | some o => ({ p with busy := Assoc.erase p.busy id, idle := Assoc.insert p.idle id o }, some o)

/-- The client object is busy. -/
def Busy (p : ClientPool) (o : ℕ) : Prop := Assoc.find p.busy (idOf o) = some o

/-- Each client stands under its own id in one of the maps, and ids are unique
so far. -/
structure Ok (p : ClientPool) : Prop where
  made_le : p.made ≤ 2 ^ 32
  idle : ∀ id o, Assoc.find p.idle id = some o → id = o ∧ o < p.made
  busy : ∀ id o, Assoc.find p.busy id = some o → id = o ∧ o < p.made
  disjoint : ∀ id, (Assoc.find p.idle id).isSome → Assoc.find p.busy id = none
  /-- Taking the first idle client leaves no other entry under its id. -/
  sorted : (p.idle.map Prod.fst).Nodup

theorem ok_empty : Ok empty := ⟨by simp [empty], by simp [empty], by simp [empty], by simp [empty], by simp [empty]⟩

variable {p : ClientPool}

theorem Ok.idOf_eq (h : p.Ok) {o : ℕ} (ho : o < p.made) : idOf o = o := by
  have := h.made_le
  exact Nat.mod_eq_of_lt (by omega)

theorem Ok.busy_lt (h : p.Ok) {o : ℕ} (hb : p.Busy o) : o < p.made := (h.busy _ _ hb).2

/-- The idle maps of a pool agree with its objects when one leaves. -/
theorem Ok.reuse (h : p.Ok) {id o : ℕ} {rest : List (ℕ × ℕ)} (hi : p.idle = (id, o) :: rest) :
    id = o ∧ o < p.made ∧ Assoc.find p.busy o = none ∧
      Ok { p with idle := rest, busy := Assoc.insert p.busy id o } := by
  have hnd := h.sorted
  rw [hi] at hnd
  have hfind : Assoc.find p.idle id = some o := by
    rw [hi, Assoc.find_cons, if_pos rfl]
  obtain ⟨rfl, ho⟩ := h.idle _ _ hfind
  have hbusy := h.disjoint id (by rw [hfind]; rfl)
  refine ⟨rfl, ho, hbusy, h.made_le, fun id' o' hf => ?_, fun id' o' hf => ?_, fun id' hf => ?_, ?_⟩
  · refine h.idle id' o' ?_
    rw [hi]
    exact (Assoc.find_tail hnd hf).2
  · rcases Assoc.find_insert_cases hf with hf | ⟨rfl, rfl⟩
    · exact h.busy _ _ hf
    · exact ⟨rfl, ho⟩
  · obtain ⟨o', hf⟩ := Option.isSome_iff_exists.mp hf
    obtain ⟨hne, hf⟩ := Assoc.find_tail hnd hf
    show Assoc.find (Assoc.insert p.busy id id) id' = none
    rw [Assoc.find_insert_ne hne]
    exact h.disjoint id' (by rw [hi, hf]; rfl)
  · rw [List.map_cons, List.nodup_cons] at hnd
    exact hnd.2

/-- A new client gets an id of its own while the counter has not come round. -/
theorem Ok.create (h : p.Ok) (hlt : p.made < 2 ^ 32) (hi : p.idle = []) :
    Assoc.find p.busy p.made = none ∧
      Ok { p with busy := Assoc.insert p.busy p.made p.made, made := p.made + 1 } := by
  have hnone : Assoc.find p.busy p.made = none := by
    by_contra hsome
    obtain ⟨o, ho⟩ := Option.ne_none_iff_exists'.mp hsome
    obtain ⟨rfl, hlt⟩ := h.busy _ _ ho
    exact lt_irrefl _ hlt
  refine ⟨hnone, hlt, fun id o hf => ?_, fun id o hf => ?_, fun id hf => ?_, h.sorted⟩
  · obtain ⟨he, ho⟩ := h.idle _ _ hf
    exact ⟨he, Nat.lt_succ_of_lt ho⟩
  · rcases Assoc.find_insert_cases hf with hf | ⟨rfl, rfl⟩
    · obtain ⟨he, ho⟩ := h.busy _ _ hf
      exact ⟨he, Nat.lt_succ_of_lt ho⟩
    · exact ⟨rfl, Nat.lt_succ_self _⟩
  · rw [hi] at hf
    cases hf

/-- `GetClient` hands out a client that is not busy, unless it constructs one
when the counter has come round. -/
theorem Ok.getClient (h : p.Ok) (hw : p.idle = [] → p.made < 2 ^ 32) :
    p.getClient.1.Ok ∧ ¬ p.Busy p.getClient.2.1 ∧ p.getClient.1.Busy p.getClient.2.1 ∧
      (∀ o, p.Busy o → p.getClient.1.Busy o) ∧ p.getClient.2.2 ≠ .clash := by
  unfold ClientPool.getClient Busy
  cases hi : p.idle with
  | nil =>
    have hlt := hw hi
    have hid : idOf p.made = p.made := Nat.mod_eq_of_lt hlt
    obtain ⟨hnone, hok⟩ := h.create hlt hi
    rw [hi] at hok
    simp only [hid, hnone]
    refine ⟨hok, by simp, Assoc.find_insert_self hnone, fun o ho => ?_, by simp⟩
    exact Assoc.find_insert_of_find ho
  | cons e rest =>
    obtain ⟨id, o⟩ := e
    obtain ⟨rfl, ho, hnone, hok⟩ := h.reuse hi
    rw [h.idOf_eq ho]
    dsimp only
    refine ⟨hok, by simp [hnone], Assoc.find_insert_self hnone, fun o' ho' => ?_, by simp⟩
    exact Assoc.find_insert_of_find ho'

/-- `RecycleClient` of a busy client makes it idle and keeps the others. -/
theorem Ok.recycleClient (h : p.Ok) {o : ℕ} (hb : p.Busy o) :
    (p.recycleClient (idOf o)).1.Ok ∧ (p.recycleClient (idOf o)).2 = some o ∧
      ∀ o', o' ≠ o → p.Busy o' → (p.recycleClient (idOf o)).1.Busy o' := by
  have ho := h.busy_lt hb
  unfold ClientPool.recycleClient
  unfold Busy at hb ⊢
  rw [hb]
  rw [h.idOf_eq ho] at hb ⊢
  dsimp only
  refine ⟨⟨h.made_le, fun id o' hf => ?_, fun id o' hf => ?_, fun id hf => ?_, Assoc.nodup_insert h.sorted⟩,
    rfl, fun o' hne hb' => ?_⟩
  · rcases Assoc.find_insert_cases hf with hf | ⟨rfl, rfl⟩
    · exact h.idle _ _ hf
    · exact ⟨rfl, ho⟩
  · exact h.busy _ _ (Assoc.find_erase_eq_some hf).2
  · obtain ⟨o', hf⟩ := Option.isSome_iff_exists.mp hf
    by_cases hid : id = o
    · rw [hid]
      exact Assoc.find_erase_self _
    · show Assoc.find (Assoc.erase p.busy o) id = none
      rw [Assoc.find_erase_ne hid]
      rcases Assoc.find_insert_cases hf with hf | ⟨he, -⟩
      · exact h.disjoint _ (by rw [hf]; rfl)
      · exact absurd he hid
  · rw [h.idOf_eq (h.busy _ _ hb').2] at hb' ⊢
    rw [Assoc.find_erase_ne hne]
    exact hb'

end ClientPool
end ComputeSideLog
