/-
# Maps as sorted association lists

A map is the list of its entries by increasing key, as `std::map` iterates
it. `find` looks a key up, `insert` adds an entry unless the key has one
already, `erase` removes the entry of a key, and the head of the list is the
entry with the least key. The lemmas say what `find` sees after the other
two, and which entries there are then (`perm_insert`, `perm_erase`);
`update_cases` says the same of a map without order, which is a function to
options.
-/
import Mathlib.Order.Lattice
import Mathlib.Data.List.Nodup

namespace ComputeSideLog
namespace Assoc

variable {κ ν : Type*}

/-- What a map given as a function has after an update is the new entry or an
old one under another key. -/
theorem update_cases [DecidableEq κ] {f : κ → Option ν} {k k' : κ} {u : Option ν} {w : ν}
    (h : Function.update f k u k' = some w) : (k' = k ∧ u = some w) ∨ (k' ≠ k ∧ f k' = some w) := by
  by_cases hk : k' = k
  · rw [hk, Function.update_self] at h
    exact .inl ⟨hk, h⟩
  · rw [Function.update_of_ne hk] at h
    exact .inr ⟨hk, h⟩

variable [LinearOrder κ]

/-- The value of a key. -/
def find (m : List (κ × ν)) (k : κ) : Option ν := (m.find? fun e => e.1 = k).map Prod.snd

/-- The entries with one for a new key. -/
def place (m : List (κ × ν)) (k : κ) (v : ν) : List (κ × ν) :=
  match m with
  | [] => [(k, v)]
  | e :: m => if k < e.1 then (k, v) :: e :: m else e :: place m k v

/-- `insert`: an entry that is there stays. -/
def insert (m : List (κ × ν)) (k : κ) (v : ν) : List (κ × ν) :=
  if (find m k).isSome then m else place m k v

/-- The entries without the one of a key. -/
def erase (m : List (κ × ν)) (k : κ) : List (κ × ν) := m.filter fun e => e.1 ≠ k

variable {m : List (κ × ν)} {k k' : κ} {v w : ν}

@[simp] theorem find_nil (k : κ) : find ([] : List (κ × ν)) k = none := rfl

theorem find_cons (e : κ × ν) (m : List (κ × ν)) (k : κ) :
    find (e :: m) k = if e.1 = k then some e.2 else find m k := by
  unfold find
  by_cases h : e.1 = k
  · simp [h]
  · simp [h]

theorem mem_of_find (h : find m k = some v) : (k, v) ∈ m := by
  induction m with
  | nil => simp at h
  | cons e m ih =>
    rw [find_cons] at h
    split at h
    · rename_i he
      cases h
      rw [← he]
      exact List.mem_cons_self
    · exact List.mem_cons_of_mem _ (ih h)

/-- Every key with an entry is found. -/
theorem find_isSome_of_mem (h : (k, v) ∈ m) : (find m k).isSome := by
  induction m with
  | nil => exact absurd h List.not_mem_nil
  | cons e m ih =>
    rw [find_cons]
    split
    · rfl
    · rename_i hne
      rcases List.mem_cons.mp h with rfl | h
      · exact absurd rfl hne
      · exact ih h

theorem find_place_self (h : find m k = none) : find (place m k v) k = some v := by
  induction m with
  | nil => simp [place, find_cons]
  | cons e m ih =>
    rw [find_cons] at h
    split at h
    · cases h
    · rename_i hne
      unfold place
      split
      · simp [find_cons]
      · rw [find_cons, if_neg hne]
        exact ih h

theorem find_place_ne (hne : k' ≠ k) (m : List (κ × ν)) : find (place m k v) k' = find m k' := by
  induction m with
  | nil => simp [place, find_cons, hne.symm]
  | cons e m ih =>
    unfold place
    split
    · rw [find_cons, if_neg hne.symm]
    · rw [find_cons, find_cons, ih]

theorem find_insert_self (h : find m k = none) : find (insert m k v) k = some v := by
  unfold insert
  rw [h]
  exact find_place_self h

theorem find_insert_ne (hne : k' ≠ k) : find (insert m k v) k' = find m k' := by
  unfold insert
  split
  · rfl
  · exact find_place_ne hne m

theorem find_erase_self (m : List (κ × ν)) : find (erase m k) k = none := by
  induction m with
  | nil => rfl
  | cons e m ih =>
    unfold erase
    rw [List.filter_cons]
    split
    · rename_i he
      rw [find_cons, if_neg (by simpa using he)]
      exact ih
    · exact ih

theorem find_erase_ne (hne : k' ≠ k) (m : List (κ × ν)) : find (erase m k) k' = find m k' := by
  induction m with
  | nil => rfl
  | cons e m ih =>
    unfold erase
    rw [List.filter_cons, find_cons]
    split
    · rw [find_cons]
      congr 1
    · rename_i he
      have hek : e.1 = k := by simpa using he
      rw [if_neg (by rw [hek]; exact hne.symm)]
      exact ih

/-- An insertion keeps what is found. -/
theorem find_insert_of_find (h : find m k' = some w) : find (insert m k v) k' = some w := by
  by_cases hk : k' = k
  · subst hk
    unfold insert
    rw [h, Option.isSome_some, if_pos rfl, h]
  · rw [find_insert_ne hk, h]

/-- What is found after an insertion was there or is new. -/
theorem find_insert_cases (h : find (insert m k v) k' = some w) : find m k' = some w ∨ (k' = k ∧ w = v) := by
  by_cases hk : k' = k
  · subst hk
    cases hf : find m k' with
    | some u =>
      unfold insert at h
      rw [hf, Option.isSome_some, if_pos rfl, hf] at h
      exact .inl h
    | none =>
      rw [find_insert_self hf, Option.some.injEq] at h
      exact .inr ⟨rfl, h.symm⟩
  · rw [find_insert_ne hk] at h
    exact .inl h

/-- What is found after an erasure was there under another key. -/
theorem find_erase_eq_some (h : find (erase m k) k' = some w) : k' ≠ k ∧ find m k' = some w := by
  by_cases hk : k' = k
  · subst hk
    rw [find_erase_self] at h
    cases h
  · rw [find_erase_ne hk] at h
    exact ⟨hk, h⟩

/-! ### Keys that occur once -/

theorem mem_place {e : κ × ν} : e ∈ place m k v ↔ e = (k, v) ∨ e ∈ m := by
  induction m with
  | nil => simp [place]
  | cons e' m ih =>
    unfold place
    split
    · simp
    · rw [List.mem_cons, ih, List.mem_cons, or_left_comm]

theorem mem_insert {e : κ × ν} (h : e ∈ insert m k v) : e = (k, v) ∨ e ∈ m := by
  unfold insert at h
  split at h
  · exact .inr h
  · exact mem_place.mp h

theorem nodup_place (h : ∀ e ∈ m, e.1 ≠ k) (hm : (m.map Prod.fst).Nodup) :
    ((place m k v).map Prod.fst).Nodup := by
  induction m with
  | nil => simp [place]
  | cons e m ih =>
    rw [List.map_cons, List.nodup_cons] at hm
    unfold place
    split
    · rw [List.map_cons, List.nodup_cons, List.map_cons, List.nodup_cons]
      refine ⟨?_, hm⟩
      rw [← List.map_cons, List.mem_map]
      rintro ⟨e', he', hk⟩
      exact h e' he' hk
    · rw [List.map_cons, List.nodup_cons]
      refine ⟨?_, ih (fun e' he' => h e' (List.mem_cons_of_mem _ he')) hm.2⟩
      rw [List.mem_map]
      rintro ⟨e', he', hk⟩
      rcases mem_place.mp he' with rfl | he'
      · exact h e List.mem_cons_self hk.symm
      · exact hm.1 (List.mem_map.mpr ⟨e', he', hk⟩)

/-- An insertion keeps the keys apart. -/
theorem nodup_insert (hm : (m.map Prod.fst).Nodup) : ((insert m k v).map Prod.fst).Nodup := by
  unfold insert
  split
  · exact hm
  · rename_i hf
    refine nodup_place (fun e he hk => hf ?_) hm
    exact find_isSome_of_mem (v := e.2) (hk ▸ he)

/-- Behind the first entry its key is not found. -/
theorem find_tail {e : κ × ν} (hm : ((e :: m).map Prod.fst).Nodup) (h : find m k = some v) :
    k ≠ e.1 ∧ find (e :: m) k = some v := by
  have hne : k ≠ e.1 := by
    rintro rfl
    rw [List.map_cons, List.nodup_cons] at hm
    exact hm.1 (List.mem_map.mpr ⟨_, mem_of_find h, rfl⟩)
  rw [find_cons, if_neg hne.symm]
  exact ⟨hne, h⟩

/-! ### Entries as a multiset -/

/-- With unique keys, what is found is what is there. -/
theorem find_eq_some_iff (hm : (m.map Prod.fst).Nodup) : find m k = some v ↔ (k, v) ∈ m := by
  refine ⟨mem_of_find, fun h => ?_⟩
  obtain ⟨w, hw⟩ := Option.isSome_iff_exists.mp (find_isSome_of_mem h)
  rw [hw, Option.some.injEq]
  exact congrArg Prod.snd (List.inj_on_of_nodup_map hm (mem_of_find hw) h rfl)

theorem perm_place (m : List (κ × ν)) : (place m k v).Perm ((k, v) :: m) := by
  induction m with
  | nil => exact .refl _
  | cons e m ih =>
    unfold place
    split
    · exact .refl _
    · exact (ih.cons e).trans (.swap _ _ m)

theorem perm_insert (h : find m k = none) : (insert m k v).Perm ((k, v) :: m) := by
  unfold insert
  rw [h]
  exact perm_place m

theorem perm_erase (hm : (m.map Prod.fst).Nodup) (h : find m k = some v) : m.Perm ((k, v) :: erase m k) := by
  induction m with
  | nil => simp at h
  | cons e m ih =>
    rw [List.map_cons, List.nodup_cons] at hm
    unfold erase at ih ⊢
    rw [find_cons] at h
    by_cases he : e.1 = k
    · rw [if_pos he, Option.some.injEq] at h
      have hrest : (m.filter fun e => e.1 ≠ k) = m := by
        refine List.filter_eq_self.mpr fun e' he' => ?_
        have hne : e'.1 ≠ k := fun hk => hm.1 (List.mem_map.mpr ⟨e', he', hk.trans he.symm⟩)
        simpa using hne
      rw [List.filter_cons, if_neg (by simpa using he), hrest, ← he, ← h]
    · rw [if_neg he] at h
      rw [List.filter_cons, if_pos (by simpa using he)]
      exact ((ih hm.2 h).cons e).trans (.swap _ _ _)

end Assoc
end ComputeSideLog
