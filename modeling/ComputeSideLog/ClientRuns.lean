/-
# Runs of the pool of clients

A run is any sequence of `GetClient`, with any name and any flag, and
`RecycleClient`, with any id (`src/client_pool.cc`). A client object has a
name and the flag `in_use`, which `GetClient` sets, `Reset` clears and
`SendFinalization` reads. The size that `GetClient` is asked for is always
the same, so `ReplaceBuffer` does nothing, and `TryRecover` changes the log's
bytes only.

Besides the pool a run keeps the objects returned and not recycled since,
and the largest number of busy clients so far. As long as the 32-bit counter
has not come round, the maps hold every client once, under its own id, and
the busy ones are those returned; a client is only made when all others are
busy, so the counter is the largest number of clients that were ever busy
at a time (`clients_accounted`).

Key definitions: `ClientObj`, `ClientRun`, `ClientRun.step`,
`ClientRun.Sound`.
Key theorems: `ClientRun.Sound.create`, `ClientRun.Sound.reuse`,
`ClientRun.Sound.recycle`, `ClientRun.clients_accounted`.
-/
import Mathlib.Data.Finset.Basic
import Mathlib.Data.Finset.Range
import ComputeSideLog.Lib.Trace
import ComputeSideLog.ClientPool

namespace ComputeSideLog

/-- A client object as far as the pool is concerned: the name of its file,
`in_use`, and the names of the files it told its peers are closed. -/
structure ClientObj where
  filename : List Char
  inUse : Bool
  closed : List (List Char)
  deriving DecidableEq, Repr

namespace ClientObj

/-- The constructor. -/
def construct (filename : List Char) : ClientObj := ⟨filename, false, []⟩

/-- `SetInUse`. -/
def setInUse (c : ClientObj) (inUse : Bool) : ClientObj := { c with inUse := inUse }

/-- `SetFileInfo`, without the size. -/
def setFileInfo (c : ClientObj) (filename : List Char) : ClientObj := { c with filename := filename }

/-- `SendFinalization(CLOSE_FILE)`. -/
def sendFinalization (c : ClientObj) : ClientObj :=
  if c.inUse then { c with closed := c.filename :: c.closed } else c

/-- `Reset`, without the buffer. -/
def reset (c : ClientObj) : ClientObj := { c.sendFinalization.setInUse false with filename := [] }

@[simp] theorem setInUse_inUse (c : ClientObj) (b : Bool) : (c.setInUse b).inUse = b := rfl

@[simp] theorem reset_inUse (c : ClientObj) : c.reset.inUse = false := rfl

end ClientObj

/-- `global_id`. -/
def ClientPool.globalId (p : ClientPool) : ℕ := p.made % 2 ^ 32

/-- The keys of a map of clients. -/
def ClientPool.keys (m : List (ℕ × ℕ)) : Finset ℕ := (m.map Prod.fst).toFinset

/-- The pool and its objects; and the objects that were returned and have not
been recycled since, and the largest number of busy clients so far. -/
structure ClientRun where
  pool : ClientPool
  obj : ℕ → ClientObj
  out : List ℕ
  peak : ℕ

namespace ClientRun

/-- `GetClient(buf_size, filename, try_recover)`, and `RecycleClient(id)`. -/
inductive Event where
  | getClient (filename : List Char) (tryRecover : Bool)
  | recycleClient (id : ℕ)
  deriving DecidableEq, Repr

/-- A new pool. -/
def init : ClientRun := ⟨ClientPool.empty, fun _ => ClientObj.construct [], [], 0⟩

/-- The object that `GetClient` returns, before `SetInUse`. -/
def fetched (s : ClientRun) (filename : List Char) : ClientObj :=
  match s.pool.getClient.2.2 with
  | .created => ClientObj.construct filename
  | .reused => (s.obj s.pool.getClient.2.1).setFileInfo filename
  | .clash => s.obj s.pool.getClient.2.1

/-- One event. -/
def step (s : ClientRun) : Event → Option ClientRun
  | .getClient filename _ =>
    let (p, o, _) := s.pool.getClient
    some
      { pool := p
        obj := Function.update s.obj o ((s.fetched filename).setInUse true)
        out := o :: s.out
        peak := max s.peak p.busy.length }
  | .recycleClient id =>
    match s.pool.recycleClient id with
    | (_, none) => some s
    | (p, some o) =>
      some
        { pool := p
          obj := Function.update s.obj o (s.obj o).reset
          out := s.out.erase o
          peak := max s.peak p.busy.length }

/-! ### The two maps -/

/-- Every client is in one of the maps, under its own id; the busy ones are those
returned, and those in use; and all were busy at some point. -/
structure Sound (s : ClientRun) : Prop where
  entries : (s.pool.idle ++ s.pool.busy).Perm ((List.range s.pool.made).map fun o => (o, o))
  out : (s.out.map fun o => (o, o)).Perm s.pool.busy
  inUse : ∀ o, o < s.pool.made → ((s.obj o).inUse = true ↔ (o, o) ∈ s.pool.busy)
  peak : s.peak = s.pool.made

theorem sound_init : Sound init := ⟨.refl _, .refl _, fun o ho => absurd ho (Nat.not_lt_zero o), rfl⟩

variable {s : ClientRun}

/-- The entries are the clients, under their own ids. -/
theorem Sound.entry (h : Sound s) {e : ℕ × ℕ} (he : e ∈ s.pool.idle ∨ e ∈ s.pool.busy) :
    e.1 = e.2 ∧ e.2 < s.pool.made := by
  have hmem := h.entries.mem_iff.mp (List.mem_append.mpr he)
  rw [List.mem_map] at hmem
  obtain ⟨o, ho, rfl⟩ := hmem
  exact ⟨rfl, List.mem_range.mp ho⟩

theorem Sound.keys_perm (h : Sound s) :
    (s.pool.idle.map Prod.fst ++ s.pool.busy.map Prod.fst).Perm (List.range s.pool.made) := by
  have hmap := h.entries.map Prod.fst
  rwa [List.map_append, List.map_map, Function.comp_def, List.map_id''] at hmap
  exact fun _ => rfl

theorem Sound.nodup (h : Sound s) : (s.pool.idle.map Prod.fst ++ s.pool.busy.map Prod.fst).Nodup :=
  h.keys_perm.nodup_iff.mpr List.nodup_range

theorem Sound.busy_length (h : Sound s) : s.pool.idle.length + s.pool.busy.length = s.pool.made := by
  have hlen := h.entries.length_eq
  rwa [List.length_append, List.length_map, List.length_range] at hlen

theorem Sound.mem_out (h : Sound s) {o : ℕ} : o ∈ s.out ↔ (o, o) ∈ s.pool.busy := by
  rw [← h.out.mem_iff, List.mem_map]
  constructor
  · intro ho
    exact ⟨o, ho, rfl⟩
  · rintro ⟨o', ho', he⟩
    rw [Prod.mk.injEq] at he
    exact he.1 ▸ ho'

theorem Sound.find_busy (h : Sound s) {id o : ℕ} : Assoc.find s.pool.busy id = some o ↔ (id, o) ∈ s.pool.busy :=
  Assoc.find_eq_some_iff (List.nodup_append.mp h.nodup).2.1

/-- A number that no entry has is not found. -/
theorem find_none {m : List (ℕ × ℕ)} {o : ℕ} (hm : o ∉ m.map Prod.fst) : Assoc.find m o = none := by
  by_contra hsome
  obtain ⟨o', ho'⟩ := Option.ne_none_iff_exists'.mp hsome
  exact hm (List.mem_map.mpr ⟨_, Assoc.mem_of_find ho', rfl⟩)

/-! ### A client is returned -/

/-- What `GetClient` does to the pool: `o` becomes busy, and is the only client
that may be new. -/
structure Hands (s : ClientRun) (p : ClientPool) (o : ℕ) : Prop where
  busy : p.busy.Perm ((o, o) :: s.pool.busy)
  entries : (p.idle ++ p.busy).Perm ((List.range p.made).map fun o => (o, o))
  others : ∀ o', o' < p.made → o' = o ∨ o' < s.pool.made
  peak : max s.pool.made p.busy.length = p.made
  free : o ∉ s.out

theorem Sound.create (h : Sound s) (hm : s.pool.made < 2 ^ 32) (hi : s.pool.idle = []) :
    Hands s s.pool.getClient.1 s.pool.getClient.2.1 := by
  have hid : ClientPool.idOf s.pool.made = s.pool.made := Nat.mod_eq_of_lt hm
  have hnot : s.pool.made ∉ s.pool.busy.map Prod.fst := by
    intro hmem
    obtain ⟨e, he, hfst⟩ := List.mem_map.mp hmem
    obtain ⟨heq, hlt⟩ := h.entry (.inr he)
    omega
  have hnone := find_none hnot
  have hbusy : s.pool.busy.length = s.pool.made := by
    have hlen := h.busy_length
    rwa [hi, List.length_nil, Nat.zero_add] at hlen
  have hperm := Assoc.perm_insert (v := s.pool.made) hnone
  unfold ClientPool.getClient
  simp only [hi, hid, hnone]
  refine ⟨hperm, ?_, fun o' ho' => ?_, ?_, fun ho => ?_⟩
  · have hentries := h.entries
    rw [hi, List.nil_append] at hentries
    show (Assoc.insert s.pool.busy s.pool.made s.pool.made).Perm _
    rw [List.range_succ, List.map_append]
    calc List.Perm (Assoc.insert s.pool.busy s.pool.made s.pool.made)
          ((s.pool.made, s.pool.made) :: s.pool.busy) := hperm
      List.Perm _ ((s.pool.made, s.pool.made) :: (List.range s.pool.made).map fun o => (o, o)) := hentries.cons _
      List.Perm _ (((List.range s.pool.made).map fun o => (o, o)) ++ [(s.pool.made, s.pool.made)]) :=
        (List.perm_append_singleton _ _).symm
  · have hlt : o' < s.pool.made + 1 := ho'
    omega
  · rw [hperm.length_eq, List.length_cons, hbusy]
    exact max_eq_right (Nat.le_succ _)
  · exact hnot (List.mem_map.mpr ⟨_, h.mem_out.mp ho, rfl⟩)

theorem Sound.reuse (h : Sound s) {e : ℕ × ℕ} {rest : List (ℕ × ℕ)} (hi : s.pool.idle = e :: rest) :
    Hands s s.pool.getClient.1 s.pool.getClient.2.1 := by
  obtain ⟨id, o⟩ := e
  obtain ⟨hid, ho⟩ := h.entry (e := (id, o)) (.inl (by rw [hi]; exact List.mem_cons_self))
  have hid : id = o := hid
  subst hid
  have hnot : id ∉ s.pool.busy.map Prod.fst := by
    have hnodup := h.nodup
    rw [hi, List.map_cons, List.cons_append, List.nodup_cons, List.mem_append, not_or] at hnodup
    exact hnodup.1.2
  have hperm := Assoc.perm_insert (v := id) (find_none hnot)
  unfold ClientPool.getClient
  simp only [hi]
  refine ⟨hperm, ?_, fun o' ho' => .inr ho', ?_, fun ho => ?_⟩
  · have hentries := h.entries
    rw [hi, List.cons_append] at hentries
    calc List.Perm (rest ++ Assoc.insert s.pool.busy id id) (rest ++ (id, id) :: s.pool.busy) := hperm.append_left rest
      List.Perm _ ((id, id) :: (rest ++ s.pool.busy)) := List.perm_middle
      List.Perm _ ((List.range s.pool.made).map fun o => (o, o)) := hentries
  · have hlen := h.busy_length
    rw [hi, List.length_cons] at hlen
    rw [hperm.length_eq, List.length_cons]
    exact max_eq_left (by omega)
  · exact hnot (List.mem_map.mpr ⟨_, h.mem_out.mp ho, rfl⟩)

theorem Sound.hands (h : Sound s) (hm : s.pool.made < 2 ^ 32) :
    Hands s s.pool.getClient.1 s.pool.getClient.2.1 := by
  cases hi : s.pool.idle with
  | nil => exact h.create hm hi
  | cons e rest => exact h.reuse hi

theorem Sound.get (h : Sound s) {p : ClientPool} {o : ℕ} (hands : Hands s p o) (c : ClientObj) :
    Sound ⟨p, Function.update s.obj o (c.setInUse true), o :: s.out, max s.peak p.busy.length⟩ := by
  refine ⟨hands.entries, ?_, fun o' ho' => ?_, ?_⟩
  · exact (h.out.cons (o, o)).trans hands.busy.symm
  · show (Function.update s.obj o (c.setInUse true) o').inUse = true ↔ _
    rw [hands.busy.mem_iff, List.mem_cons, Prod.mk.injEq, and_self]
    by_cases he : o' = o
    · rw [he, Function.update_self]
      simp
    · rw [Function.update_of_ne he, h.inUse o' ((hands.others o' ho').resolve_left he)]
      simp [he]
  · show max s.peak p.busy.length = p.made
    rw [h.peak]
    exact hands.peak

/-! ### A client is recycled -/

theorem Sound.recycle (h : Sound s) {id o : ℕ} (hf : Assoc.find s.pool.busy id = some o) :
    Sound
      { pool := { s.pool with busy := Assoc.erase s.pool.busy id, idle := Assoc.insert s.pool.idle id o }
        obj := Function.update s.obj o (s.obj o).reset
        out := s.out.erase o
        peak := max s.peak (Assoc.erase s.pool.busy id).length } := by
  have hbusy : (id, o) ∈ s.pool.busy := Assoc.mem_of_find hf
  obtain ⟨hid, ho⟩ := h.entry (.inr hbusy)
  have hid : id = o := hid
  subst hid
  have hnodup := List.nodup_append.mp h.nodup
  have hidle : Assoc.find s.pool.idle id = none :=
    find_none fun hm => hnodup.2.2 id hm id (List.mem_map.mpr ⟨_, hbusy, rfl⟩) rfl
  have herase := Assoc.perm_erase hnodup.2.1 hf
  have hout : s.out.Perm (id :: s.out.erase id) := List.perm_cons_erase (h.mem_out.mpr hbusy)
  have hgone : (id, id) ∉ Assoc.erase s.pool.busy id := fun hm => by simp [Assoc.erase] at hm
  refine ⟨?_, ?_, fun o' ho' => ?_, ?_⟩
  · calc List.Perm (Assoc.insert s.pool.idle id id ++ Assoc.erase s.pool.busy id)
            ((id, id) :: s.pool.idle ++ Assoc.erase s.pool.busy id) := (Assoc.perm_insert hidle).append_right _
      List.Perm _ (s.pool.idle ++ (id, id) :: Assoc.erase s.pool.busy id) := List.perm_middle.symm
      List.Perm _ (s.pool.idle ++ s.pool.busy) := herase.symm.append_left _
      List.Perm _ ((List.range s.pool.made).map fun o => (o, o)) := h.entries
  · refine List.Perm.cons_inv (a := (id, id)) ?_
    calc List.Perm ((id :: s.out.erase id).map fun o => (o, o)) (s.out.map fun o => (o, o)) :=
          hout.symm.map fun o => (o, o)
      List.Perm _ s.pool.busy := h.out
      List.Perm _ ((id, id) :: Assoc.erase s.pool.busy id) := herase
  · show (Function.update s.obj id (s.obj id).reset o').inUse = true ↔ _
    by_cases he : o' = id
    · rw [he, Function.update_self]
      simp [hgone]
    · rw [Function.update_of_ne he, h.inUse o' ho', herase.mem_iff, List.mem_cons, Prod.mk.injEq, and_self]
      simp [he]
  · show max s.peak _ = s.pool.made
    have hlen := herase.length_eq
    have hall := h.busy_length
    rw [List.length_cons] at hlen
    rw [h.peak]
    exact max_eq_left (by omega)

/-! ### Runs -/

/-- An id that is not busy changes nothing. -/
theorem step_recycle_none {id : ℕ} (hf : Assoc.find s.pool.busy id = none) :
    s.step (.recycleClient id) = some s := by
  simp only [step, ClientPool.recycleClient, hf]

theorem step_recycle_some {id o : ℕ} (hf : Assoc.find s.pool.busy id = some o) :
    s.step (.recycleClient id) = some
      { pool := { s.pool with busy := Assoc.erase s.pool.busy id, idle := Assoc.insert s.pool.idle id o }
        obj := Function.update s.obj o (s.obj o).reset
        out := s.out.erase o
        peak := max s.peak (Assoc.erase s.pool.busy id).length } := by
  simp only [step, ClientPool.recycleClient, hf]

/-- No event takes a client away. -/
theorem made_le_of_step {ev : Event} {t : ClientRun} (hs : s.step ev = some t) : s.pool.made ≤ t.pool.made := by
  cases ev with
  | getClient filename tryRecover =>
    simp only [step, Option.some.injEq] at hs
    subst hs
    show s.pool.made ≤ s.pool.getClient.1.made
    unfold ClientPool.getClient
    split
    · exact Nat.le_succ s.pool.made
    · exact Nat.le_refl s.pool.made
  | recycleClient id =>
    cases hf : Assoc.find s.pool.busy id with
    | none =>
      rw [step_recycle_none hf, Option.some.injEq] at hs
      rw [hs]
    | some o =>
      rw [step_recycle_some hf, Option.some.injEq] at hs
      rw [← hs]

theorem Sound.step (h : Sound s) (hm : s.pool.made < 2 ^ 32) {ev : Event} {t : ClientRun}
    (hs : s.step ev = some t) : Sound t := by
  cases ev with
  | getClient filename tryRecover =>
    simp only [ClientRun.step, Option.some.injEq] at hs
    rw [← hs]
    exact h.get (h.hands hm) _
  | recycleClient id =>
    cases hf : Assoc.find s.pool.busy id with
    | none =>
      rw [step_recycle_none hf, Option.some.injEq] at hs
      rwa [← hs]
    | some o =>
      rw [step_recycle_some hf, Option.some.injEq] at hs
      rw [← hs]
      exact h.recycle hf

theorem sound_of_reach (h : Trace.Reach step init s) (hm : s.pool.made < 2 ^ 32) : Sound s := by
  refine h.inv (I := fun s => s.pool.made < 2 ^ 32 → Sound s) (fun _ => sound_init) (fun s ev t ih hs ht => ?_) hm
  have hlt := (made_le_of_step hs).trans_lt ht
  exact (ih hlt).step hlt hs

/-- **The client pool.** In every state that `GetClient` and `RecycleClient` lead
to with fewer than `2^32` constructions, the two maps have no key in common
and together the keys below `global_id`; every client stands under its own
id and is in use exactly if it is busy; `GetClient` returns no client that
was returned and not recycled since; recycling an id that is not busy changes
nothing; and `global_id` is the largest number of clients that were busy at
one time. -/
theorem clients_accounted (h : Trace.Reach step init s) (hm : s.pool.made < 2 ^ 32) :
    (Disjoint (ClientPool.keys s.pool.idle) (ClientPool.keys s.pool.busy) ∧
      ClientPool.keys s.pool.idle ∪ ClientPool.keys s.pool.busy = Finset.range s.pool.globalId) ∧
    (∀ id o, Assoc.find s.pool.idle id = some o ∨ Assoc.find s.pool.busy id = some o → ClientPool.idOf o = id) ∧
    (∀ o, o < s.pool.made → ((s.obj o).inUse = true ↔ s.pool.Busy o)) ∧
    s.pool.getClient.2.1 ∉ s.out ∧
    (∀ id, id ∉ ClientPool.keys s.pool.busy → s.step (.recycleClient id) = some s) ∧
    s.pool.globalId = s.peak := by
  have hs := sound_of_reach h hm
  have hglobal : s.pool.globalId = s.pool.made := Nat.mod_eq_of_lt hm
  have hid : ∀ o, o < s.pool.made → ClientPool.idOf o = o := fun o ho => Nat.mod_eq_of_lt (ho.trans hm)
  have hnodup := List.nodup_append.mp hs.nodup
  refine ⟨⟨?_, ?_⟩, fun id o hf => ?_, fun o ho => ?_, (hs.hands hm).free, fun id hnot => ?_, ?_⟩
  · rw [Finset.disjoint_left]
    intro id hidle hbusy
    exact hnodup.2.2 id (List.mem_toFinset.mp hidle) id (List.mem_toFinset.mp hbusy) rfl
  · rw [hglobal]
    ext id
    rw [Finset.mem_union, Finset.mem_range, ClientPool.keys, ClientPool.keys, List.mem_toFinset, List.mem_toFinset,
      ← List.mem_append, hs.keys_perm.mem_iff, List.mem_range]
  · obtain ⟨heq, hlt⟩ := hs.entry (hf.imp Assoc.mem_of_find Assoc.mem_of_find)
    exact (hid o hlt).trans heq.symm
  · rw [hs.inUse o ho, ClientPool.Busy, hid o ho, hs.find_busy]
  · exact step_recycle_none (find_none fun hmem => hnot (List.mem_toFinset.mpr hmem))
  · rw [hglobal, hs.peak]

/-- Two clients at a time, three opens, and an id that nobody has. -/
theorem clients_accounted_two : ∃ s, Trace.Reach step init s ∧
    (s.out = [0, 1] ∧ s.pool.made = 2 ∧ (s.obj 0).closed = [['a']]) ∧ s.pool.globalId = s.peak ∧
    s.pool.getClient.2.1 ∉ s.out := by
  obtain ⟨s, hs, hp⟩ : ∃ s, Trace.Reach step init s ∧
      (s.out = [0, 1] ∧ s.pool.made = 2 ∧ (s.obj 0).closed = [['a']]) :=
    Trace.exists_reach_of_exec
      [.getClient ['a'] true, .recycleClient 7, .getClient ['b'] false, .recycleClient 0, .recycleClient 0,
        .getClient ['c'] true] (by decide)
  obtain ⟨-, -, -, hfree, -, hpeak⟩ := clients_accounted hs (by rw [hp.2.1]; decide)
  exact ⟨s, hs, hp, hpeak, hfree⟩

end ClientRun
end ComputeSideLog
