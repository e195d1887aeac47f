/-
# How much memory is registered

Registered memory is what both sides run short of. The pool of regions makes
one only when none is free (`src/rdma/mr_pool.cc`), so a process that gives
back what it held has made as many as it ever held at one time, or as the
constructor made (`regions_peak`).

A server takes one region for each entry of `local_cons` and gives it back
when the file is closed (`src/rdma/server.cc`). Connections that end, and
processes that exit, leave their files open. As long as no `SYNC_PEER`
arrives, which the client has only in comments, no region is lost
(`Accounted`): the memory that is registered is the common size of the files
times the most that were open at one time (`registered_peak`).

Key definitions: `MrPool.Accounted`, `Ownership.openFiles`, `Ownership.Plain`.
Key theorems: `MrPool.Exclusive.count`, `PoolRun.regions_peak`,
`Ownership.registered_peak`.
-/
import Mathlib.Data.Set.Card
import ComputeSideLog.Lib.Peak
import ComputeSideLog.MrRuns
import ComputeSideLog.Ownership

namespace ComputeSideLog

/-! ### Regions in slots -/

namespace MrPool

/-- No region is lost: each that was made is free or in a slot. -/
structure Accounted {κ : Type*} (p : MrPool) (slot : κ → Option Mr) : Prop where
  nodup : p.made.Nodup
  found : ∀ b ∈ p.made, b ∈ p.freeMrs ∨ ∃ k, slot k = some b

variable {κ : Type*} {p q : MrPool} {slot : κ → Option Mr} {k : κ} {mr : Mr}

/-- The regions made are those in slots and the free ones. -/
theorem Exclusive.count (h : p.Exclusive slot) (ha : p.Accounted slot) :
    p.made.length = {k | (slot k).isSome = true}.ncard + p.freeMrs.length := by
  classical
  have hslots : {k | (slot k).isSome = true}.ncard = {b | ∃ k, slot k = some b}.ncard := by
    refine Set.ncard_congr (fun k hk => (slot k).get hk) (fun k hk => ⟨k, (Option.some_get hk).symm⟩)
      (fun k k' hk hk' he => ?_) fun b hb => ?_
    · refine h.inj k k' _ (Option.some_get hk).symm ?_
      rw [he]
      exact (Option.some_get hk').symm
    · obtain ⟨k, hk⟩ := hb
      exact ⟨k, by rw [Set.mem_ofPred_eq, hk]; rfl, by simp [hk]⟩
  have hlist : ∀ bs : List Mr, bs.Nodup → {b | b ∈ bs}.ncard = bs.length := fun bs hn => by
    rw [← List.toFinset_card_of_nodup hn, ← Set.ncard_coe_finset, List.coe_toFinset]
  have hunion : {b | b ∈ p.made} = {b | ∃ k, slot k = some b} ∪ {b | b ∈ p.freeMrs} := by
    ext b
    refine ⟨fun hb => (ha.found b hb).symm, ?_⟩
    rintro (hb | hb)
    · exact h.ok.held_made b hb
    · exact h.ok.free_made b hb
  have hfinite : {b | b ∈ p.made}.Finite := List.finite_toSet p.made
  rw [hunion] at hfinite
  have hapart : Disjoint {b | ∃ k, slot k = some b} {b | b ∈ p.freeMrs} :=
    Set.disjoint_left.mpr fun b hb hfree => h.ok.apart b hfree hb
  calc p.made.length = {b | b ∈ p.made}.ncard := (hlist _ ha.nodup).symm
    _ = {b | ∃ k, slot k = some b}.ncard + {b | b ∈ p.freeMrs}.ncard := by
        rw [hunion, Set.ncard_union_eq hapart (hfinite.subset Set.subset_union_left)
          (hfinite.subset Set.subset_union_right)]
    _ = _ := by rw [hslots, hlist _ h.ok.nodup]

variable [DecidableEq κ]

/-- An empty slot gets a region. -/
theorem Accounted.take (h : p.Accounted slot) (hk : slot k = none) {size addr : ℕ} (hfresh : p.Unused addr)
    (hget : p.getMRofSize size addr = some (q, mr)) : q.Accounted (Function.update slot k (some mr)) := by
  have hkeep : ∀ b, (∃ k', slot k' = some b) → ∃ k', Function.update slot k (some mr) k' = some b := by
    rintro b ⟨k', hb⟩
    have hne : k' ≠ k := by
      rintro rfl
      rw [hk] at hb
      cases hb
    exact ⟨k', (Function.update_of_ne hne _ _).trans hb⟩
  have hmr : ∃ k', Function.update slot k (some mr) k' = some mr := ⟨k, Function.update_self _ _ _⟩
  rcases getMRofSize_cases hget with ⟨hnil, rfl, rfl⟩ | ⟨hmem, -, rfl⟩
  · refine ⟨List.nodup_cons.mpr ⟨fun hm => hfresh _ hm rfl, h.nodup⟩, fun b hb => .inr ?_⟩
    rcases List.mem_cons.mp hb with rfl | hb
    · exact hmr
    · refine hkeep b ((h.found b hb).resolve_left ?_)
      rw [hnil]
      exact List.not_mem_nil
  · refine ⟨h.nodup, fun b hb => ?_⟩
    rcases h.found b hb with hfree | hslot
    · by_cases hbm : b = mr
      · exact .inr (hbm ▸ hmr)
      · exact .inl ((List.mem_erase_of_ne hbm).mpr hfree)
    · exact .inr (hkeep b hslot)

/-- The region of a slot goes back. -/
theorem Accounted.release (h : p.Accounted slot) (hk : slot k = some mr) :
    (p.recycleMR mr).Accounted (Function.update slot k none) := by
  refine ⟨h.nodup, fun b hb => ?_⟩
  rcases h.found b hb with hfree | ⟨k', hk'⟩
  · exact .inl (mem_insertMr.mpr (.inr hfree))
  · by_cases hkk : k' = k
    · subst hkk
      exact .inl (mem_insertMr.mpr (.inl (Option.some.inj (hk'.symm.trans hk))))
    · exact .inr ⟨k', (Function.update_of_ne hkk _ _).trans hk'⟩

theorem made_preallocate (mrSize : ℕ) (addrs : List ℕ) : (preallocate mrSize addrs).made.length = addrs.length := by
  have hfold : ∀ (addrs : List ℕ) (p : MrPool),
      (addrs.foldl (allocate mrSize) p).made.length = p.made.length + addrs.length := by
    intro addrs
    induction addrs with
    | nil => exact fun _ => rfl
    | cons addr addrs ih =>
      intro p
      rw [List.foldl_cons, ih, List.length_cons]
      show p.made.length + 1 + addrs.length = _
      omega
  calc (preallocate mrSize addrs).made.length = 0 + addrs.length := hfold addrs empty
    _ = addrs.length := Nat.zero_add _

end MrPool

/-! ### A process -/

namespace PoolRun

variable {s : PoolRun} {n : ℕ}

theorem thrifty : Trace.Thrifty (Trace.restrict HeldOnly step) Split (fun s => s.pool.made.length)
    fun s => s.held.length where
  held_le s h := by
    show s.held.length ≤ s.pool.made.length
    rw [h.perm.length_eq, List.length_append]
    omega
  step s e t h h' hst := by
    show t.pool.made.length = s.pool.made.length ∨
      (t.pool.made.length = s.pool.made.length + 1 ∧ t.held.length = t.pool.made.length)
    rw [Trace.restrict, Option.ite_none_right_eq_some] at hst
    rcases step_cases hst.2 with ⟨size, addr, mr, -, -, hget, hheld⟩ | ⟨mr, -, -, rfl⟩ | ⟨mr, m, -, -, rfl⟩
    · rcases MrPool.getMRofSize_cases hget with ⟨hnil, -, hp⟩ | ⟨-, -, hp⟩
      · -- a new region: the free ones were and are none
        have hlen := h'.perm.length_eq
        rw [hp, List.length_append, hnil, List.length_nil] at hlen
        right
        rw [hp]
        exact ⟨rfl, by rw [hlen]; rfl⟩
      · rw [hp]
        exact .inl rfl
    · exact .inl rfl
    · exact .inl rfl

/-- **A process registers as much as it held at one time**, or as the constructor
did. -/
theorem regions_peak {mrSize : ℕ} {addrs : List ℕ} (hn : addrs.Nodup)
    (h : Trace.ReachPeak (Trace.restrict HeldOnly step) (fun s => s.held.length) (init mrSize addrs) s n) :
    s.pool.made.length = max addrs.length n := by
  have hsplit : ∀ s, Trace.Reach (Trace.restrict HeldOnly step) (init mrSize addrs) s → Split s := fun s hs =>
    hs.inv_restrict (I := Split) (split_init mrSize hn) fun s ev t hs hok hst => hs.step hok hst
  exact (Trace.ReachPeak.made_eq thrifty hsplit h).trans (congrArg (max · n) (MrPool.made_preallocate mrSize addrs))

end PoolRun

/-! ### A server -/

namespace Ownership

variable {F : Type*} {size : ℕ} {s t : Ownership F}

/-- How many files have an entry. -/
noncomputable def openFiles (s : Ownership F) : ℕ := {f | (s.server.localCons f).isSome = true}.ncard

/-- The event is no `SYNC_PEER` and no `SYNC_PEER_DONE`. -/
def Plain (_ : Ownership F) : Event F → Prop
  | .request _ _ type _ => type ≠ .syncPeer ∧ type ≠ .syncPeerDone
  | _ => True

instance (s : Ownership F) : ∀ e, Decidable (Plain s e)
  | .request _ _ _ _ => instDecidableAnd
  | .connect _ _ _ => instDecidableTrue
  | .hangUp _ => instDecidableTrue

/-- What a server keeps that gets no `SYNC_PEER`: no region is lost. -/
structure Tight (size : ℕ) (s : Ownership F) : Prop where
  inv : Inv size s
  accounted : s.server.pool.Accounted s.server.region

/-- The regions of the files are slots of their own. -/
theorem Inv.exclusive (h : Inv size s) : s.server.pool.Exclusive s.server.region where
  ok := h.slots.ok.mono fun _ ⟨f, hf⟩ => ⟨(f, false), hf⟩
  inj f g b hf hg := (Prod.mk.inj (h.slots.inj (f, false) (g, false) b hf hg)).1

theorem Inv.region_isSome (h : Inv size s) (f : F) :
    (s.server.region f).isSome = true ↔ (s.server.localCons f).isSome = true := by
  unfold Server.region
  cases hf : s.server.localCons f with
  | none => rfl
  | some con =>
    obtain ⟨mr, hmr, -⟩ := h.entry f con hf
    simp [hmr]

theorem Tight.count (h : Tight size s) :
    s.server.pool.made.length = s.openFiles + s.server.pool.freeMrs.length := by
  have hopen : {f | (s.server.region f).isSome = true} = {f | (s.server.localCons f).isSome = true} :=
    Set.ext h.inv.region_isSome
  rw [h.inv.exclusive.count h.accounted, hopen]
  rfl

variable [DecidableEq F]

/-! ### What a handler does to the regions -/

/-- The server has kept its regions, or it has taken one for a file that had none,
or closed a file. -/
inductive Moves (s t : Server F) : Prop where
  | same : t.pool.made = s.pool.made → t.pool.freeMrs = s.pool.freeMrs → t.region = s.region → Moves s t
  | take (fileId : F) (size addr : ℕ) (pool : MrPool) (mr : Mr) : s.region fileId = none → s.pool.Unused addr →
      s.pool.getMRofSize size addr = some (pool, mr) → t.pool.made = pool.made → t.pool.freeMrs = pool.freeMrs →
      t.region = Function.update s.region fileId (some mr) → Moves s t
  | close (fileId : F) (mr : Mr) : s.region fileId = some mr → t.pool.made = s.pool.made →
      t.pool.freeMrs = MrPool.insertMr mr s.pool.freeMrs → t.region = Function.update s.region fileId none → Moves s t

theorem region_bind_eq (s : Server F) (fileId : F) (socket : ℕ) (pool : MrPool) (mr : Mr) :
    (s.bind fileId socket pool mr).region = Function.update s.region fileId (some mr) := by
  funext g
  rw [Server.region_bind, Function.update_apply]

theorem region_finalize_eq (s : Server F) (fileId : F) (mr : Mr) :
    (s.finalize fileId mr).region = Function.update s.region fileId none := by
  funext g
  rw [Server.region_finalize, Function.update_apply]

theorem moves_connect {s : Server F} {addr socket size : ℕ} {fileId : F} (hfresh : s.pool.Unused addr) {r : Handled F}
    (hr : s.handleIncomingConnection addr socket fileId size = some r) : Moves s r.server := by
  unfold Server.handleIncomingConnection at hr
  split at hr
  · rename_i hf
    split at hr
    · cases hr
    · rename_i pool mr hget
      cases hr
      exact .take fileId size addr pool mr (Server.region_of_none hf) hfresh hget rfl rfl
        (region_bind_eq { s with existingQps := s.existingQps.insert socket } fileId socket _ mr)
  · rename_i con hf
    split at hr
    · cases hr
    · cases hr
      exact .same rfl rfl (Server.region_setCon (s := { s with existingQps := _ }) hf rfl)

theorem moves_request {s : Server F} {addr socket : ℕ} {req : ClientReq F} (hfresh : s.pool.Unused addr)
    (hplain : req.type ≠ .syncPeer ∧ req.type ≠ .syncPeerDone) {r : Handled F}
    (hr : s.handleClientRequest addr socket req = some r) : Moves s r.server := by
  obtain ⟨type, fileId, size⟩ := req
  cases type with
  | openFile =>
    have hr : s.openFile addr socket fileId size = some r := hr
    unfold Server.openFile at hr
    split at hr
    · cases hr
      exact .same rfl rfl rfl
    · rename_i hf
      split at hr
      · split at hr
        · cases hr
        · rename_i pool mr hget
          cases hr
          exact .take fileId size addr pool mr (Server.region_of_none hf) hfresh hget rfl rfl
            (region_bind_eq s fileId socket pool mr)
      · cases hr
        exact .same rfl rfl rfl
  | closeFile =>
    rcases Server.closeFile_cases hr with ⟨-, he⟩ | ⟨mr, hmr, he⟩
    · rw [he]
      exact .same rfl rfl rfl
    · rw [he]
      exact .close fileId mr hmr rfl rfl (region_finalize_eq s fileId mr)
  | exitProc =>
    cases hr
    exact .same rfl rfl rfl
  | getInfo =>
    have hr : s.answerInfo fileId = some r := hr
    unfold Server.answerInfo at hr
    split at hr
    · cases hr
    · split at hr
      · cases hr
      · cases hr
        exact .same rfl rfl rfl
  | syncPeer => exact absurd rfl hplain.1
  | syncPeerDone => exact absurd rfl hplain.2
  | unknown =>
    cases hr
    exact .same rfl rfl rfl

/-- Such a step loses no region. -/
theorem accounted_moves {s t : Server F} (h : s.pool.Accounted s.region) (hm : Moves s t) :
    t.pool.Accounted t.region := by
  cases hm with
  | same hmade hfree hregion => exact ⟨hmade ▸ h.nodup, by rw [hmade, hfree, hregion]; exact h.found⟩
  | take fileId size addr pool mr hnone hfresh hget hmade hfree hregion =>
    have hpool := h.take hnone hfresh hget
    exact ⟨hmade ▸ hpool.nodup, by rw [hmade, hfree, hregion]; exact hpool.found⟩
  | close fileId mr hmr hmade hfree hregion =>
    have hpool := h.release hmr
    exact ⟨hmade ▸ hpool.nodup, by rw [hmade, hfree, hregion]; exact hpool.found⟩

/-- It makes a region only if none is free. -/
theorem made_moves {s t : Server F} (hm : Moves s t) : t.pool.made.length = s.pool.made.length ∨
    (t.pool.made.length = s.pool.made.length + 1 ∧ t.pool.freeMrs = []) := by
  cases hm with
  | same hmade _ _ => exact .inl (congrArg List.length hmade)
  | take fileId size addr pool mr _ _ hget hmade hfree _ =>
    rw [hmade, hfree]
    rcases MrPool.getMRofSize_cases hget with ⟨hnil, -, rfl⟩ | ⟨-, -, rfl⟩
    · exact .inr ⟨rfl, hnil⟩
    · exact .inl rfl
  | close fileId mr _ hmade _ _ => exact .inl (congrArg List.length hmade)

/-- What a plain event does. -/
theorem moves_step {e : Event F} (hp : Plain s e) (hs : s.step size e = some t) : Moves s.server t.server := by
  cases e with
  | connect addr socket fileId =>
    simp only [step, Option.ite_none_right_eq_some, Option.map_eq_some_iff] at hs
    obtain ⟨hfresh, r, hr, rfl⟩ := hs
    exact moves_connect hfresh hr
  | request addr socket type fileId =>
    simp only [step, Option.ite_none_right_eq_some, Option.map_eq_some_iff] at hs
    obtain ⟨⟨hfresh, -⟩, r, hr, rfl⟩ := hs
    -- which sockets are polled does not matter to the regions
    have hmoves : Moves s.server r.server := by
      refine moves_request hfresh ?_ hr
      exact hp
    cases hmoves with
    | same hmade hfree hregion => exact .same hmade hfree hregion
    | take fileId size addr pool mr hnone hfresh hget hmade hfree hregion =>
      exact .take fileId size addr pool mr hnone hfresh hget hmade hfree hregion
    | close fileId mr hmr hmade hfree hregion => exact .close fileId mr hmr hmade hfree hregion
  | hangUp socket =>
    cases hs
    exact .same rfl rfl rfl

theorem Tight.step (h : Tight size s) {e : Event F} (hp : Plain s e) (hs : s.step size e = some t) : Tight size t := by
  obtain ⟨t', ht, hinv⟩ := h.inv.step (possible_of_step hs)
  obtain rfl : t' = t := Option.some.inj (ht.symm.trans hs)
  exact ⟨hinv, accounted_moves h.accounted (moves_step hp hs)⟩

omit [DecidableEq F] in
theorem tight_init (size : ℕ) : Tight size (init .empty : Ownership F) :=
  ⟨inv_init MrPool.ok_empty (by simp [MrPool.empty]), List.nodup_nil, by simp [init, MrPool.empty]⟩

theorem thrifty (size : ℕ) : Trace.Thrifty (Trace.restrict Plain (step size)) (Tight (F := F) size)
    (fun s => s.server.pool.made.length) openFiles where
  held_le s h := by
    show s.openFiles ≤ s.server.pool.made.length
    rw [h.count]
    exact Nat.le_add_right _ _
  step s e t _ h' hst := by
    rw [Trace.restrict, Option.ite_none_right_eq_some] at hst
    rcases made_moves (moves_step hst.1 hst.2) with hmade | ⟨hnew, hfree⟩
    · exact .inl hmade
    · have hcount := h'.count
      rw [hfree, List.length_nil, Nat.add_zero] at hcount
      exact .inr ⟨hnew, hcount.symm⟩

/-- **A server registers as much as was open at one time.** Whatever connects,
opens, closes, asks, exits or disappears, in whatever order, the registered
memory is the size of a file times the most files that were ever open
together. -/
theorem registered_peak {n : ℕ}
    (h : Trace.ReachPeak (Trace.restrict Plain (step size)) openFiles (init .empty : Ownership F) s n) :
    (s.server.pool.made.map Mr.size).sum = n * size := by
  have htight : ∀ s, Trace.Reach (Trace.restrict Plain (step size)) (init .empty : Ownership F) s → Tight size s :=
    fun s hs => hs.inv_restrict (I := Tight size) (tight_init size) fun s ev t hs hok hst => hs.step hok hst
  have hlen : s.server.pool.made.length = n :=
    (Trace.ReachPeak.made_eq (thrifty size) htight h).trans (Nat.zero_max n)
  have hsizes : ∀ b ∈ s.server.pool.made, b.size = size := (htight s h.reach).inv.sizes
  calc (s.server.pool.made.map Mr.size).sum = (s.server.pool.made.map fun _ => size).sum := by
        rw [List.map_congr_left hsizes]
    _ = n * size := by simp [hlen]

/-- Two clients open a file each, the first one exits without closing it, a third
file is opened and closed and its region is used again. -/
theorem registered_peak_three : ∃ s : Ownership ℕ,
    Trace.ReachPeak (Trace.restrict Plain (step 16)) openFiles (init .empty) s 3 ∧
      s.server.pool.freeMrs = [] ∧ (s.server.pool.made.map Mr.size).sum = 3 * 16 := by
  obtain ⟨s, hs, hp⟩ : ∃ s : Ownership ℕ, Trace.Reach (Trace.restrict Plain (step 16)) (init .empty) s ∧
      s.server.pool.freeMrs = [] ∧ (s.server.pool.made.map Mr.size).sum = 48 :=
    Trace.exists_reach_of_exec
      [.connect 0 5 0, .connect 1 6 1, .request 2 5 .exitProc 0, .hangUp 5, .connect 2 7 2, .request 3 7 .getInfo 2,
        .request 3 7 .closeFile 2, .request 3 6 .closeFile 9, .request 3 6 .openFile 3] (by decide)
  obtain ⟨n, hn⟩ := hs.exists_peak openFiles
  have hsum := registered_peak hn
  obtain rfl : n = 3 := by omega
  exact ⟨s, hn, hp.1, hsum⟩

end Ownership
end ComputeSideLog
