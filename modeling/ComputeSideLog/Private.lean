/-
# Every file has its own memory

`Reuse.lean` has clients, servers and writes in flight, where the regions of
closed files are used again. Seen from the files, a server should be a store
with one private memory for each file: opened zeroed, changed by the writes
posted for the file as they land, gone when the file is closed
(`Cell.apply`). In calm runs it is: one step of the network changes the file
that the step is about, as the store does, and no other (`step_contents`).
So the bytes that a server holds for a file are those that the messages and
writes for this file make, in their order, and no other client, file or
region has a part in them (`file_private`).

Key definitions: `Cell`, `Cell.apply`, `Net.contents`, `Net.effect`,
`Net.effects`.
Key theorems: `Net.step_contents`, `Net.file_private`.
-/
import ComputeSideLog.Lib.Product
import ComputeSideLog.Reuse

namespace ComputeSideLog

/-- What happens to one file at one server. -/
inductive Cell where
  | opened
  | closed
  | written (off len : ℕ) (src : Mem)

/-- The file's memory after it, `none` for a file that is not open. -/
def Cell.apply : Option Mem → Cell → Option Mem
  | none, .opened => some Mem.zero
  | some m, .opened => some m
  | _, .closed => none
  | m, .written off len src => m.map fun m => m.copy src off len

/-- What a message does to its file. -/
def Msg.cell {F : Type*} : Msg F → Cell
  | .connect .. => .opened
  | .openFile .. => .opened
  | .closeFile _ => .closed

namespace Net

variable {α F : Type*}

/-- What the servers hold for their files. -/
def contents (s : Net α F) (i : α × F) : Option Mem :=
  ((s.servers i.1).region i.2).map fun mr => (s.servers i.1).pool.mem mr.addr

/-- What a step does, and to which file. -/
def effect (s : Net α F) : NetEvent α F → List ((α × F) × Cell)
  | .land a i =>
    match (s.flight a)[i]? with
    | none => []
    | some o => (o.tag.file.map fun f => ((a, f), .written o.off o.len fun x => (o.buf x).getD 0)).toList
  | .serve a c _ =>
    match s.toServer c a with
    | [] => []
    | m :: _ => [((a, m.file), m.cell)]
  | _ => []

/-- Every entry of `local_cons` has a region. -/
def Filled (sv : Server F) : Prop := ∀ f con, sv.localCons f = some con → con.buffer.isSome = true

variable [DecidableEq F]

section Server

variable {sv : Server F} {r : Handled F} {fileId : F}

theorem filled_setCon (h : Filled sv) {con : LocalConData} (hcon : con.buffer.isSome = true) :
    Filled (sv.setCon fileId con) := by
  intro f con' hf
  by_cases hff : f = fileId
  · subst hff
    have hself : (sv.setCon f con).localCons f = some con := Function.update_self ..
    obtain rfl := Option.some.inj (hself.symm.trans hf)
    exact hcon
  · have hother : (sv.setCon fileId con).localCons f = sv.localCons f := Function.update_of_ne hff ..
    exact h f con' (hother ▸ hf)

theorem filled_incoming (h : Filled sv) {addr socket size : ℕ}
    (hr : sv.handleIncomingConnection addr socket fileId size = some r) : Filled r.server := by
  unfold Server.handleIncomingConnection at hr
  split at hr
  · split at hr
    · cases hr
    · cases hr
      exact filled_setCon (fun f con hf => h f con hf) rfl
  · rename_i con hf
    split at hr
    · cases hr
    · cases hr
      exact filled_setCon (fun f con hf => h f con hf) (h fileId con hf)

theorem filled_openFile (h : Filled sv) {addr socket size : ℕ} (hr : sv.openFile addr socket fileId size = some r) :
    Filled r.server := by
  unfold Server.openFile at hr
  split at hr
  · cases hr
    exact h
  · split at hr
    · split at hr
      · cases hr
      · cases hr
        exact filled_setCon (fun f con hf => h f con hf) rfl
    · cases hr
      exact h

theorem filled_closeFile (h : Filled sv) (hr : sv.closeFile fileId = some r) : Filled r.server := by
  rcases Server.closeFile_cases hr with ⟨-, hsv⟩ | ⟨mr, -, hsv⟩
  · exact hsv ▸ h
  · rw [hsv]
    intro f con hf
    by_cases hff : f = fileId
    · have hself : (sv.finalize fileId mr).localCons f = none := hff ▸ Function.update_self ..
      exact absurd (hself.symm.trans hf) (by simp)
    · have hother : (sv.finalize fileId mr).localCons f = sv.localCons f := Function.update_of_ne hff ..
      exact h f con (hother ▸ hf)

theorem filled_handle (h : Filled sv) {addr socket : ℕ} {m : Msg F} (hr : handle sv addr socket m = some r) :
    Filled r.server := by
  unfold Net.handle at hr
  cases m with
  | connect f size => exact filled_incoming h hr
  | openFile f size =>
    dsimp only at hr
    split at hr
    · exact filled_openFile h hr
    · cases hr
  | closeFile f =>
    dsimp only at hr
    split at hr
    · exact filled_closeFile h hr
    · cases hr

end Server

variable [DecidableEq α] {s t : Net α F}

/-- Steps other than a landing and a request served leave the servers alone. -/
theorem servers_step {e : NetEvent α F} (hs : s.step e = some t) (hland : ∀ a i, e ≠ .land a i)
    (hserve : ∀ a c addr, e ≠ .serve a c addr) : t.servers = s.servers := by
  cases e with
  | land a i => exact absurd rfl (hland a i)
  | serve a c addr => exact absurd rfl (hserve a c addr)
  | _ =>
    simp only [Net.step, addPeer, getClient, recvToken, setInUse, call, copy, load, ret, recycle, fetch] at hs
    repeat' split at hs
    all_goals cases hs
    all_goals rfl

/-! ### One step -/

/-- A write that lands changes the memory of its file and no other. -/
theorem land_contents (h : s.Steady) {a : α} {i : ℕ} (hs : s.land a i = some t) :
    t.contents = Product.run Cell.apply s.contents (s.effect (.land a i)) := by
  unfold Net.land at hs
  cases ho : (s.flight a)[i]? with
  | none => simp [ho] at hs
  | some o =>
    simp only [ho, Option.ite_none_right_eq_some, Option.some.injEq] at hs
    obtain ⟨-, rfl⟩ := hs
    obtain ⟨f, hfile, hreg, -⟩ := (h a).aimed o (List.mem_of_getElem? ho)
    obtain ⟨-, hkeep⟩ := (h a).owned.pool.write ⟨f, hreg⟩ (o.land ((s.servers a).pool.mem o.tag.mr.addr))
    have heffect : s.effect (.land a i) = [((a, f), .written o.off o.len fun x => (o.buf x).getD 0)] := by
      simp only [effect, ho, hfile, Option.map_some, Option.toList_some]
    rw [heffect]
    funext x
    obtain ⟨b, g⟩ := x
    show _ = Function.update s.contents (a, f) _ (b, g)
    by_cases hb : b = a
    · subst hb
      have hserver : (Function.update s.servers b (landed (s.servers b) o)) b = landed (s.servers b) o :=
        Function.update_self ..
      simp only [contents, hserver]
      by_cases hg : g = f
      · subst hg
        have hself : (landed (s.servers b) o).pool.mem o.tag.mr.addr =
            o.land ((s.servers b).pool.mem o.tag.mr.addr) := Function.update_self ..
        rw [Function.update_self]
        show ((s.servers b).region g).map _ = _
        rw [hreg, Option.map_some, hself]
        rfl
      · rw [Function.update_of_ne fun he => hg (Prod.mk.inj he).2]
        show ((s.servers b).region g).map _ = ((s.servers b).region g).map _
        refine Option.map_congr fun mr hmr => ?_
        refine hkeep mr ⟨g, hmr⟩ fun he => hg ?_
        exact (h b).owned.inj g f mr hmr (he ▸ hreg)
    · rw [Function.update_of_ne fun he => hb (Prod.mk.inj he).1]
      simp only [contents, Function.update_of_ne hb]

/-- What a served message does to the memories of its server. -/
theorem handle_contents {sv : Server F} (hown : sv.Owned) (hfill : Filled sv) {addr socket : ℕ}
    (hfresh : sv.pool.Unused addr) {m : Msg F} {r : Handled F} (hr : handle sv addr socket m = some r) (g : F) :
    (r.server.region g).map (fun mr => r.server.pool.mem mr.addr) =
      if g = m.file then
        Cell.apply ((sv.region g).map fun mr => sv.pool.mem mr.addr) m.cell
      else (sv.region g).map fun mr => sv.pool.mem mr.addr := by
  have hopened : ∀ f, Server.Opened sv r.server f → (r.server.region g).map (fun mr => r.server.pool.mem mr.addr) =
      if g = f then Cell.apply ((sv.region g).map fun mr => sv.pool.mem mr.addr) .opened
      else (sv.region g).map fun mr => sv.pool.mem mr.addr := by
    rintro f (⟨hsome, hreg, hpool⟩ | ⟨hnone, mr, hmr, hzero, hother⟩)
    · rw [hreg, hpool]
      split
      · rename_i hg
        subst hg
        obtain ⟨con, hcon⟩ := Option.isSome_iff_exists.mp hsome
        obtain ⟨mr, hmr⟩ := Option.isSome_iff_exists.mp (hfill g con hcon)
        have hregion : sv.region g = some mr := by rw [Server.region, hcon]; exact hmr
        rw [hregion]
        rfl
      · rfl
    · split
      · rename_i hg
        subst hg
        rw [hmr, Server.region_of_none hnone, Option.map_some, hzero]
        rfl
      · rename_i hg
        obtain ⟨hreg, hkeep⟩ := hother g hg
        rw [hreg]
        exact Option.map_congr fun b hb => hkeep b hb
  unfold Net.handle at hr
  cases m with
  | connect f size => exact hopened f (hown.incoming hfresh hr).2
  | openFile f size =>
    dsimp only at hr
    split at hr
    · rename_i hqp
      exact hopened f (hown.openFile hfresh hr hqp).2
    · cases hr
  | closeFile f =>
    dsimp only at hr
    split at hr
    · have hr : sv.closeFile f = some r := hr
      show _ = if g = f then Cell.apply _ .closed else _
      rcases Server.closeFile_cases hr with ⟨hnone, hsv⟩ | ⟨mr, hreg, hsv⟩
      · rw [hsv]
        split
        · rename_i hg
          rw [hg, Server.region_of_none hnone]
          rfl
        · rfl
      · obtain ⟨-, hkeep⟩ := hown.pool.recycleMR ⟨f, hreg⟩
        rw [hsv, Server.region_finalize]
        by_cases hg : g = f
        · rw [if_pos hg, if_pos hg]
          cases (sv.region g).map fun mr => sv.pool.mem mr.addr with
          | none => rfl
          | some m => rfl
        · rw [if_neg hg, if_neg hg]
          refine Option.map_congr fun b hb => ?_
          refine hkeep b ⟨g, hb⟩ fun he => hg ?_
          exact hown.inj g f mr (he ▸ hb) hreg
    · cases hr

/-- A served message changes the memory of its file and no other. -/
theorem serve_contents (h : s.Steady) (hfill : ∀ a, Filled (s.servers a)) {a : α} {c addr : ℕ}
    (hs : s.serve a c addr = some t) :
    t.contents = Product.run Cell.apply s.contents (s.effect (.serve a c addr)) ∧ ∀ a, Filled (t.servers a) := by
  unfold Net.serve at hs
  cases hq : s.toServer c a with
  | nil => simp [hq] at hs
  | cons m rest =>
    simp only [hq] at hs
    split at hs
    · rename_i hfresh
      cases hr : handle (s.servers a) addr c m with
      | none => simp [hr] at hs
      | some r =>
        simp only [hr, Option.some.injEq] at hs
        subst hs
        have heffect : s.effect (.serve a c addr) = [((a, m.file), m.cell)] := by simp only [effect, hq]
        refine ⟨?_, fun b => ?_⟩
        · rw [heffect]
          funext x
          obtain ⟨b, g⟩ := x
          show _ = Function.update s.contents (a, m.file) _ (b, g)
          by_cases hb : b = a
          · subst hb
            have hcell := handle_contents (h b).owned (hfill b) hfresh hr g
            simp only [contents, Function.update_self]
            rw [hcell]
            split
            · rename_i hg
              rw [hg, Function.update_self]
            · rename_i hg
              rw [Function.update_of_ne fun he => hg (Prod.mk.inj he).2]
              rfl
          · rw [Function.update_of_ne fun he => hb (Prod.mk.inj he).1]
            simp only [contents, Function.update_of_ne hb]
        · by_cases hb : b = a
          · subst hb
            simp only [Function.update_self]
            exact filled_handle (hfill b) hr
          · simp only [Function.update_of_ne hb]
            exact hfill b
    · cases hs

/-- **One step**: the memories change as the step says, each by what is done to its
file. -/
theorem step_contents (h : s.Steady) (hfill : ∀ a, Filled (s.servers a)) {e : NetEvent α F}
    (hs : s.step e = some t) :
    t.contents = Product.run Cell.apply s.contents (s.effect e) ∧ ∀ a, Filled (t.servers a) := by
  have hquiet : (∀ a i, e ≠ .land a i) → (∀ a c addr, e ≠ .serve a c addr) → s.effect e = [] →
      t.contents = Product.run Cell.apply s.contents (s.effect e) ∧ ∀ a, Filled (t.servers a) := by
    intro hland hserve heffect
    have hsv := servers_step hs hland hserve
    refine ⟨?_, fun a => hsv ▸ hfill a⟩
    rw [heffect]
    unfold contents
    rw [hsv]
    rfl
  cases e with
  | land a i =>
    refine ⟨land_contents h hs, fun b => ?_⟩
    have hs : s.land a i = some t := hs
    unfold Net.land at hs
    split at hs
    · cases hs
    · split at hs
      · cases hs
        by_cases hb : b = a
        · subst hb
          simp only [Function.update_self]
          exact hfill b
        · simp only [Function.update_of_ne hb]
          exact hfill b
      · cases hs
  | serve a c addr => exact serve_contents h hfill hs
  | _ => exact hquiet (by simp) (by simp) rfl

/-! ### Runs -/

/-- What the steps of a run do. -/
def effects : Net α F → List (NetEvent α F) → List ((α × F) × Cell)
  | _, [] => []
  | s, e :: es => s.effect e ++ (s.step e).elim [] fun t => effects t es

theorem exec_contents {es : List (NetEvent α F)} (h : s.Steady) (hfill : ∀ a, Filled (s.servers a))
    (hs : Trace.exec (Trace.restrict Calm step) s es = some t) :
    t.contents = Product.run Cell.apply s.contents (s.effects es) := by
  induction es generalizing s with
  | nil => exact Option.some.inj hs ▸ rfl
  | cons e es ih =>
    obtain ⟨u, hu, hs⟩ := Option.bind_eq_some_iff.mp hs
    obtain ⟨hcalm, he⟩ := Trace.restrict_eq_some.mp hu
    obtain ⟨hstep, hfill'⟩ := step_contents h hfill he
    rw [effects, he, Option.elim_some, Product.run_append, ← hstep]
    exact ih (h.step hcalm he) hfill' hs

/-- **Every file has its own memory.** In calm runs the bytes that a server holds
for a file are what the openings, the landed writes and the closings of this
file make of nothing, in their order; two calm runs in which these are the
same leave the same bytes, whatever they do to other files. -/
theorem file_private {es : List (NetEvent α F)} (hs : Trace.exec (Trace.restrict Calm step) init es = some s)
    (a : α) (f : F) :
    s.contents (a, f) = (Product.purge (a, f) (init.effects es)).foldl Cell.apply none ∧
      ∀ es' t, Trace.exec (Trace.restrict Calm step) init es' = some t →
        Product.purge (a, f) (init.effects es) = Product.purge (a, f) (init.effects es') →
        s.contents (a, f) = t.contents (a, f) := by
  have hsteady : (init : Net α F).Steady := fun _ => local_init
  have hfill : ∀ a, Filled ((init : Net α F).servers a) := fun a f con hf => absurd hf (by simp [init, Server.init])
  refine ⟨?_, fun es' t ht hsame => ?_⟩
  · rw [exec_contents hsteady hfill hs, Product.run_apply]
    rfl
  · rw [exec_contents hsteady hfill hs, exec_contents hsteady hfill ht]
    exact Product.noninterference rfl hsame

/-- Client 0 opens file 1 at server 0, writes to it and closes it. -/
def wroteFirst : List (NetEvent ℕ ℕ) :=
  [.construct 0 1 tiny 1, .addPeer 0 0, .serve 0 0 1, .recvToken 0 0, .setInUse 0, .call 0 (.append [7]),
    .fetch 0 0 0 16, .fetch 0 1 0 16, .land 0 0, .land 0 0, .ret 0, .recycle 0, .serve 0 0 2]

/-- Client 1 opens file 2 there. -/
def openedSecond : List (NetEvent ℕ ℕ) := [.construct 1 2 tiny 1, .addPeer 1 0, .serve 0 1 3, .recvToken 1 0]

/-- File 2 has the region that file 1 had, and the bytes that it has without it. -/
theorem file_private_reused : ∃ s t : Net ℕ ℕ,
    Trace.exec (Trace.restrict Calm step) init (wroteFirst ++ openedSecond) = some s ∧
      Trace.exec (Trace.restrict Calm step) init openedSecond = some t ∧ s.contents (0, 2) = t.contents (0, 2) := by
  obtain ⟨s, hs⟩ := Option.isSome_iff_exists.mp
    (show (Trace.exec (Trace.restrict Calm step) init (wroteFirst ++ openedSecond)).isSome = true by decide)
  obtain ⟨t, ht⟩ := Option.isSome_iff_exists.mp
    (show (Trace.exec (Trace.restrict Calm step) init openedSecond).isSome = true by decide)
  exact ⟨s, t, hs, ht, (file_private hs 0 2).2 openedSecond t ht rfl⟩

end Net
end ComputeSideLog
