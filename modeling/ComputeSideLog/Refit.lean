/-
# Clients for files of another size

The trailer of a client is placed by four fields: `buffer`, `buf_size`,
`seq_offset` and `seq_addr`, a pointer into the buffer. `init` sets all of
them. A client that `GetClient` takes from the idle ones
(`src/client_pool.cc`) only gets a new `buffer`, if the old one is too small
(`ReplaceBuffer`), and a new `buf_size` (`SetFileInfo`): `seq_offset` and
`seq_addr` stay where the constructor put them, the pointer in a buffer that
may have gone back to the pool.

The file's name and `try_recover` do not touch these fields, nor do the log
operations and `Reset`. What `GetMRofSize` returns is an argument: a region
that no client holds, at least as large as asked for.

Key definitions: `TrailerFields`, `TrailerFields.InPlace`, `Refit.step`,
`Refit.Fitted`, `Refit.SameSize`.
Key theorems: `TrailerFields.InPlace.sent`, `TrailerFields.refit_iff`,
`Refit.fitted_clients`.
-/
import ComputeSideLog.Lib.Trace
import ComputeSideLog.ClientPool
import ComputeSideLog.MrPool
import ComputeSideLog.Ops

namespace ComputeSideLog

/-- The fields that place the trailer; `seq_addr` points to a position of the
region with the given address. -/
structure TrailerFields where
  buffer : Mr
  bufSize : ℕ
  seqOffset : ℕ
  seqAddr : ℕ × ℕ
  deriving DecidableEq, Repr

namespace TrailerFields

/-- `init`, on the region `mr`. -/
def init (mr : Mr) (size : ℕ) : TrailerFields :=
  ⟨mr, size, subSize size seqWidth, (mr.addr, subSize size seqWidth)⟩

/-- `ReplaceBuffer`, where `mr` is what `GetMRofSize` would return. -/
def replaceBuffer (t : TrailerFields) (size : ℕ) (mr : Mr) : TrailerFields :=
  if size ≤ t.buffer.size then t else { t with buffer := mr }

/-- `SetFileInfo`. -/
def setFileInfo (t : TrailerFields) (size : ℕ) : TrailerFields := { t with bufSize := size }

/-- The regions after `Append` or `WritePos` stored the number `v` through
`seq_addr`. -/
def storeSeq (t : TrailerFields) (mem : ℕ → Mem) (v : ℕ) : ℕ → Mem :=
  Function.update mem t.seqAddr.1 ((mem t.seqAddr.1).putLE t.seqAddr.2 seqWidth v)

/-- The trailer that `WriteQuorum` sends, from `seq_offset` of the buffer. -/
def sentSeq (t : TrailerFields) (mem : ℕ → Mem) : ℕ := (mem t.buffer.addr).getLE t.seqOffset seqWidth

/-- The four fields fit together for a file of the given size. -/
structure InPlace (t : TrailerFields) (size : ℕ) : Prop where
  bufSize : t.bufSize = size
  fits : t.bufSize ≤ t.buffer.size
  offset : t.seqOffset = t.bufSize - seqWidth
  addr : t.seqAddr = (t.buffer.addr, t.seqOffset)

/-- The fields of a client whose buffer is the region at `addr`. -/
def ofClient (c : Client) (addr : ℕ) : TrailerFields :=
  ⟨⟨addr, c.buffer.size⟩, c.bufSize, c.seqOffset, (addr, c.seqAddr)⟩

/-- The constructor and the reuse of a large enough buffer are those of the
client; only a replaced buffer leaves the pointer in another region. -/
theorem ofClient_init (b : Buffer) (size addr : ℕ) :
    ofClient (Client.init b size) addr = init ⟨addr, b.size⟩ size := rfl

theorem ofClient_reuse {c : Client} {size : ℕ} (h : size ≤ c.buffer.size) (b : Buffer) (mr : Mr) (addr : ℕ) :
    ofClient ((c.replaceBuffer size b).setFileInfo size) addr =
      ((ofClient c addr).replaceBuffer size mr).setFileInfo size := by
  unfold Client.replaceBuffer replaceBuffer
  rw [if_pos h, if_pos (show size ≤ (ofClient c addr).buffer.size from h)]
  rfl

/-- Fields in place are what the log operations count on. -/
theorem InPlace.wf {c : Client} {addr size : ℕ} (h : (ofClient c addr).InPlace size) (hs : seqWidth ≤ size) :
    c.Wf := by
  have haddr : c.seqAddr = c.seqOffset := (Prod.mk.inj h.addr).2
  have hsize : c.bufSize = size := h.bufSize
  have hfits : c.bufSize ≤ c.buffer.size := h.fits
  have hoff : c.seqOffset = c.bufSize - seqWidth := h.offset
  exact ⟨haddr, by omega⟩

/-- With the fields in place, what is sent is what was stored. -/
theorem InPlace.sent {t : TrailerFields} {size : ℕ} (h : t.InPlace size) (mem : ℕ → Mem) (v : ℕ) :
    t.sentSeq (t.storeSeq mem v) = v % 2 ^ 64 := by
  unfold sentSeq storeSeq
  rw [h.addr, Function.update_self, Mem.getLE_putLE]
  norm_num [seqWidth]

theorem inPlace_init {mr : Mr} {size : ℕ} (h8 : seqWidth ≤ size) (hlt : size < 2 ^ 64) (hmr : size ≤ mr.size) :
    (init mr size).InPlace size :=
  ⟨rfl, hmr, subSize_of_le h8 hlt, rfl⟩

/-- A client in place for one size is in place for the next one, after
`ReplaceBuffer` and `SetFileInfo`, if and only if the two are the same. -/
theorem refit_iff {t : TrailerFields} {size size' : ℕ} (mr : Mr) (h : t.InPlace size) (h8 : seqWidth ≤ size)
    (h8' : seqWidth ≤ size') :
    ((t.replaceBuffer size' mr).setFileInfo size').InPlace size' ↔ size = size' := by
  have hoff : ((t.replaceBuffer size' mr).setFileInfo size').seqOffset = size - seqWidth := by
    rw [← h.bufSize, ← h.offset]
    unfold replaceBuffer setFileInfo
    split <;> rfl
  constructor
  · intro h'
    have hnew := h'.offset
    rw [hoff] at hnew
    change size - seqWidth = size' - seqWidth at hnew
    omega
  · rintro rfl
    have hkeep : (t.replaceBuffer size mr).setFileInfo size = t := by
      unfold replaceBuffer setFileInfo
      rw [if_pos (h.bufSize ▸ h.fits), ← h.bufSize]
    rw [hkeep]
    exact h

end TrailerFields

/-! ### The pool's clients -/

/-- The clients of a pool: their fields and the size each was constructed for,
by object, and what the last step was if it was `GetClient`: the object it
returned and the size asked for. -/
structure Refit where
  pool : ClientPool
  fields : ℕ → Option TrailerFields
  asked : ℕ → ℕ
  last : Option (ℕ × ℕ)

namespace Refit

/-- The two calls of the pool. -/
inductive Event where
  | getClient (size : ℕ) (mr : Mr)
  | recycleClient (id : ℕ)
  deriving DecidableEq, Repr

/-- No client has been constructed. -/
def init : Refit := ⟨.empty, fun _ => none, fun _ => 0, none⟩

/-- No client's buffer is at the address. -/
def Unheld (s : Refit) (addr : ℕ) : Prop := ∀ o, o < s.pool.made → ∀ t ∈ s.fields o, t.buffer.addr ≠ addr

instance (s : Refit) (addr : ℕ) : Decidable (s.Unheld addr) :=
  inferInstanceAs (Decidable (∀ o, o < s.pool.made → ∀ t ∈ s.fields o, t.buffer.addr ≠ addr))

/-- What `GetMRofSize` may return for a size of type `size_t`. -/
def Handed (s : Refit) (size : ℕ) (mr : Mr) : Prop :=
  (16 ≤ size ∧ size < 2 ^ 64) ∧ size ≤ mr.size ∧ s.Unheld mr.addr

instance (s : Refit) (size : ℕ) (mr : Mr) : Decidable (s.Handed size mr) := instDecidableAnd

/-- `GetClient`: a new client, an idle one refitted, or the busy client that
already has the id of the new one. -/
def getClient (s : Refit) (size : ℕ) (mr : Mr) : Option Refit :=
  match s.pool.getClient with
  | (pool, o, .created) =>
    some ⟨pool, Function.update s.fields o (some (.init mr size)), Function.update s.asked o size,
      some (o, size)⟩
  | (pool, o, .reused) =>
    (s.fields o).map fun t =>
      { s with
        pool
        fields := Function.update s.fields o (some ((t.replaceBuffer size mr).setFileInfo size))
        last := some (o, size) }
  | (pool, o, .clash) => some { s with pool, last := some (o, size) }

/-- One call. -/
def step (s : Refit) : Event → Option Refit
  | .getClient size mr => if s.Handed size mr then s.getClient size mr else none
  | .recycleClient id => some { s with pool := (s.pool.recycleClient id).1, last := none }

/-- The client that `GetClient` has just returned is in place for its file, so
the trailer sent is the number stored. -/
def Fitted (s : Refit) : Prop := ∀ o size, s.last = some (o, size) →
  ∃ t, s.fields o = some t ∧ t.InPlace size ∧ ∀ mem v, t.sentSeq (t.storeSeq mem v) = v % 2 ^ 64

/-- A client that is handed out again was constructed for the size now asked
for. It is the first idle one, or, when the counter of ids has come round,
the busy one that has the next id. -/
def SameSize (s : Refit) : Event → Prop
  | .getClient size _ =>
    match s.pool.idle with
    | [] => ∀ o ∈ Assoc.find s.pool.busy (ClientPool.idOf s.pool.made), s.asked o = size
    | e :: _ => s.asked e.2 = size
  | .recycleClient _ => True

instance (s : Refit) : ∀ e, Decidable (s.SameSize e)
  | .recycleClient _ => instDecidableTrue
  | .getClient size _ =>
    match h : s.pool.idle with
    | [] =>
      decidable_of_iff (∀ o ∈ Assoc.find s.pool.busy (ClientPool.idOf s.pool.made), s.asked o = size)
        (by simp only [SameSize, h])
    | e :: _ => decidable_of_iff (s.asked e.2 = size) (by simp only [SameSize, h])

/-- Every client of the pool is in place for the size it was constructed for. -/
def Sized (s : Refit) : Prop := ∀ e, e ∈ s.pool.idle ∨ e ∈ s.pool.busy →
  e.2 < s.pool.made ∧ 16 ≤ s.asked e.2 ∧ ∃ t, s.fields e.2 = some t ∧ t.InPlace (s.asked e.2)

theorem sized_init : init.Sized := by
  rintro e (he | he)
  · cases he
  · cases he

variable {s t : Refit}

/-- A pool with fewer entries, or entries of the same clients. -/
theorem Sized.shift (h : s.Sized) (pool : ClientPool) (hmade : s.pool.made ≤ pool.made)
    (hmem : ∀ e, e ∈ pool.idle ∨ e ∈ pool.busy → ∃ e', e'.2 = e.2 ∧ (e' ∈ s.pool.idle ∨ e' ∈ s.pool.busy))
    (last : Option (ℕ × ℕ)) : Sized { s with pool, last } := by
  intro e he
  obtain ⟨e', heq, he'⟩ := hmem e he
  obtain ⟨hlt, h16, ht⟩ := h e' he'
  rw [heq] at hlt h16 ht
  exact ⟨hlt.trans_le hmade, h16, ht⟩

theorem Sized.recycleClient (h : s.Sized) (id : ℕ) :
    Sized { s with pool := (s.pool.recycleClient id).1, last := none } := by
  unfold ClientPool.recycleClient
  cases hfind : Assoc.find s.pool.busy id with
  | none => exact h.shift s.pool le_rfl (fun e he => ⟨e, rfl, he⟩) none
  | some o =>
    refine h.shift ⟨Assoc.insert s.pool.idle id o, Assoc.erase s.pool.busy id, s.pool.made⟩ le_rfl
      (fun e he => ?_) none
    rcases he with he | he
    · rcases Assoc.mem_insert he with rfl | he
      · exact ⟨(id, o), rfl, .inr (Assoc.mem_of_find hfind)⟩
      · exact ⟨e, rfl, .inl he⟩
    · exact ⟨e, rfl, .inr (List.mem_of_mem_filter he)⟩

/-- A new client is in place; the others are not touched. -/
theorem Sized.create (h : s.Sized) {size : ℕ} {mr : Mr} (hh : s.Handed size mr) (hi : s.pool.idle = [])
    (hn : Assoc.find s.pool.busy (ClientPool.idOf s.pool.made) = none) :
    ∃ u, s.getClient size mr = some u ∧ u.Sized ∧ u.Fitted := by
  obtain ⟨⟨h16, hlt⟩, hle, -⟩ := hh
  have hplace := TrailerFields.inPlace_init (h16.trans' (by decide)) hlt hle
  unfold getClient ClientPool.getClient
  rw [hi, hn]
  refine ⟨_, rfl, fun e he => ?_, fun o size' hlast => ?_⟩
  · rcases he with he | he
    · cases he
    · rcases Assoc.mem_insert he with rfl | he
      · refine ⟨Nat.lt_succ_self _, ?_, .init mr size, Function.update_self _ _ _, ?_⟩
        · show 16 ≤ Function.update s.asked s.pool.made size s.pool.made
          rwa [Function.update_self]
        · show (TrailerFields.init mr size).InPlace (Function.update s.asked s.pool.made size s.pool.made)
          rwa [Function.update_self]
      · obtain ⟨hmade, hask, ht⟩ := h e (.inr he)
        have hne : e.2 ≠ s.pool.made := hmade.ne
        show e.2 < s.pool.made + 1 ∧ 16 ≤ Function.update s.asked s.pool.made size e.2 ∧
          ∃ t, Function.update s.fields s.pool.made _ e.2 = some t ∧
            t.InPlace (Function.update s.asked s.pool.made size e.2)
        rw [Function.update_of_ne hne, Function.update_of_ne hne]
        exact ⟨Nat.lt_succ_of_lt hmade, hask, ht⟩
  · obtain ⟨rfl, rfl⟩ := Prod.mk.inj (Option.some.inj hlast)
    exact ⟨_, Function.update_self _ _ _, hplace, hplace.sent⟩

/-- An idle client is refitted: it is in place if and only if the size is that of
its construction, and then its fields are what they were. -/
theorem Sized.reuse (h : s.Sized) {size : ℕ} {mr : Mr} (hh : s.Handed size mr) {e : ℕ × ℕ}
    {rest : List (ℕ × ℕ)} (hi : s.pool.idle = e :: rest) :
    ∃ u, s.getClient size mr = some u ∧ (u.Fitted ↔ s.asked e.2 = size) ∧ (s.asked e.2 = size → u.Sized) := by
  obtain ⟨hmade, h16, t, ht, hplace⟩ := h e (.inl (hi ▸ List.mem_cons_self))
  have h8 : seqWidth ≤ s.asked e.2 := h16.trans' (by decide)
  have h8' : seqWidth ≤ size := hh.1.1.trans' (by decide)
  have hiff := TrailerFields.refit_iff mr hplace h8 h8'
  unfold getClient ClientPool.getClient
  rw [hi]
  dsimp only
  rw [ht, Option.map_some]
  refine ⟨_, rfl, ⟨fun hf => ?_, fun hsize o size' hlast => ?_⟩, fun hsize e' he' => ?_⟩
  · obtain ⟨t', ht', hplace', -⟩ := hf e.2 size rfl
    change Function.update s.fields e.2 _ e.2 = some t' at ht'
    rw [Function.update_self, Option.some.injEq] at ht'
    rw [← ht'] at hplace'
    exact hiff.mp hplace'
  · obtain ⟨rfl, rfl⟩ := Prod.mk.inj (Option.some.inj hlast)
    exact ⟨_, Function.update_self _ _ _, hiff.mpr hsize, (hiff.mpr hsize).sent⟩
  · -- the fields of the client in question are in place for the size of its construction
    have hold : e' ∈ s.pool.idle ∨ e' ∈ s.pool.busy ∨ e'.2 = e.2 := by
      rcases he' with he' | he'
      · exact .inl (hi ▸ List.mem_cons_of_mem _ he')
      · rcases Assoc.mem_insert he' with rfl | he'
        · exact .inr (.inr rfl)
        · exact .inr (.inl he')
    by_cases hobj : e'.2 = e.2
    · refine ⟨?_, ?_, _, (congrArg _ hobj).trans (Function.update_self _ _ _), ?_⟩
      · show e'.2 < s.pool.made
        rwa [hobj]
      · show 16 ≤ s.asked e'.2
        rwa [hobj]
      · show TrailerFields.InPlace _ (s.asked e'.2)
        rw [hobj, hsize]
        exact hiff.mpr hsize
    · obtain ⟨hmade', hask, ht'⟩ := h e' (hold.elim .inl fun ho => .inr (ho.resolve_right hobj))
      refine ⟨hmade', hask, ?_⟩
      show ∃ t, Function.update s.fields e.2 _ e'.2 = some t ∧ t.InPlace (s.asked e'.2)
      rwa [Function.update_of_ne hobj]

/-- The client that already has the id of the new one is handed out as it is. -/
theorem Sized.clash (h : s.Sized) (size : ℕ) (mr : Mr) (hi : s.pool.idle = []) {o : ℕ}
    (ho : Assoc.find s.pool.busy (ClientPool.idOf s.pool.made) = some o) :
    ∃ u, s.getClient size mr = some u ∧ (u.Fitted ↔ s.asked o = size) ∧ u.Sized := by
  obtain ⟨-, -, t, ht, hplace⟩ := h _ (.inr (Assoc.mem_of_find ho))
  unfold getClient ClientPool.getClient
  rw [hi, ho]
  dsimp only
  refine ⟨_, rfl, ⟨fun hf => ?_, fun hsize o' size' hlast => ?_⟩, ?_⟩
  · obtain ⟨t', ht', hplace', -⟩ := hf o size rfl
    rw [ht, Option.some.injEq] at ht'
    subst ht'
    exact hplace.bufSize.symm.trans hplace'.bufSize
  · obtain ⟨rfl, rfl⟩ := Prod.mk.inj (Option.some.inj hlast)
    subst hsize
    exact ⟨t, ht, hplace, hplace.sent⟩
  · refine h.shift _ (Nat.le_succ _) (fun e he => ?_) _
    rcases he with he | he
    · cases he
    · rw [Assoc.insert, if_pos (by rw [ho]; rfl)] at he
      exact ⟨e, rfl, .inr he⟩

/-- **One call of `GetClient`** on clients in place. -/
theorem Sized.getClient (h : s.Sized) {size : ℕ} {mr : Mr} (hh : s.Handed size mr) :
    ∃ u, s.getClient size mr = some u ∧ (u.Fitted ↔ s.SameSize (.getClient size mr)) ∧
      (s.SameSize (.getClient size mr) → u.Sized) := by
  unfold SameSize
  cases hi : s.pool.idle with
  | nil =>
    cases hfind : Assoc.find s.pool.busy (ClientPool.idOf s.pool.made) with
    | none =>
      obtain ⟨u, hu, hsized, hfit⟩ := h.create hh hi hfind
      exact ⟨u, hu, ⟨fun _ o ho => (by cases ho), fun _ => hfit⟩, fun _ => hsized⟩
    | some o =>
      obtain ⟨u, hu, hiff, hsized⟩ := h.clash size mr hi hfind
      refine ⟨u, hu, ⟨fun hf o' ho' => ?_, fun hs => hiff.mpr (hs o rfl)⟩, fun _ => hsized⟩
      rw [← Option.some.inj ho']
      exact hiff.mp hf
  | cons e rest => exact h.reuse hh hi

theorem Sized.step (h : s.Sized) {e : Event} (hc : s.SameSize e) (hs : s.step e = some t) :
    t.Sized ∧ t.Fitted := by
  cases e with
  | getClient size mr =>
    simp only [Refit.step, Option.ite_none_right_eq_some] at hs
    obtain ⟨hh, hs⟩ := hs
    obtain ⟨u, hu, hiff, hsized⟩ := h.getClient hh
    rw [hs, Option.some.injEq] at hu
    subst hu
    exact ⟨hsized hc, hiff.mpr hc⟩
  | recycleClient id =>
    simp only [Refit.step, Option.some.injEq] at hs
    subst hs
    exact ⟨h.recycleClient id, fun o size hl => by cases hl⟩

/-- **The trailer across reuse.** In every run in which a client is handed out
again only for the size it was constructed for, every client that
`GetClient` returns is in place. The first call that asks for another size
returns one that is not. -/
theorem fitted_clients {s : Refit} (h : Trace.Reach (Trace.restrict SameSize step) init s) :
    s.Fitted ∧ ∀ size mr t, s.step (.getClient size mr) = some t →
      (t.Fitted ↔ s.SameSize (.getClient size mr)) := by
  have hinv : s.Sized ∧ s.Fitted := by
    refine h.inv_restrict (I := fun s => s.Sized ∧ s.Fitted) ⟨sized_init, fun o size hl => by cases hl⟩ ?_
    rintro s e t ⟨hsized, -⟩ hc hst
    exact hsized.step hc hst
  refine ⟨hinv.2, fun size mr t hst => ?_⟩
  simp only [Refit.step, Option.ite_none_right_eq_some] at hst
  obtain ⟨u, hu, hiff, -⟩ := hinv.1.getClient hst.1
  rw [hst.2, Option.some.injEq] at hu
  subst hu
  exact hiff

/-- A client used for two files of 16 bytes, and a second client for one of 32. -/
theorem fitted_clients_reused : ∃ s, Trace.Reach (Trace.restrict SameSize step) init s ∧
    (s.last = some (1, 32) ∧ s.pool.made = 2) ∧ s.Fitted := by
  obtain ⟨s, hs, hp⟩ : ∃ s, Trace.Reach (Trace.restrict SameSize step) init s ∧
      (s.last = some (1, 32) ∧ s.pool.made = 2) :=
    Trace.exists_reach_of_exec
      [.getClient 16 ⟨0, 16⟩, .recycleClient 0, .getClient 16 ⟨1, 16⟩, .getClient 32 ⟨1, 64⟩] (by decide)
  exact ⟨s, hs, hp, (fitted_clients hs).1⟩

/-- A client constructed for 16 bytes and used again for 32: its trailer is still
at position 8. -/
theorem refit_misplaced : ¬ ∀ s, Trace.Reach step init s → s.Fitted := by
  intro h
  obtain ⟨s, hs, hlast, hoff⟩ : ∃ s, Trace.Reach step init s ∧ s.last = some (0, 32) ∧
      ∀ t ∈ s.fields 0, t.seqOffset = 8 :=
    Trace.exists_reach_of_exec [.getClient 16 ⟨0, 32⟩, .recycleClient 0, .getClient 32 ⟨1, 32⟩] (by decide)
  obtain ⟨t, ht, hplace, -⟩ := h s hs 0 32 hlast
  have hnew := hplace.offset
  rw [hoff t ht, hplace.bufSize] at hnew
  exact absurd hnew (by decide)

end Refit
end ComputeSideLog
