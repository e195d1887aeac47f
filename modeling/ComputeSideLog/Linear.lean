/-
# Overlapping appends take effect one at a time

`Threads.lean` interleaves the calls of any number of threads at every step of
`Append` (`src/rdma/client.cc`). This file adds the order in which the calls
passed their `fetch_add` on `buf_offset`, and shows that this order is a
sequential history of the run, as far as offsets, results and data go: in
every run of appends whose loads have room, each call returns what `Append`
returns at its place in that order, `buf_offset` is the one that the calls
leave when they are made in that order one after the other, and each byte
below the trailer is theirs, but for the ranges that are reserved and not
copied yet (`Linear.mem`). The order only grows at its end, so a call that has
returned comes before every call that starts later.

Two fields do not follow. `file_size` is plain: the value of an earlier call
may be stored over that of a later one, so it can only be said to be no more
than in the sequential run. And `seq` counts the calls that have taken their
number, while the trailer holds the one that was stored last (`Threads.lean`).

Key definitions: `Threads.Logged`, `Threads.Logged.step`, `Threads.Linear`.
Key theorems: `Threads.Linear.fetchAdd`, `Threads.Linear.of_step`,
`Threads.appends_linearize`.
-/
import ComputeSideLog.Concurrent
import ComputeSideLog.Ops
import ComputeSideLog.Threads

namespace ComputeSideLog

namespace Concurrent

variable {o : ℕ} {s t : State}

/-- The invariant reads `buf_offset`, the calls before their `fetch_add` and the ranges. -/
theorem Inv.congr (h : Inv o s) (hoff : t.cli.bufOffset = s.cli.bufOffset)
    (hsize : t.cli.buffer.size = s.cli.buffer.size) (hclamped : t.clamped = s.clamped)
    (hranges : t.ranges = s.ranges) : Inv o t where
  lt := hoff ▸ h.lt
  laid := by
    rw [hranges, hoff]
    exact h.laid
  inside := by
    rw [hranges, hsize]
    exact h.inside
  fits := by
    rw [State.held, hclamped, hoff, hsize]
    exact h.fits
  size_le := hclamped ▸ h.size_le
  size_eq := by
    rw [hclamped, hoff, hsize]
    exact h.size_eq

/-- A pending call returns what `Append` returns at the current offset. -/
theorem Inv.size_clamp (h : Inv o s) {p : Clamped} (hp : p ∈ s.clamped) :
    p.size = s.cli.clamp p.buf.length s.cli.bufOffset := by
  have hfits := h.fits
  have hheld := s.size_le_held hp
  have hle := h.size_le p hp
  have hsize := s.cli.buffer.size_lt
  unfold Client.clamp
  rcases h.size_eq p hp with heq | ⟨hin, heq⟩
  · rcases hfits with h0 | hfit
    · omega
    · rw [subSize_of_le (by omega) hsize]
      omega
  · rw [subSize_of_le hin hsize]
    omega

/-- A reservation does not wrap. -/
theorem Inv.no_wrap (h : Inv o s) {p : Clamped} (hp : p ∈ s.clamped) :
    (s.cli.bufOffset + p.size) % 2 ^ 64 = s.cli.bufOffset + p.size := by
  have hfits := h.fits
  have hheld := s.size_le_held hp
  have hsize := s.cli.buffer.size_lt
  have hlt := h.lt
  exact Nat.mod_eq_of_lt (by omega)

end Concurrent

namespace Threads

open Concurrent (Clamped Reserved)

/-! ### The calls of a run -/

/-- A call between the load of its clamp and its `fetch_add`. -/
def Thread.clamped : Thread → Option Clamped
  | ⟨w, .clamped size⟩ => some ⟨w.buf, size⟩
  | _ => none

/-- The range that the call has reserved and not posted. -/
def At.range : At → Option (ℕ × ℕ)
  | .placed off size | .sized off size _ | .entered off size
  | .copied off size | .numbered off size _ | .stored off size => some (off, size)
  | .clamped _ | .posted => none

/-- A call between its `fetch_add` and its posts. -/
def Thread.reserved (t : Thread) : Option Reserved := t.pos.range.map fun r => ⟨t.call.buf, r.1, r.2⟩

/-- What the call is about to store to `file_size`. -/
def At.fileSize : At → Option ℕ
  | .sized _ _ fileSize => some fileSize
  | _ => none

/-- The call has reserved position `x` and not copied its data. -/
def At.Uncopied (x : ℕ) : At → Prop
  | .placed off size | .sized off size _ | .entered off size => off ≤ x ∧ x < off + size
  | _ => False

/-- The call has its range and not its number. -/
def At.unnumbered : At → Bool
  | .placed _ _ | .sized _ _ _ | .entered _ _ | .copied _ _ => true
  | _ => false

/-- A run, and the calls past their `fetch_add` in its order, each with its range. -/
structure Logged (α : Type*) where
  run : State α
  order : List Reserved

variable {α : Type*}

namespace Logged

/-- No call yet. -/
def start (s₀ : State α) : Logged α := ⟨s₀, []⟩

/-- The call that an event takes past its `fetch_add`. -/
def reserving (s : State α) : Event α → List Reserved
  | .next i => ((s.threads[i]?.bind Thread.clamped).map fun p => ⟨p.buf, s.cli.bufOffset, p.size⟩).toList
  | _ => []

/-- One event. -/
def step [DecidableEq α] (rep : ℕ) (s : Logged α) (e : Event α) : Option (Logged α) :=
  (Threads.step rep s.run e).map fun t => ⟨t, s.order ++ reserving s.run e⟩

/-- The calls in their order. -/
def history (s : Logged α) : List Op := s.order.map fun p => .append p.buf

/-- The client that the calls leave when they are made in their order one after
the other. -/
def last (c : Client) (s : Logged α) : Client := (c.ops s.history).1

theorem history_snoc (s : Logged α) (r : State α) (p : Reserved) :
    Logged.history ⟨r, s.order ++ [p]⟩ = s.history ++ [.append p.buf] := List.map_append

theorem last_snoc (c : Client) (s : Logged α) (r : State α) (p : Reserved) :
    Logged.last c ⟨r, s.order ++ [p]⟩ = (s.last c).append p.buf := by
  rw [last, history_snoc]
  exact Client.ops_append s.history [.append p.buf] c

/-- The calls at their accesses to `buf_offset`. -/
def view (s : Logged α) : Concurrent.State where
  cli := s.run.cli
  clamped := s.run.threads.filterMap Thread.clamped
  reserved := []
  ranges := s.order.map fun p => (p.curOff, p.size)

/-- Every call is an `Append` whose load has room. -/
def Fits (s : Logged α) : Event α → Prop
  | .call (.append buf) => s.view.Room buf.length
  | .call (.writePos _ _) => False
  | _ => True

instance (s : Logged α) : ∀ e, Decidable (s.Fits e)
  | .call (.append buf) => inferInstanceAs (Decidable (s.view.Room buf.length))
  | .call (.writePos _ _) => instDecidableFalse
  | .next _ | .fetch _ _ _ _ | .land _ => instDecidableTrue

end Logged

/-! ### The sequential client -/

/-- The client has the data of a call in its range. -/
structure Written (q : Client) (p : Reserved) : Prop where
  data : ∀ i, i < p.size → p.curOff + i < q.seqOffset → q.buffer.mem (p.curOff + i) = p.buf.getD i 0
  ends : p.curOff + p.size ≤ q.bufOffset
  size_le : p.size ≤ p.buf.length

section Sequential

variable {q : Client} {buf : List UInt8} {size : ℕ}

/-- Data below the trailer after an `Append`. -/
theorem append_mem (hq : q.seqAddr = q.seqOffset) (hsize : size = q.clamp buf.length q.bufOffset) {x : ℕ}
    (hx : x < q.seqOffset) : (q.append buf).buffer.mem x =
      if q.bufOffset ≤ x ∧ x < q.bufOffset + size then buf.getD (x - q.bufOffset) 0 else q.buffer.mem x := by
  subst hsize
  have hlen : (buf.take (q.clamp buf.length q.bufOffset)).length = q.clamp buf.length q.bufOffset :=
    List.length_take_of_le (min_le_left _ _)
  show (q.buffer.mem.write q.bufOffset (buf.take (q.clamp buf.length q.bufOffset))).putLE
    q.seqAddr seqWidth q.seq x = _
  rw [Mem.putLE_out (by omega)]
  split
  · rename_i hin
    rw [Mem.write_in (by omega), List.getD_eq_getElem?_getD, List.getD_eq_getElem?_getD,
      List.getElem?_take_of_lt (by omega)]
  · rename_i hout
    exact Mem.write_out (by omega)

/-- What an `Append` that does not wrap does to the offsets. -/
theorem append_offsets (hsize : size = q.clamp buf.length q.bufOffset)
    (hmod : (q.bufOffset + size) % 2 ^ 64 = q.bufOffset + size) :
    (q.append buf).bufOffset = q.bufOffset + size ∧ (q.append buf).fileSize = max q.fileSize (q.bufOffset + size) := by
  subst hsize
  exact ⟨hmod, congrArg (max q.fileSize) hmod⟩

/-- An `Append` keeps the data of the calls before it. -/
theorem Written.append {p : Reserved} (h : Written q p) (hq : q.seqAddr = q.seqOffset)
    (hsize : size = q.clamp buf.length q.bufOffset) (hmod : (q.bufOffset + size) % 2 ^ 64 = q.bufOffset + size) :
    Written (q.append buf) p where
  data i hi hx := by
    have hend := h.ends
    rw [append_mem hq hsize hx, if_neg (by omega)]
    exact h.data i hi hx
  ends := by
    rw [(append_offsets hsize hmod).1]
    exact h.ends.trans (Nat.le_add_right _ _)
  size_le := h.size_le

/-- Its own data is there. -/
theorem written_append (hq : q.seqAddr = q.seqOffset) (hsize : size = q.clamp buf.length q.bufOffset)
    (hmod : (q.bufOffset + size) % 2 ^ 64 = q.bufOffset + size) :
    Written (q.append buf) ⟨buf, q.bufOffset, size⟩ where
  data i hi hx := by
    rw [append_mem hq hsize hx, if_pos ⟨Nat.le_add_right _ _, Nat.add_lt_add_left hi _⟩, Nat.add_sub_cancel_left]
  ends := (append_offsets hsize hmod).1.ge
  size_le := hsize ▸ min_le_left _ _

/-- Another client that copies the data has the same bytes there. -/
theorem Written.copy {p : Reserved} (h : Written q p) (m : Mem) {x : ℕ} (hx : x < q.seqOffset)
    (hin : p.curOff ≤ x ∧ x < p.curOff + p.size) :
    m.write p.curOff (p.buf.take p.size) x = q.buffer.mem x := by
  have hlen : (p.buf.take p.size).length = p.size := List.length_take_of_le h.size_le
  obtain ⟨k, rfl⟩ := Nat.exists_eq_add_of_le hin.1
  have hk : k < p.size := by omega
  rw [Mem.write_in (by omega), Nat.add_sub_cancel_left, List.getD_eq_getElem?_getD, List.getElem?_take_of_lt hk,
    ← List.getD_eq_getElem?_getD]
  exact (h.data k hk hx).symm

/-- The results of more operations. -/
theorem ops_results (os os' : List Op) (c : Client) :
    (c.ops (os ++ os')).2 = (c.ops os).2 ++ ((c.ops os).1.ops os').2 := by
  induction os generalizing c with
  | nil => rfl
  | cons o os ih => exact congrArg _ (ih (c.op o).1)

end Sequential

/-! ### Runs -/

/-- What a run keeps: the calls in their order make the client that the
interleaved one is behind, and return what the calls of the run return. -/
structure Linear (c : Client) (s : Logged α) : Prop where
  inv : Concurrent.Inv c.bufOffset s.view
  results : (c.ops s.history).2 = s.order.map fun p => .value p.size
  written : ∀ p ∈ s.order, Written (s.last c) p
  listed : ∀ t ∈ s.run.threads, ∀ p ∈ t.reserved, p ∈ s.order
  geometry : s.run.cli.geometry = c.geometry
  offset : s.run.cli.bufOffset = (s.last c).bufOffset
  reached : s.order ≠ [] → (s.last c).bufOffset ≤ (s.last c).fileSize
  size : s.run.cli.fileSize ∈ Set.Icc c.fileSize (s.last c).fileSize
  sized : ∀ t ∈ s.run.threads, ∀ n ∈ t.pos.fileSize, n ∈ Set.Icc c.fileSize (s.last c).fileSize
  mem : ∀ x, x < c.seqOffset → (∀ t ∈ s.run.threads, ¬ t.pos.Uncopied x) →
    s.run.cli.buffer.mem x = (s.last c).buffer.mem x
  seq : (s.run.cli.seq + s.run.threads.countP fun t => t.pos.unnumbered) % 2 ^ 64 = (s.last c).seq

section Linear

variable {c : Client} {s t : Logged α} {s₀ s' : State α}

theorem Linear.start (hnone : s₀.threads = []) (hoff : s₀.cli.bufOffset < 2 ^ 64) (hseq : s₀.cli.seq < 2 ^ 64) :
    Linear s₀.cli (Logged.start s₀) where
  inv := (Concurrent.Inv.start hoff).congr rfl rfl (by simp [Logged.view, Logged.start, Concurrent.start, hnone]) rfl
  results := rfl
  written _ hp := absurd hp List.not_mem_nil
  listed u hu := absurd (hnone ▸ hu) List.not_mem_nil
  geometry := rfl
  offset := rfl
  reached h := absurd rfl h
  size := ⟨le_rfl, le_rfl⟩
  sized u hu := absurd (hnone ▸ hu) List.not_mem_nil
  mem _ _ _ := rfl
  seq := by
    show (s₀.cli.seq + s₀.threads.countP _) % 2 ^ 64 = s₀.cli.seq
    rw [hnone]
    exact Nat.mod_eq_of_lt hseq

/-- The calls around the one that moves. -/
theorem exists_split {β : Type*} {l : List β} {i : ℕ} {x : β} (hi : l[i]? = some x) :
    ∃ l₁ l₂, l = l₁ ++ [x] ++ l₂ ∧ (∀ y, l.set i y = l₁ ++ [y] ++ l₂) ∧ l.eraseIdx i = l₁ ++ [] ++ l₂ := by
  obtain ⟨hlt, rfl⟩ := List.getElem?_eq_some_iff.mp hi
  refine ⟨l.take i, l.drop (i + 1), ?_, fun y => ?_, ?_⟩
  · rw [List.append_assoc, List.singleton_append, List.getElem_cons_drop, List.take_append_drop]
  · rw [List.set_eq_take_append_cons_drop, if_pos hlt, List.append_assoc, List.singleton_append]
  · rw [List.eraseIdx_eq_take_drop_succ, List.append_nil]

/-- A step that leaves the order. The calls `ts` become `ts'`, the others stay. -/
theorem Linear.move (h : Linear c s) {l₁ l₂ ts ts' : List Thread} (hold : s.run.threads = l₁ ++ ts ++ l₂)
    (hnew : s'.threads = l₁ ++ ts' ++ l₂) (hinv : Concurrent.Inv c.bufOffset (Logged.view ⟨s', s.order⟩))
    (hgeo : s'.cli.geometry = s.run.cli.geometry) (hoff : s'.cli.bufOffset = s.run.cli.bufOffset)
    (hlisted : ∀ t ∈ ts', ∀ p ∈ t.reserved, p ∈ s.order)
    (hsize : s'.cli.fileSize ∈ Set.Icc c.fileSize (s.last c).fileSize)
    (hsized : ∀ t ∈ ts', ∀ n ∈ t.pos.fileSize, n ∈ Set.Icc c.fileSize (s.last c).fileSize)
    (hmem : ∀ x, x < c.seqOffset → (∀ t ∈ ts', ¬ t.pos.Uncopied x) →
      s'.cli.buffer.mem x = (s.last c).buffer.mem x ∨
        (∀ t ∈ ts, ¬ t.pos.Uncopied x) ∧ s'.cli.buffer.mem x = s.run.cli.buffer.mem x)
    (hseq : (s'.cli.seq + ts'.countP fun t => t.pos.unnumbered) % 2 ^ 64 =
      (s.run.cli.seq + ts.countP fun t => t.pos.unnumbered) % 2 ^ 64) : Linear c ⟨s', s.order⟩ where
  inv := hinv
  results := h.results
  written := h.written
  listed u hu := by
    have hall := h.listed
    simp only [hold, hnew, List.mem_append] at hall hu
    rcases hu with (hu | hu) | hu
    exacts [hall u (.inl (.inl hu)), hlisted u hu, hall u (.inr hu)]
  geometry := hgeo.trans h.geometry
  offset := hoff.trans h.offset
  reached := h.reached
  size := hsize
  sized u hu := by
    have hall := h.sized
    simp only [hold, hnew, List.mem_append] at hall hu
    rcases hu with (hu | hu) | hu
    exacts [hall u (.inl (.inl hu)), hsized u hu, hall u (.inr hu)]
  mem x hx hout := by
    have hall := h.mem x hx
    simp only [hold, hnew, List.mem_append] at hall hout
    rcases hmem x hx fun u hu => hout u (.inl (.inr hu)) with hlast | ⟨hts, hsame⟩
    · exact hlast
    · refine hsame.trans (hall fun u hu => ?_)
      rcases hu with (hu | hu) | hu
      exacts [hout u (.inl (.inl hu)), hts u hu, hout u (.inr hu)]
  seq := by
    have hcount := h.seq
    rw [hold, List.countP_append, List.countP_append] at hcount
    show (s'.cli.seq + s'.threads.countP _) % 2 ^ 64 = (s.last c).seq
    rw [← hcount, hnew, List.countP_append, List.countP_append]
    omega

/-- A step between the accesses to `buf_offset`. -/
theorem Linear.inv_pass (h : Linear c s) {l₁ l₂ ts ts' : List Thread} (hold : s.run.threads = l₁ ++ ts ++ l₂)
    (hnew : s'.threads = l₁ ++ ts' ++ l₂) (hgeo : s'.cli.geometry = s.run.cli.geometry)
    (hoff : s'.cli.bufOffset = s.run.cli.bufOffset)
    (hclamped : ts'.filterMap Thread.clamped = ts.filterMap Thread.clamped) :
    Concurrent.Inv c.bufOffset (Logged.view ⟨s', s.order⟩) := by
  refine h.inv.congr hoff (congrArg (fun g => g.1) hgeo) ?_ rfl
  simp only [Logged.view, hold, hnew, List.filterMap_append, hclamped]

/-- One call moves on, in the range that it has. -/
theorem Linear.advance (h : Linear c s) {i : ℕ} {t t' : Thread} (hi : s.run.threads[i]? = some t)
    (hthreads : s'.threads = s.run.threads.set i t') (hgeo : s'.cli.geometry = s.run.cli.geometry)
    (hoff : s'.cli.bufOffset = s.run.cli.bufOffset) (hclamped : t.clamped = none ∧ t'.clamped = none)
    (hrange : ∀ p ∈ t'.reserved, p ∈ t.reserved) (hsize : s'.cli.fileSize ∈ Set.Icc c.fileSize (s.last c).fileSize)
    (hsized : ∀ n ∈ t'.pos.fileSize, n ∈ Set.Icc c.fileSize (s.last c).fileSize)
    (hmem : ∀ x, x < c.seqOffset → ¬ t'.pos.Uncopied x → s'.cli.buffer.mem x = (s.last c).buffer.mem x ∨
      ¬ t.pos.Uncopied x ∧ s'.cli.buffer.mem x = s.run.cli.buffer.mem x)
    (hseq : (s'.cli.seq + [t'].countP fun t => t.pos.unnumbered) % 2 ^ 64 =
      (s.run.cli.seq + [t].countP fun t => t.pos.unnumbered) % 2 ^ 64) : Linear c ⟨s', s.order⟩ := by
  obtain ⟨l₁, l₂, hold, hset, -⟩ := exists_split hi
  have hnew : s'.threads = l₁ ++ [t'] ++ l₂ := hthreads.trans (hset t')
  refine h.move hold hnew (h.inv_pass hold hnew hgeo hoff ?_) hgeo hoff (fun u hu p hp => ?_) hsize
    (fun u hu n hn => ?_) (fun x hx hout => ?_) hseq
  · rw [List.filterMap_cons_none hclamped.1, List.filterMap_cons_none hclamped.2]
  · rw [List.mem_singleton.mp hu] at hp
    exact h.listed t (List.mem_of_getElem? hi) p (hrange p hp)
  · rw [List.mem_singleton.mp hu] at hn
    exact hsized n hn
  · refine (hmem x hx (hout t' (List.mem_singleton_self _))).imp id fun hsame => ⟨fun u hu => ?_, hsame.2⟩
    rw [List.mem_singleton.mp hu]
    exact hsame.1

/-- What a call is going to store to `file_size`. -/
theorem Linear.newSize_mem (h : Linear c s) {w : Call} {off size : ℕ} (hp : ⟨w.buf, off, size⟩ ∈ s.order) :
    newSize s.run.cli off size w ∈ Set.Icc c.fileSize (s.last c).fileSize := by
  have hend := (h.written _ hp).ends
  have hreached := h.reached (List.ne_nil_of_mem hp)
  have hoff := h.offset
  obtain ⟨hge, hle⟩ := h.size
  have hmod : (off + size) % 2 ^ 64 ≤ off + size := Nat.mod_le _ _
  have hend : off + size ≤ (s.last c).bufOffset := hend
  cases w with
  | append buf =>
    show c.fileSize ≤ max s.run.cli.fileSize s.run.cli.bufOffset ∧ max s.run.cli.fileSize s.run.cli.bufOffset ≤ _
    omega
  | writePos buf pos =>
    show c.fileSize ≤ max ((off + size) % 2 ^ 64) s.run.cli.fileSize ∧
      max ((off + size) % 2 ^ 64) s.run.cli.fileSize ≤ _
    omega

/-- A call between its load and its `fetch_add` is going to return what the
sequential `Append` returns. -/
theorem Linear.clamped (h : Linear c s) {w : Call} {size : ℕ} (ht : ⟨w, .clamped size⟩ ∈ s.run.threads) :
    size = (s.last c).clamp w.buf.length (s.last c).bufOffset ∧
      ((s.last c).bufOffset + size) % 2 ^ 64 = (s.last c).bufOffset + size := by
  have hp : (⟨w.buf, size⟩ : Clamped) ∈ s.view.clamped := List.mem_filterMap.mpr ⟨_, ht, rfl⟩
  have hbuf : (s.last c).buffer.size = s.run.cli.buffer.size :=
    congrArg (fun g => g.1) ((Client.ops_geometry _ _).trans h.geometry.symm)
  rw [← h.offset, Client.clamp, hbuf]
  exact ⟨h.inv.size_clamp hp, h.inv.no_wrap hp⟩

/-- The step of `fetch_add` is the one of `Concurrent.lean`. -/
theorem Linear.inv_fetchAdd (h : Linear c s) {w : Call} {size : ℕ} {l₁ l₂ : List Thread}
    (hold : s.run.threads = l₁ ++ [⟨w, .clamped size⟩] ++ l₂)
    (hnew : s'.threads = l₁ ++ [⟨w, .placed s.run.cli.bufOffset size⟩] ++ l₂)
    (hcli : s'.cli = { s.run.cli with bufOffset := (s.run.cli.bufOffset + size) % 2 ^ 64 }) :
    Concurrent.Inv c.bufOffset (Logged.view ⟨s', s.order ++ [⟨w.buf, s.run.cli.bufOffset, size⟩]⟩) := by
  have hclamped : s.view.clamped = l₁.filterMap Thread.clamped ++ ⟨w.buf, size⟩ :: l₂.filterMap Thread.clamped := by
    simp [Logged.view, hold, Thread.clamped]
  have hj : s.view.clamped[(l₁.filterMap Thread.clamped).length]? = some ⟨w.buf, size⟩ := by simp [hclamped]
  refine (h.inv.fetchAdd hj).congr (congrArg Client.bufOffset hcli) (congrArg (fun d => d.buffer.size) hcli) ?_
    List.map_append
  calc (Logged.view ⟨s', s.order ++ [⟨w.buf, s.run.cli.bufOffset, size⟩]⟩).clamped
      = l₁.filterMap Thread.clamped ++ l₂.filterMap Thread.clamped := by
        simp [Logged.view, hnew, List.filterMap_cons, Thread.clamped]
    _ = s.view.clamped.eraseIdx (l₁.filterMap Thread.clamped).length := by
        rw [hclamped, List.eraseIdx_append_of_length_le le_rfl, Nat.sub_self, List.eraseIdx_cons_zero]

/-- A `fetch_add` is the moment at which the call takes effect. -/
theorem Linear.fetchAdd (h : Linear c s) (hc : c.seqAddr = c.seqOffset) {w : Call} {size : ℕ} {l₁ l₂ : List Thread}
    (hold : s.run.threads = l₁ ++ [⟨w, .clamped size⟩] ++ l₂)
    (hnew : s'.threads = l₁ ++ [⟨w, .placed s.run.cli.bufOffset size⟩] ++ l₂)
    (hcli : s'.cli = { s.run.cli with bufOffset := (s.run.cli.bufOffset + size) % 2 ^ 64 }) :
    Linear c ⟨s', s.order ++ [⟨w.buf, s.run.cli.bufOffset, size⟩]⟩ := by
  obtain ⟨hsize, hmod⟩ := h.clamped (by simp [hold] : ⟨w, .clamped size⟩ ∈ s.run.threads)
  have hgeo : (s.last c).geometry = c.geometry := Client.ops_geometry _ _
  have hso : (s.last c).seqOffset = c.seqOffset := congrArg (fun g => g.2.2.1) hgeo
  have hq : (s.last c).seqAddr = (s.last c).seqOffset :=
    (congrArg (fun g => g.2.2.2) hgeo).trans (hc.trans hso.symm)
  obtain ⟨hoff, hfile⟩ := append_offsets hsize hmod
  have hgrow : (s.last c).fileSize ≤ ((s.last c).append w.buf).fileSize := hfile ▸ le_max_left _ _
  have hlast := Logged.last_snoc c s s' ⟨w.buf, s.run.cli.bufOffset, size⟩
  -- the calls, old and new
  have hcases : ∀ u ∈ s'.threads, u ∈ s.run.threads ∨ u = ⟨w, .placed s.run.cli.bufOffset size⟩ := by
    intro u hu
    simp only [hold, hnew, List.mem_append, List.mem_singleton] at hu ⊢
    tauto
  have hkept : ∀ u ∈ s.run.threads, u ∈ s'.threads ∨ u = ⟨w, .clamped size⟩ := by
    intro u hu
    simp only [hold, hnew, List.mem_append, List.mem_singleton] at hu ⊢
    tauto
  refine ⟨h.inv_fetchAdd hold hnew hcli, ?_, fun r hr => ?_, fun u hu r hr => ?_, ?_, ?_, fun _ => ?_, ?_,
    fun u hu n hn => ?_, fun x hx hout => ?_, ?_⟩
  · rw [Logged.history_snoc, ops_results, h.results, List.map_append]
    exact congrArg (fun n => _ ++ [Result.value n]) hsize.symm
  · rw [hlast]
    rcases List.mem_append.mp hr with hr | hr
    · exact (h.written r hr).append hq hsize hmod
    · rw [List.mem_singleton.mp hr, h.offset]
      exact written_append hq hsize hmod
  · rcases hcases u hu with hu | rfl
    · exact List.mem_append_left _ (h.listed u hu r hr)
    · obtain rfl := Option.some.inj hr
      exact List.mem_append_right _ (List.mem_singleton_self _)
  · rw [hcli]
    exact h.geometry
  · rw [hlast, hcli, hoff, ← hmod, ← h.offset]
  · rw [hlast, hoff, hfile]
    exact le_max_right _ _
  · rw [hlast, hcli]
    exact ⟨h.size.1, h.size.2.trans hgrow⟩
  · rw [hlast]
    rcases hcases u hu with hu | rfl
    · exact ⟨(h.sized u hu n hn).1, (h.sized u hu n hn).2.trans hgrow⟩
    · cases hn
  · -- `x` is outside the new range, where the new call changes nothing
    have hrange : ¬ ((s.last c).bufOffset ≤ x ∧ x < (s.last c).bufOffset + size) :=
      h.offset ▸ hout _ (by simp [hnew] : ⟨w, .placed s.run.cli.bufOffset size⟩ ∈ s'.threads)
    rw [hlast, append_mem hq hsize (hso ▸ hx), if_neg hrange, hcli]
    refine h.mem x hx fun u hu => ?_
    rcases hkept u hu with hu | rfl
    · exact hout u hu
    · exact id
  · have hcount : (s'.threads.countP fun t => t.pos.unnumbered) =
        (s.run.threads.countP fun t => t.pos.unnumbered) + 1 := by
      simp [hold, hnew, At.unnumbered]
      omega
    rw [hlast, hcli]
    show (s.run.cli.seq + s'.threads.countP fun t => t.pos.unnumbered) % 2 ^ 64 = ((s.last c).seq + 1) % 2 ^ 64
    rw [hcount, ← h.seq, Nat.mod_add_mod, Nat.add_assoc]

variable [DecidableEq α] {rep : ℕ}

/-- The step of a call. -/
theorem Linear.next (h : Linear c s) (hc : c.seqAddr = c.seqOffset) {i : ℕ} {u : Thread}
    (hi : s.run.threads[i]? = some u) (hs : Threads.next rep s.run i u = some s') :
    Linear c ⟨s', s.order ++ Logged.reserving s.run (.next i)⟩ := by
  obtain ⟨w, pos⟩ := u
  have hlisted : ∀ p ∈ Thread.reserved ⟨w, pos⟩, p ∈ s.order := h.listed _ (List.mem_of_getElem? hi)
  have hnone : ∀ n ∈ (none : Option ℕ), n ∈ Set.Icc c.fileSize (s.last c).fileSize := fun n hn => by cases hn
  rw [Logged.reserving, hi, Option.bind_some]
  cases pos with
  | clamped size =>
    obtain rfl := Option.some.inj hs
    obtain ⟨l₁, l₂, hold, hset, -⟩ := exists_split hi
    exact h.fetchAdd hc hold (hset _) rfl
  | placed off size =>
    obtain rfl := Option.some.inj hs
    have hsized := h.newSize_mem (hlisted _ rfl)
    simp only [Thread.clamped, Option.map_none, Option.toList_none, List.append_nil]
    refine h.advance hi rfl rfl rfl ⟨rfl, rfl⟩ (fun _ => id) h.size (fun n hn => ?_)
      (fun x _ hout => .inr ⟨hout, rfl⟩) rfl
    obtain rfl := Option.some.inj hn
    exact hsized
  | sized off size fileSize =>
    obtain rfl := Option.some.inj hs
    have hsized := h.sized _ (List.mem_of_getElem? hi) fileSize rfl
    simp only [Thread.clamped, Option.map_none, Option.toList_none, List.append_nil]
    exact h.advance hi rfl rfl rfl ⟨rfl, rfl⟩ (fun _ => id) hsized hnone (fun x _ hout => .inr ⟨hout, rfl⟩) rfl
  | entered off size =>
    simp only [Threads.next, Option.ite_none_right_eq_some, Option.some.injEq] at hs
    obtain ⟨-, rfl⟩ := hs
    have hwritten := h.written _ (hlisted _ rfl)
    simp only [Thread.clamped, Option.map_none, Option.toList_none, List.append_nil]
    refine h.advance hi rfl rfl rfl ⟨rfl, rfl⟩ (fun _ => id) h.size hnone (fun x hx _ => ?_) rfl
    by_cases hin : off ≤ x ∧ x < off + size
    · have hso : (s.last c).seqOffset = c.seqOffset := congrArg (fun g => g.2.2.1) (Client.ops_geometry _ _)
      exact .inl (hwritten.copy _ (hso ▸ hx) hin)
    · have hlen : (w.buf.take size).length ≤ size := List.length_take_le _ _
      exact .inr ⟨hin, Mem.write_out (by omega)⟩
  | copied off size =>
    obtain rfl := Option.some.inj hs
    simp only [Thread.clamped, Option.map_none, Option.toList_none, List.append_nil]
    refine h.advance hi rfl rfl rfl ⟨rfl, rfl⟩ (fun _ => id) h.size hnone (fun x _ hout => .inr ⟨hout, rfl⟩) ?_
    show ((s.run.cli.seq + 1) % 2 ^ 64 + 0) % 2 ^ 64 = (s.run.cli.seq + 1) % 2 ^ 64
    rw [Nat.add_zero, Nat.mod_mod]
  | numbered off size n =>
    obtain rfl := Option.some.inj hs
    simp only [Thread.clamped, Option.map_none, Option.toList_none, List.append_nil]
    refine h.advance hi rfl rfl rfl ⟨rfl, rfl⟩ (fun _ => id) h.size hnone (fun x hx hout => .inr ⟨hout, ?_⟩) rfl
    -- the number goes to the trailer
    have haddr : s.run.cli.seqAddr = c.seqOffset := (congrArg (fun g => g.2.2.2) h.geometry).trans hc
    exact Mem.putLE_out (by omega)
  | stored off size =>
    simp only [Threads.next, Option.ite_none_right_eq_some, Option.some.injEq] at hs
    obtain ⟨-, rfl⟩ := hs
    simp only [Thread.clamped, Option.map_none, Option.toList_none, List.append_nil]
    exact h.advance hi rfl rfl rfl ⟨rfl, rfl⟩ (fun _ hp => by cases hp) h.size hnone
      (fun x _ hout => .inr ⟨hout, rfl⟩) rfl
  | posted =>
    simp only [Threads.next, Option.ite_none_right_eq_some, Option.some.injEq] at hs
    obtain ⟨-, rfl⟩ := hs
    obtain ⟨l₁, l₂, hold, -, herase⟩ := exists_split hi
    simp only [Thread.clamped, Option.map_none, Option.toList_none, List.append_nil]
    refine h.move hold herase (h.inv_pass hold herase rfl rfl rfl) rfl rfl (fun u hu => absurd hu List.not_mem_nil)
      h.size (fun u hu => absurd hu List.not_mem_nil) (fun x _ _ => .inr ⟨fun u hu => ?_, rfl⟩) rfl
    rw [List.mem_singleton.mp hu]
    exact id

theorem Linear.of_step {e : Event α} (h : Linear c s) (hc : c.seqAddr = c.seqOffset) (hok : s.Fits e)
    (hs : s.step rep e = some t) : Linear c t := by
  obtain ⟨s', hrun, rfl⟩ := Option.map_eq_some_iff.mp hs
  cases e with
  | call w =>
    cases w with
    | append buf =>
      obtain rfl := Option.some.inj hrun
      simp only [Logged.reserving, List.append_nil]
      have hold : s.run.threads = s.run.threads ++ [] ++ [] := by simp
      have hnew : ∀ u : Thread, s.run.threads ++ [u] = s.run.threads ++ [u] ++ [] := by simp
      refine h.move hold (hnew _) ?_ rfl rfl (fun u hu p hp => ?_) h.size (fun u hu n hn => ?_)
        (fun x _ _ => .inr ⟨fun u hu => absurd hu List.not_mem_nil, rfl⟩) rfl
      · exact (h.inv.load hok).congr rfl rfl List.filterMap_append rfl
      · rw [List.mem_singleton.mp hu] at hp
        cases hp
      · rw [List.mem_singleton.mp hu] at hn
        cases hn
    | writePos buf pos => exact hok.elim
  | next i =>
    obtain ⟨u, hi, hrun⟩ := Option.bind_eq_some_iff.mp hrun
    exact h.next hc hi hrun
  | fetch a k off len =>
    obtain rfl := Option.some.inj hrun
    simp only [Logged.reserving, List.append_nil]
    exact ⟨h.inv, h.results, h.written, h.listed, h.geometry, h.offset, h.reached, h.size, h.sized, h.mem, h.seq⟩
  | land a =>
    simp only [Threads.step] at hrun
    split at hrun
    · cases hrun
    · simp only [Option.ite_none_right_eq_some, Option.some.injEq] at hrun
      obtain ⟨-, rfl⟩ := hrun
      simp only [Logged.reserving, List.append_nil]
      exact ⟨h.inv, h.results, h.written, h.listed, h.geometry, h.offset, h.reached, h.size, h.sized, h.mem, h.seq⟩

/-- The order grows at its end. -/
theorem order_prefix {es : List (Event α)}
    (h : Trace.exec (Trace.restrict Logged.Fits (Logged.step rep)) s es = some t) : s.order <+: t.order := by
  induction es generalizing s with
  | nil => exact Option.some.inj h ▸ List.prefix_rfl
  | cons e es ih =>
    obtain ⟨u, hu, h⟩ := Option.bind_eq_some_iff.mp h
    obtain ⟨v, -, rfl⟩ := Option.map_eq_some_iff.mp (Trace.restrict_eq_some.mp hu).2
    exact (List.prefix_append _ _).trans (ih h)

/-- **Appends are linearizable in offsets, results and data.** In every run of
appends whose loads have room, the calls in the order of their `fetch_add` are
a sequential history: each returns what it returned in the run, a call that
has returned stays before all calls that start later, `buf_offset` is that of
the history, and so is each byte below the trailer that no call has reserved
and not copied. `file_size` is no more than that of the history, and `seq` is
the same when no call is between its `fetch_add` and its number. -/
theorem appends_linearize (hnone : s₀.threads = []) (hc : s₀.cli.seqAddr = s₀.cli.seqOffset)
    (hoff : s₀.cli.bufOffset < 2 ^ 64) (hseq : s₀.cli.seq < 2 ^ 64)
    (hs : Trace.Reach (Trace.restrict Logged.Fits (Logged.step rep)) (Logged.start s₀) s) :
    (s₀.cli.ops s.history).2 = s.order.map (fun p => .value p.size) ∧
      (∀ es t, Trace.exec (Trace.restrict Logged.Fits (Logged.step rep)) s es = some t → s.order <+: t.order) ∧
      (∀ t ∈ s.run.threads, ∀ p ∈ t.reserved, p ∈ s.order) ∧
      s.run.cli.bufOffset = (s.last s₀.cli).bufOffset ∧
      (∀ x, x < s₀.cli.seqOffset → (∀ t ∈ s.run.threads, ¬ t.pos.Uncopied x) →
        s.run.cli.buffer.mem x = (s.last s₀.cli).buffer.mem x) ∧
      s.run.cli.fileSize ∈ Set.Icc s₀.cli.fileSize (s.last s₀.cli).fileSize ∧
      ((∀ t ∈ s.run.threads, t.pos.unnumbered = false) → s.run.cli.seq % 2 ^ 64 = (s.last s₀.cli).seq) := by
  have h : Linear s₀.cli s := hs.inv_restrict (Linear.start hnone hoff hseq) fun _ _ _ h hok he => h.of_step hc hok he
  refine ⟨h.results, fun es t he => order_prefix he, h.listed, h.offset, h.mem, h.size, fun hall => ?_⟩
  have hcount : s.run.threads.countP (fun t => t.pos.unnumbered) = 0 :=
    List.countP_eq_zero.mpr fun t ht => by rw [hall t ht]; exact Bool.false_ne_true
  rw [← h.seq, hcount, Nat.add_zero]

/-- Two appends of one byte each. The second one reserves and stores `file_size`
while the first one has yet to store the value that it computed before. -/
def overtaking : List (Event ℕ) :=
  [.call (.append [1]), .call (.append [2]), .next 0, .next 0, .next 1, .next 1, .next 1, .next 0, .next 1, .next 0]

theorem appends_linearize_overtaking : ∃ s : Logged ℕ,
    Trace.Reach (Trace.restrict Logged.Fits (Logged.step 1)) (Logged.start (init tiny [0])) s ∧
      s.history = [.append [1], .append [2]] ∧ s.run.cli.fileSize = 1 ∧ (s.last (Client.fresh tiny)).fileSize = 2 ∧
      ∀ x, x < tiny.seqOffset → s.run.cli.buffer.mem x = (s.last (Client.fresh tiny)).buffer.mem x := by
  obtain ⟨s, hs, hbuf, hsize, hcopied⟩ : ∃ s : Logged ℕ,
      Trace.Reach (Trace.restrict Logged.Fits (Logged.step 1)) (Logged.start (init tiny [0])) s ∧
        s.order.map Reserved.buf = [[1], [2]] ∧ s.run.cli.fileSize = 1 ∧
        s.run.threads.map Thread.pos = [.copied 0 1, .copied 1 1] :=
    Trace.exists_reach_of_exec overtaking (by decide +kernel)
  have hhist : s.history = [.append [1], .append [2]] :=
    calc s.history = (s.order.map Reserved.buf).map Op.append := List.map_map.symm
      _ = [.append [1], .append [2]] := by rw [hbuf]; rfl
  have hlin := appends_linearize rfl (by decide) (by decide) (by decide) hs
  refine ⟨s, hs, hhist, hsize, ?_, fun x hx => hlin.2.2.2.2.1 x hx fun t ht => ?_⟩
  · rw [Logged.last, hhist]
    decide
  · have hpos : t.pos ∈ s.run.threads.map Thread.pos := List.mem_map_of_mem ht
    rw [hcopied] at hpos
    rcases List.mem_cons.mp hpos with hpos | hpos
    · rw [hpos]
      exact id
    · rw [List.mem_singleton.mp hpos]
      exact id

end Linear

end Threads
end ComputeSideLog
