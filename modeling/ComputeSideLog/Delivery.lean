/-
# What the peers hold, over whole runs

The invariant of the machine of `System.lean`, kept by every step:

* the local buffer holds, byte by byte, the image of all calls made or of all
  but the one being stored (`WriterOk`);
* a connection's writes are in the order of their posts, each carries the
  range of its call, and what the card has read of it is from an image no
  older than its post (`ConnOk`);
* a peer's memory is what landed there since its last crash, in the order of
  the posts, and everything applied through a connection that was not lost
  has landed (`RegionOk`).

So a peer holds at every position a byte of an image no older than any
applied write that covers it: `Inv.mem_image`, `Inv.mem_current`.
-/
import ComputeSideLog.System

namespace ComputeSideLog

open Quorum (Half)

/-- A fresh client after the first `m` calls. -/
def clientAt (L : Layout) (log : List Call) (m : ℕ) : Client := (Client.fresh L).run (log.take m)

section Log

variable {L : Layout} {log : List Call}

theorem clientAt_mem (L : Layout) (log : List Call) (m : ℕ) : (clientAt L log m).buffer.mem = image L log m := rfl

theorem clientAt_length (L : Layout) (log : List Call) :
    clientAt L log log.length = (Client.fresh L).run log := by
  rw [clientAt, List.take_length]

theorem clientAt_append {m : ℕ} (h : m ≤ log.length) (w : Call) :
    clientAt L (log ++ [w]) m = clientAt L log m := by
  rw [clientAt, clientAt, List.take_append_of_le_length h]

theorem image_append {m : ℕ} (h : m ≤ log.length) (w : Call) : image L (log ++ [w]) m = image L log m := by
  rw [← clientAt_mem, clientAt_append h, clientAt_mem]

theorem clientAt_succ {m : ℕ} {w : Call} (h : log[m]? = some w) :
    clientAt L log (m + 1) = (clientAt L log m).call w := by
  rw [clientAt, List.take_add_one, h, Option.toList_some, Client.run_concat]
  rfl

/-- A byte that a call does not write is the same in both images. -/
theorem image_eq_of_not_writes {m : ℕ} {w : Call} (h : log[m]? = some w) {x : ℕ}
    (hx : ¬ w.Writes (clientAt L log m) x) : image L log (m + 1) x = image L log m x := by
  rw [← clientAt_mem, clientAt_succ h, Client.call_mem_off hx, clientAt_mem]

theorem clientAt_wf (L : Layout) (log : List Call) (m : ℕ) : (clientAt L log m).Wf :=
  (Client.fresh_wf L).run _

@[simp] theorem clientAt_seqOffset (L : Layout) (log : List Call) (m : ℕ) :
    (clientAt L log m).seqOffset = L.seqOffset := by
  rw [clientAt, Client.run_seqOffset, Client.fresh_seqOffset]

@[simp] theorem clientAt_seqAddr (L : Layout) (log : List Call) (m : ℕ) :
    (clientAt L log m).seqAddr = L.seqOffset :=
  (clientAt_wf L log m).addr.trans (clientAt_seqOffset L log m)

theorem allIn_get (ha : AllIn (Client.fresh L) log) {m : ℕ} {w : Call}
    (hw : log[m]? = some w) : w.InBounds (clientAt L log m) := by
  obtain ⟨hlt, hget⟩ := List.getElem?_eq_some_iff.mp hw
  exact inBounds_drop ha (by rw [List.drop_eq_getElem_cons hlt, hget])

theorem image_zero (L : Layout) (log : List Call) : image L log 0 = Mem.zero := rfl

end Log

section WithMem

variable (c : Client) (m : Mem) (w : Call)

@[simp] theorem Client.withMem_mem : (c.withMem m).buffer.mem = m := rfl
@[simp] theorem Client.withMem_self : c.withMem c.buffer.mem = c := rfl
@[simp] theorem Client.withMem_withMem (m' : Mem) : (c.withMem m).withMem m' = c.withMem m' := rfl
@[simp] theorem Client.withMem_seqAddr : (c.withMem m).seqAddr = c.seqAddr := rfl
@[simp] theorem Client.withMem_seqOffset : (c.withMem m).seqOffset = c.seqOffset := rfl
@[simp] theorem Client.withMem_fileSize : (c.withMem m).fileSize = c.fileSize := rfl

end WithMem

namespace Sys

variable {α : Type*} {L : Layout} {s : Sys α}

/-! ### The writer -/

/-- The last call of the log writes `size` bytes at `off`. -/
def LastCall (L : Layout) (log : List Call) (off size : ℕ) : Prop :=
  ∃ ws w, log = ws ++ [w] ∧ off = w.off ((Client.fresh L).run ws) ∧ size = w.size ((Client.fresh L).run ws)

/-- What the writer's program counter says about the last call. -/
def PcOk (L : Layout) (s : Sys α) : Prop :=
  match s.pc with
  | .idle => True
  | .storing off size target => LastCall L s.log off size ∧ target = image L s.log s.log.length
  | .posted off size => LastCall L s.log off size

/-- The client is the one after the calls of the log, but for the bytes that
are still being stored. -/
structure WriterOk (L : Layout) (s : Sys α) : Prop where
  cli : s.cli = ((Client.fresh L).run s.log).withMem s.cli.buffer.mem
  pc : PcOk L s
  loc : ∀ x, ∃ j, s.postedCalls ≤ j ∧ j ≤ s.log.length ∧ s.cli.buffer.mem x = image L s.log j x

theorem postedCalls_le (s : Sys α) : s.postedCalls ≤ s.log.length := by
  unfold postedCalls
  split <;> omega

theorem postedCalls_of_not_storing (h : ∀ off size target, s.pc ≠ .storing off size target) :
    s.postedCalls = s.log.length := by
  unfold postedCalls
  split
  · rename_i off size target hpc
    exact absurd hpc (h off size target)
  · rfl

theorem postedCalls_storing {off size : ℕ} {target : Mem} (h : s.pc = .storing off size target) :
    s.postedCalls = s.log.length - 1 := by
  unfold postedCalls
  rw [h]

/-- Between calls the client is the one after the calls of the log. -/
theorem WriterOk.cli_eq (h : WriterOk L s) (hp : s.postedCalls = s.log.length) :
    s.cli = (Client.fresh L).run s.log := by
  have hmem : s.cli.buffer.mem = ((Client.fresh L).run s.log).buffer.mem := by
    funext x
    obtain ⟨j, h1, h2, h3⟩ := h.loc x
    have hj : j = s.log.length := by omega
    rw [h3, hj, image, List.take_length]
  rw [h.cli, hmem, Client.withMem_self]

theorem LastCall.get {log : List Call} {off size : ℕ} (h : LastCall L log off size) : 0 < log.length ∧
    ∃ w, log[log.length - 1]? = some w ∧ off = w.off (clientAt L log (log.length - 1)) ∧
      size = w.size (clientAt L log (log.length - 1)) := by
  obtain ⟨ws, w, rfl, rfl, rfl⟩ := h
  have hlen : (ws ++ [w]).length - 1 = ws.length := by simp
  rw [hlen, clientAt, List.take_left]
  exact ⟨by simp, w, by simp, rfl, rfl⟩

/-- When all bytes of the call are visible, so is the whole image. -/
theorem WriterOk.stored (h : WriterOk L s) {off size : ℕ} {target : Mem}
    (hpc : s.pc = .storing off size target) (hst : s.Stored off size target) :
    s.cli = (Client.fresh L).run s.log := by
  have hok := h.pc
  simp only [PcOk, hpc] at hok
  obtain ⟨hlast, rfl⟩ := hok
  obtain ⟨hpos, w, hw, rfl, rfl⟩ := hlast.get
  have haddr : s.cli.seqAddr = L.seqOffset := by
    rw [h.cli, Client.withMem_seqAddr, ← clientAt_length, clientAt_seqAddr]
  have hmem : s.cli.buffer.mem = ((Client.fresh L).run s.log).buffer.mem := by
    rw [← clientAt_length, clientAt_mem]
    funext x
    by_cases hx : w.Writes (clientAt L s.log (s.log.length - 1)) x
    · rcases hx with hx | hx
      · exact hst.1 x hx.1 hx.2
      · rw [clientAt_seqAddr, ← haddr] at hx
        exact hst.2 x hx.1 hx.2
    · -- the call leaves the byte alone, so it does not matter which image it is from
      have hsame := image_eq_of_not_writes hw hx
      rw [Nat.sub_add_cancel hpos] at hsame
      obtain ⟨j, h1, h2, h3⟩ := h.loc x
      rw [postedCalls_storing hpc] at h1
      rw [h3]
      rcases Nat.lt_or_ge j s.log.length with hj | hj
      · rw [show j = s.log.length - 1 by omega, hsame]
      · rw [le_antisymm h2 hj]
  rw [h.cli, hmem, Client.withMem_self]

theorem WriterOk.begin (h : WriterOk L s) (hpc : s.pc = .idle) (w : Call) : WriterOk L (s.begin w) := by
  have hp : s.postedCalls = s.log.length := postedCalls_of_not_storing (by simp [hpc])
  have hcli := h.cli_eq hp
  refine ⟨?_, ?_, fun x => ?_⟩
  · show (s.cli.call w).withMem s.cli.buffer.mem =
      ((Client.fresh L).run (s.log ++ [w])).withMem s.cli.buffer.mem
    rw [Client.run_concat, ← hcli]
  · refine ⟨⟨s.log, w, rfl, by rw [hcli], by rw [hcli]⟩, ?_⟩
    show (s.cli.call w).buffer.mem = image L (s.log ++ [w]) (s.log ++ [w]).length
    rw [image, List.take_length, Client.run_concat, hcli]
  · obtain ⟨j, h1, h2, h3⟩ := h.loc x
    refine ⟨j, ?_, ?_, ?_⟩
    · show (s.log ++ [w]).length - 1 ≤ j
      rw [List.length_append]
      simpa using hp ▸ h1
    · show j ≤ (s.log ++ [w]).length
      rw [List.length_append]
      omega
    · show s.cli.buffer.mem x = image L (s.log ++ [w]) j x
      rw [image_append h2, h3]

theorem WriterOk.put (h : WriterOk L s) {off size : ℕ} {target : Mem} (hpc : s.pc = .storing off size target)
    (o l : ℕ) : WriterOk L (s.put target o l) := by
  have hok := h.pc
  simp only [PcOk, hpc] at hok
  obtain ⟨-, rfl⟩ := hok
  refine ⟨?_, h.pc, fun x => ?_⟩
  · show s.cli.withMem _ = _
    rw [h.cli]
    rfl
  · show ∃ j, s.postedCalls ≤ j ∧ j ≤ s.log.length ∧
      (s.cli.buffer.mem.copy (image L s.log s.log.length) o l) x = image L s.log j x
    by_cases hx : o ≤ x ∧ x < o + l
    · rw [Mem.copy_in hx]
      exact ⟨s.log.length, s.postedCalls_le, le_rfl, rfl⟩
    · rw [Mem.copy_out hx]
      exact h.loc x

/-- A step that leaves the client, the log and the number of posted calls
alone keeps the writer's part. -/
theorem WriterOk.congr {t : Sys α} (h : WriterOk L s) (hcli : t.cli = s.cli) (hlog : t.log = s.log)
    (hp : t.postedCalls = s.postedCalls) (hpc : PcOk L t) : WriterOk L t := by
  refine ⟨?_, hpc, ?_⟩
  · rw [hcli, hlog]
    exact h.cli
  · rw [hcli, hlog, hp]
    exact h.loc

end Sys

/-! ### The connections -/

/-- The range of a posted write: that of its call, of the whole file, or of
the trailer. -/
def Shape (L : Layout) (log : List Call) (first : ℕ) (o : Dma.Op Role) : Prop :=
  match o.tag with
  | .token i .data => o.born = first + i + 1 ∧ ∃ w, log[first + i]? = some w ∧
      o.off = w.off (clientAt L log (first + i)) ∧ o.len = w.size (clientAt L log (first + i)) % 2 ^ 32
  | .token i .seq => o.born = first + i + 1 ∧ o.off = L.seqOffset ∧ o.len = seqWidth
  | .bulk .data => o.off = 0 ∧ ∃ m, o.born ≤ m ∧ m ≤ log.length ∧
      o.len = (clientAt L log m).fileSize % 2 ^ 32
  | .bulk .seq => o.off = L.seqOffset ∧ o.len = seqWidth

/-- The invariant of a connection, `p` calls being posted in all and `posted`
of them through it. -/
structure ConnOk (L : Layout) (log : List Call) (p posted : ℕ) (c : Conn) : Prop where
  applied_le : c.applied ≤ c.ops.length
  first_le : c.first ≤ p
  ordered : (c.ops.map Dma.Op.born).Pairwise (· ≤ ·)
  born : ∀ o ∈ c.ops, c.first ≤ o.born ∧ o.born ≤ p
  faithful : ∀ o ∈ c.ops, o.Faithful (image L log) log.length
  shape : ∀ o ∈ c.ops, Shape L log c.first o
  halves : ∀ i, i < posted → ∀ h, Role.token i h ∈ c.ops.map Dma.Op.tag

section Conn

variable {L : Layout} {log : List Call} {p posted : ℕ} {c : Conn}

theorem Shape.append {first : ℕ} {o : Dma.Op Role} (h : Shape L log first o) (w : Call) :
    Shape L (log ++ [w]) first o := by
  unfold Shape at h ⊢
  split at h
  · obtain ⟨hb, v, hv, h1, h2⟩ := h
    have hlt : _ < log.length := (List.getElem?_eq_some_iff.mp hv).1
    refine ⟨hb, v, ?_, ?_, ?_⟩
    · rw [List.getElem?_append_left hlt, hv]
    · rw [clientAt_append hlt.le, h1]
    · rw [clientAt_append hlt.le, h2]
  · exact h
  · obtain ⟨h0, m, h1, h2, h3⟩ := h
    refine ⟨h0, m, h1, ?_, ?_⟩
    · rw [List.length_append]
      omega
    · rw [clientAt_append h2, h3]
  · exact h

theorem ConnOk.append (h : ConnOk L log p posted c) (w : Call) : ConnOk L (log ++ [w]) p posted c where
  applied_le := h.applied_le
  first_le := h.first_le
  ordered := h.ordered
  born := h.born
  faithful o ho := (h.faithful o ho).mono (by simp) fun j hj => image_append hj w
  shape o ho := (h.shape o ho).append w
  halves := h.halves

theorem ConnOk.mono {p' : ℕ} (h : ConnOk L log p posted c) (hp : p ≤ p') : ConnOk L log p' posted c :=
  ⟨h.applied_le, h.first_le.trans hp, h.ordered, fun o ho => ⟨(h.born o ho).1, (h.born o ho).2.trans hp⟩,
    h.faithful, h.shape, h.halves⟩

theorem connOk_new (L : Layout) (log : List Call) {p first : ℕ} (hp : first ≤ p) (copied : Bool) :
    ConnOk L log p 0 (.new first copied) where
  applied_le := le_rfl
  first_le := hp
  ordered := List.Pairwise.nil
  born := by simp [Conn.new]
  faithful := by simp [Conn.new]
  shape := by simp [Conn.new]
  halves i hi := absurd hi (Nat.not_lt_zero i)

/-- The flags of a connection do not matter. -/
theorem ConnOk.flags (h : ConnOk L log p posted c) (working lost copied : Bool) :
    ConnOk L log p posted { c with working := working, lost := lost, copied := copied } :=
  ⟨h.applied_le, h.first_le, h.ordered, h.born, h.faithful, h.shape, h.halves⟩

theorem ConnOk.fetch (h : ConnOk L log p posted c) {src : Mem}
    (hsrc : ∀ x, ∃ j, p ≤ j ∧ j ≤ log.length ∧ src x = image L log j x) (k off len : ℕ) :
    ConnOk L log p posted (c.fetch k src off len) where
  applied_le := by
    simp only [Conn.fetch, List.length_modify]
    exact h.applied_le
  first_le := h.first_le
  ordered := by
    simp only [Conn.fetch]
    rw [Dma.map_modify_fetch fun _ => rfl]
    exact h.ordered
  born o ho := by
    obtain ⟨o₀, ho₀, rfl | rfl⟩ := Dma.mem_modify ho
    · exact h.born o ho₀
    · exact h.born o₀ ho₀
  faithful o ho := by
    obtain ⟨o₀, ho₀, rfl | rfl⟩ := Dma.mem_modify ho
    · exact h.faithful o ho₀
    · refine (h.faithful o₀ ho₀).fetch (fun x => ?_) off len
      obtain ⟨j, h1, h2, h3⟩ := hsrc x
      exact ⟨j, (h.born o₀ ho₀).2.trans h1, h2, h3⟩
  shape o ho := by
    obtain ⟨o₀, ho₀, rfl | rfl⟩ := Dma.mem_modify ho
    · exact h.shape o ho₀
    · exact h.shape o₀ ho₀
  halves := by
    simp only [Conn.fetch]
    rw [Dma.map_modify_fetch fun _ => rfl]
    exact h.halves

theorem ConnOk.advance (h : ConnOk L log p posted c) (hlt : c.applied < c.ops.length) :
    ConnOk L log p posted { c with applied := c.applied + 1 } :=
  ⟨hlt, h.first_le, h.ordered, h.born, h.faithful, h.shape, h.halves⟩

/-- What a post needs: writes posted now, of the right shape, read faithfully
if they are read at all. -/
theorem ConnOk.push (h : ConnOk L log p posted c) {os : List (Dma.Op Role)} {p' posted' : ℕ} (hp : p ≤ p')
    (hb : ∀ o ∈ os, o.born = p')
    (hf : ∀ o ∈ os, o.Faithful (image L log) log.length) (hs : ∀ o ∈ os, Shape L log c.first o)
    (hh : ∀ i, posted ≤ i → i < posted' → ∀ h, Role.token i h ∈ os.map Dma.Op.tag) :
    ConnOk L log p' posted' (c.push os) where
  applied_le := by
    simp only [Conn.push, List.length_append]
    exact h.applied_le.trans (Nat.le_add_right _ _)
  first_le := h.first_le.trans hp
  ordered := by
    simp only [Conn.push, List.map_append, List.pairwise_append, List.mem_map]
    refine ⟨h.ordered, ?_, ?_⟩
    · rw [List.pairwise_map]
      exact List.pairwise_of_forall_mem_list fun o ho o' ho' => (hb o ho).trans_le (hb o' ho').ge
    · rintro _ ⟨o, ho, rfl⟩ _ ⟨o', ho', rfl⟩
      exact ((h.born o ho).2.trans hp).trans (hb o' ho').ge
  born o ho := by
    rcases List.mem_append.mp ho with ho | ho
    · exact ⟨(h.born o ho).1, (h.born o ho).2.trans hp⟩
    · rw [hb o ho]
      exact ⟨h.first_le.trans hp, le_rfl⟩
  faithful o ho := (List.mem_append.mp ho).elim (h.faithful o) (hf o)
  shape o ho := (List.mem_append.mp ho).elim (h.shape o) (hs o)
  halves i hi half := by
    simp only [Conn.push, List.map_append, List.mem_append]
    rcases Nat.lt_or_ge i posted with hlt | hge
    · exact .inl (h.halves i hlt half)
    · exact .inr (hh i hge hi half)

/-- A pair of writes, read at the post or later. -/
theorem mem_postPair {r : Reads} {off₁ len₁ off₂ len₂ : ℕ} {src : Mem} {role : Half → Role} {b : ℕ}
    {o : Dma.Op Role} (h : o ∈ postPair r [⟨off₁, len₁, src⟩, ⟨off₂, len₂, src⟩] role b) :
    o.born = b ∧ (∀ x v, o.buf x = some v → v = src x) ∧
      ((o.tag = role .data ∧ o.off = off₁ ∧ o.len = len₁) ∨ (o.tag = role .seq ∧ o.off = off₂ ∧ o.len = len₂)) := by
  have hbuf : ∀ x v, (if r = .atPost then some (src x) else none) = some v → v = src x := by
    intro x v hv
    split at hv
    · exact (Option.some.inj hv).symm
    · cases hv
  simp only [postPair, List.zipWith_cons_cons, List.zipWith_nil_right, List.mem_cons, List.not_mem_nil,
    or_false] at h
  rcases h with rfl | rfl
  · exact ⟨rfl, hbuf, .inl ⟨rfl, rfl, rfl⟩⟩
  · exact ⟨rfl, hbuf, .inr ⟨rfl, rfl, rfl⟩⟩

/-- What is applied does not change by a post. -/
theorem ConnOk.take_push (h : ConnOk L log p posted c) (os : List (Dma.Op Role)) :
    (c.push os).ops.take (c.push os).applied = c.ops.take c.applied :=
  List.take_append_of_le_length h.applied_le

theorem ConnOk.drop_push (h : ConnOk L log p posted c) (os : List (Dma.Op Role)) :
    (c.push os).ops.drop (c.push os).applied = c.ops.drop c.applied ++ os :=
  List.drop_append_of_le_length h.applied_le

/-- A step of a connection that applies nothing: it may stop working, and what
it carries is what it carried, read further, or posted after `p` calls. -/
structure Evolves (p : ℕ) (c c' : Conn) : Prop where
  first : c'.first = c.first
  take : c'.ops.take c'.applied = c.ops.take c.applied
  lost : c'.lost = false → c.lost = false
  working : c'.working = true → c.working = true
  drop : ∀ o ∈ c'.ops.drop c'.applied, p ≤ o.born ∨ ∃ o₀ ∈ c.ops.drop c.applied, o₀.born = o.born

theorem Evolves.refl (p : ℕ) (c : Conn) : Evolves p c c :=
  ⟨rfl, rfl, id, id, fun o ho => .inr ⟨o, ho, rfl⟩⟩

theorem Evolves.done {c' : Conn} (h : Evolves p c c') {role : Role} (hd : c.Done role) : c'.Done role := by
  obtain ⟨o, ho, htag⟩ := hd
  exact ⟨o, by rwa [h.take], htag⟩

theorem ConnOk.evolves_push (h : ConnOk L log p posted c) {os : List (Dma.Op Role)} (hb : ∀ o ∈ os, p ≤ o.born)
    (copied : Bool) : Evolves p c { c.push os with copied := copied } := by
  refine ⟨rfl, h.take_push os, id, id, fun o ho => ?_⟩
  have ho : o ∈ (c.push os).ops.drop (c.push os).applied := ho
  rw [h.drop_push] at ho
  rcases List.mem_append.mp ho with ho | ho
  · exact .inr ⟨o, ho, rfl⟩
  · exact .inl (hb o ho)

theorem evolves_fetch {k : ℕ} (hk : c.applied ≤ k) (src : Mem) (off len : ℕ) :
    Evolves p c (c.fetch k src off len) := by
  refine ⟨rfl, Dma.take_modify_of_le hk, id, id, fun o ho => ?_⟩
  simp only [Conn.fetch] at ho
  rw [List.drop_modify_of_ge _ _ _ _ hk] at ho
  obtain ⟨o₀, ho₀, rfl | rfl⟩ := Dma.mem_modify ho
  · exact .inr ⟨o, ho₀, rfl⟩
  · exact .inr ⟨o₀, ho₀, rfl⟩

theorem evolves_update {conn : ℕ → Conn} {e : ℕ} (h : Evolves p (conn e) c) (e' : ℕ) :
    Evolves p (conn e') (Function.update conn e c e') :=
  Conn.of_update (P := Evolves p (conn e')) (.refl p _) fun he => he ▸ h

end Conn

namespace Sys

variable {α : Type*} {L : Layout} {s t : Sys α}

/-! ### The peers -/

/-- A peer's memory is what landed there. What is applied through a connection
that was not lost has landed, and what a working connection still carries was
posted after everything that landed. -/
structure RegionOk (L : Layout) (s : Sys α) : Prop where
  mem : ∀ a, s.mem a = Dma.landAll Mem.zero (s.landed a)
  ordered : ∀ a, Dma.Ordered (s.landed a)
  loaded : ∀ a, ∀ o ∈ s.landed a, o.Loaded (image L s.log) s.log.length
  born : ∀ a, ∀ o ∈ s.landed a, o.born ≤ s.postedCalls
  arrived : ∀ e, e < s.q.made → (s.conn e).lost = false →
    ∀ o ∈ (s.conn e).ops.take (s.conn e).applied, o ∈ s.landed (s.q.entry e).addr
  pending : ∀ e, e < s.q.made → (s.conn e).working = true →
    ∀ o ∈ (s.conn e).ops.drop (s.conn e).applied, ∀ o' ∈ s.landed (s.q.entry e).addr, o'.born ≤ o.born
  one : ∀ e e', e < s.q.made → e' < s.q.made → (s.conn e).working = true → (s.conn e').working = true →
    (s.q.entry e).addr = (s.q.entry e').addr → e = e'

/-- A step that lands nothing and makes no connection keeps the peers' part. -/
theorem RegionOk.evolve (h : RegionOk L s) (hmem : t.mem = s.mem) (hlanded : t.landed = s.landed)
    (hload : ∀ o : Dma.Op Role, o.Loaded (image L s.log) s.log.length → o.Loaded (image L t.log) t.log.length)
    (hp : s.postedCalls ≤ t.postedCalls) (hmade : t.q.made = s.q.made)
    (haddr : ∀ e, (t.q.entry e).addr = (s.q.entry e).addr)
    (hconn : ∀ e, Evolves s.postedCalls (s.conn e) (t.conn e)) : RegionOk L t where
  mem a := by
    rw [hmem, hlanded]
    exact h.mem a
  ordered a := by
    rw [hlanded]
    exact h.ordered a
  loaded a o ho := by
    rw [hlanded] at ho
    exact hload o (h.loaded a o ho)
  born a o ho := by
    rw [hlanded] at ho
    exact (h.born a o ho).trans hp
  arrived e he hl := by
    rw [hlanded, haddr, (hconn e).take]
    exact h.arrived e (hmade ▸ he) ((hconn e).lost hl)
  pending e he hw o ho o' ho' := by
    rw [hlanded, haddr] at ho'
    rcases (hconn e).drop o ho with hb | ⟨o₀, ho₀, hb⟩
    · exact (h.born _ o' ho').trans hb
    · rw [← hb]
      exact h.pending e (hmade ▸ he) ((hconn e).working hw) o₀ ho₀ o' ho'
  one e e' he he' hw hw' := by
    rw [haddr, haddr]
    exact h.one e e' (hmade ▸ he) (hmade ▸ he') ((hconn e).working hw) ((hconn e').working hw')

/-- The invariant of the machine. -/
structure Inv (L : Layout) (s : Sys α) : Prop where
  quorum : Quorum.Inv s.q
  writer : WriterOk L s
  conn : ∀ e, ConnOk L s.log s.postedCalls (s.q.entry e).posted (s.conn e)
  live : ∀ e ∈ s.q.props, (s.conn e).first + (s.q.entry e).posted = s.postedCalls
  done : ∀ e i h, s.q.completed e i h = true → (s.conn e).Done (.token i h)
  waiting : ∀ tokens, s.q.waiting = some tokens → (∃ off size, s.pc = .posted off size) ∧
    ∀ t ∈ tokens, (s.conn t.1).first + t.2 + 1 = s.log.length
  region : RegionOk L s

theorem inv_init [DecidableEq α] [Inhabited α] (L : Layout) (addrs : List α) : Inv L (init L addrs) where
  quorum := Quorum.inv_init addrs
  writer := ⟨rfl, trivial, fun _ => ⟨0, le_rfl, le_rfl, rfl⟩⟩
  conn e := by
    obtain ⟨a, ha⟩ := (Quorum.blank_init addrs).entries e
    simp only [init, ha]
    exact connOk_new L [] le_rfl true
  live e _ := by
    obtain ⟨a, ha⟩ := (Quorum.blank_init addrs).entries e
    simp only [init, ha]
    rfl
  done e i h hc := by
    obtain ⟨a, ha⟩ := (Quorum.blank_init addrs).entries e
    simp [init, Quorum.State.completed, ha, Quorum.Entry.new] at hc
  waiting tokens hw := absurd ((Quorum.blank_init addrs).waiting.symm.trans hw) (by simp)
  region := by
    refine ⟨fun _ => rfl, fun _ => List.Pairwise.nil, ?_, ?_, ?_, ?_, fun e e' he he' _ _ => ?_⟩
    · simp [init]
    · simp [init]
    · simp [init, Conn.new]
    · simp [init, Conn.new]
    · exact (Quorum.blank_init addrs).inj e e' he he'

/-! ### Steps of the bookkeeping -/

/-- A step of the bookkeeping that makes nothing, and at most ends the wait. -/
theorem Inv.calm (h : Inv L s) {q : Quorum.State α} (hq : Quorum.Inv q) (hcalm : Quorum.Calm s.q q)
    (hdone : ∀ e i h, q.completed e i h = true → (s.conn e).Done (.token i h)) : Inv L (s.withQ q) where
  quorum := hq
  writer := ⟨h.writer.cli, h.writer.pc, h.writer.loc⟩
  conn e := by
    show ConnOk L s.log s.postedCalls (q.entry e).posted (s.conn e)
    rw [hcalm.posted e]
    exact h.conn e
  live e he := by
    show (s.conn e).first + (q.entry e).posted = s.postedCalls
    rw [hcalm.posted e]
    exact h.live e (hcalm.props e he)
  done := hdone
  waiting tokens hw := h.waiting tokens (hcalm.waiting tokens hw)
  region := h.region.evolve rfl rfl (fun _ ho => ho) le_rfl hcalm.made hcalm.addr fun _ => .refl _ _

section Bookkeeping

variable [DecidableEq α] {rep : ℕ} {q : Quorum.State α}

theorem Inv.quiet (h : Inv L s) {ev : Event α} {qev : Quorum.Event α} (hev : ev.bookkeeping = some qev)
    (hq : Quorum.step rep s.q qev = some q) : Inv L (s.withQ q) :=
  h.calm (h.quorum.step hq) (bookkeeping_calm hev hq) fun e i half hc =>
    h.done e i half (bookkeeping_completed hev hq hc)

theorem Inv.complete (h : Inv L s) {e i : ℕ} {half : Half} (hd : (s.conn e).Done (.token i half))
    (hq : Quorum.step rep s.q (.complete e i half) = some q) : Inv L (s.withQ q) := by
  refine h.calm (h.quorum.step hq) (Quorum.calm_step hq (by simp) (by simp)) fun e' i' half' hc => ?_
  rcases Quorum.completed_step hq hc with hc | hev
  · exact h.done e' i' half' hc
  · simp only [Quorum.Event.complete.injEq] at hev
    obtain ⟨rfl, rfl, rfl⟩ := hev
    exact hd

theorem Inv.ret (h : Inv L s) (hq : Quorum.step rep s.q .ret = some q) : Inv L (s.ret rep q) := by
  have hcalm := h.calm (h.quorum.step hq) (Quorum.calm_step hq (by simp) (by simp)) fun e i half hc =>
    h.done e i half ((Quorum.completed_step hq hc).resolve_right (by simp))
  obtain ⟨tokens, hw, hnone⟩ := Quorum.ret_waiting hq
  obtain ⟨off, size, hpc⟩ := (h.waiting tokens hw).1
  -- the writer was waiting, so the number of posted calls is that of the log
  have hp : (s.ret rep q).postedCalls = s.postedCalls := by
    rw [postedCalls_of_not_storing (s := s) (by simp [hpc])]
    rfl
  refine ⟨hcalm.quorum, h.writer.congr rfl rfl hp trivial, fun e => ?_, fun e he => ?_, hcalm.done,
    fun tokens hw => absurd (hnone.symm.trans hw) (by simp),
    hcalm.region.evolve rfl rfl (fun _ ho => ho) hp.ge rfl (fun _ => rfl) fun _ => .refl _ _⟩
  · rw [hp]
    exact hcalm.conn e
  · rw [hp]
    exact hcalm.live e he

end Bookkeeping

/-! ### Steps of the writer -/

theorem Inv.begin (h : Inv L s) (hpc : s.pc = .idle) (w : Call) : Inv L (s.begin w) := by
  have hp : (s.begin w).postedCalls = s.postedCalls := by
    rw [postedCalls_of_not_storing (s := s) (by simp [hpc])]
    show (s.log ++ [w]).length - 1 = s.log.length
    simp
  refine ⟨h.quorum, h.writer.begin hpc w, fun e => ?_, fun e he => ?_, h.done, fun tokens hw => ?_,
    h.region.evolve rfl rfl (fun _ ho => ho.mono (by simp [Sys.begin]) fun j hj => image_append hj w) hp.ge rfl
      (fun _ => rfl) fun _ => .refl _ _⟩
  · rw [hp]
    exact (h.conn e).append w
  · rw [hp]
    exact h.live e he
  · obtain ⟨off, size, hpc'⟩ := (h.waiting tokens hw).1
    exact absurd (hpc.symm.trans hpc') (by simp)

theorem Inv.put (h : Inv L s) {off size : ℕ} {target : Mem} (hpc : s.pc = .storing off size target) (o l : ℕ) :
    Inv L (s.put target o l) :=
  ⟨h.quorum, h.writer.put hpc o l, h.conn, h.live, h.done, h.waiting,
    h.region.evolve rfl rfl (fun _ ho => ho) le_rfl rfl (fun _ => rfl) fun _ => .refl _ _⟩

/-- The two writes of a call, as they are posted to a live entry. -/
theorem Inv.postPair_ok (h : Inv L s) {off size : ℕ} {target : Mem} (hpc : s.pc = .storing off size target)
    (hst : s.Stored off size target) {e : ℕ} (he : e ∈ s.q.props) (r : Reads) :
    ConnOk L s.log s.log.length ((s.q.entry e).posted + 1)
      ((s.conn e).push (postPair r (s.cli.writeTwoPlace off size) (.token (s.q.entry e).posted) s.log.length)) := by
  have hcli := h.writer.stored hpc hst
  have hoff : s.cli.seqOffset = L.seqOffset := by rw [hcli, ← clientAt_length, clientAt_seqOffset]
  have hlive := h.live e he
  have hlast := h.writer.pc
  simp only [PcOk, hpc] at hlast
  obtain ⟨hpos, w, hw, hwoff, hwsize⟩ := hlast.1.get
  rw [postedCalls_storing hpc] at hlive
  have hborn : s.log.length = (s.conn e).first + (s.q.entry e).posted + 1 := by omega
  refine (h.conn e).push s.postedCalls_le ?_ ?_ ?_ ?_
  · intro o ho
    exact (mem_postPair ho).1
  · intro o ho x v hv
    obtain ⟨hb, hbuf, -⟩ := mem_postPair ho
    refine ⟨s.log.length, hb.le, le_rfl, ?_⟩
    rw [hbuf x v hv, hcli, ← clientAt_length]
    rfl
  · intro o ho
    obtain ⟨hb, -, ⟨htag, ho1, ho2⟩ | ⟨htag, ho1, ho2⟩⟩ := mem_postPair ho
    · simp only [Shape, htag]
      rw [hlive]
      exact ⟨by omega, w, hw, ho1.trans hwoff, by rw [ho2, hwsize]⟩
    · simp only [Shape, htag]
      exact ⟨hb.trans hborn, ho1.trans hoff, ho2⟩
  · intro i h1 h2 half
    obtain rfl : i = (s.q.entry e).posted := by omega
    cases half <;> simp [postPair, Client.writeTwoPlace]

/-- What a post does to a connection. -/
theorem Inv.post_evolves (h : Inv L s) (r : Reads) (q : Quorum.State α) (off size e : ℕ) :
    Evolves s.postedCalls (s.conn e) ((s.post r q off size).conn e) := by
  simp only [Sys.post]
  split
  · refine (h.conn e).evolves_push (fun o ho => ?_) (s.conn e).copied
    rw [(mem_postPair ho).1]
    exact s.postedCalls_le
  · exact .refl _ _

theorem Inv.post [DecidableEq α] {rep : ℕ} {q : Quorum.State α} (h : Inv L s) {off size : ℕ} {target : Mem}
    (hpc : s.pc = .storing off size target) (hst : s.Stored off size target)
    (hq : Quorum.step rep s.q .post = some q) (r : Reads) : Inv L (s.post r q off size) := by
  have hqI := h.quorum.step hq
  have hdone : ∀ e i half, q.completed e i half = true → s.q.completed e i half = true := fun e i half hc =>
    (Quorum.completed_step hq hc).resolve_right (by simp)
  obtain rfl := Quorum.eq_post hq
  have hlast := h.writer.pc
  simp only [PcOk, hpc] at hlast
  obtain ⟨hpos, -⟩ := hlast.1.get
  have hev := fun e => h.post_evolves r s.q.post off size e
  have hlive : ∀ e ∈ s.q.props, ((s.post r s.q.post off size).conn e).first + (s.q.entry e).posted + 1 =
      s.log.length := by
    intro e he
    have hlive := h.live e he
    rw [postedCalls_storing hpc] at hlive
    rw [(hev e).first]
    omega
  refine ⟨hqI, ⟨h.writer.cli, hlast.1, fun x => ?_⟩, fun e => ?_, fun e he => ?_, fun e i half hc => ?_,
    fun tokens hw => ⟨⟨off, size, rfl⟩, fun t ht => ?_⟩,
    h.region.evolve rfl rfl (fun _ ho => ho) s.postedCalls_le rfl (Quorum.post_addr s.q) hev⟩
  · refine ⟨s.log.length, le_rfl, le_rfl, ?_⟩
    show s.cli.buffer.mem x = _
    rw [h.writer.stored hpc hst, ← clientAt_length]
    rfl
  · show ConnOk L s.log s.log.length (s.q.post.entry e).posted _
    simp only [Sys.post, Quorum.State.post]
    split
    · exact h.postPair_ok hpc hst ‹_› r
    · exact (h.conn e).mono s.postedCalls_le
  · have hmem : e ∈ s.q.props := he
    show _ + (s.q.post.entry e).posted = s.log.length
    simp only [Quorum.State.post, if_pos hmem, Quorum.Entry.push_posted]
    exact hlive e hmem
  · exact (hev e).done (h.done e i half (hdone e i half hc))
  · obtain rfl := Option.some.inj hw
    obtain ⟨e, he, rfl⟩ := List.mem_map.mp ht
    exact hlive e he

/-! ### Steps of the network card, the peers and the watcher -/

/-- Steps that only change connections, and apply nothing. -/
theorem Inv.conns (h : Inv L s) {conn : ℕ → Conn}
    (hok : ∀ e, ConnOk L s.log s.postedCalls (s.q.entry e).posted (conn e))
    (hev : ∀ e, Evolves s.postedCalls (s.conn e) (conn e)) (watcher : Watcher) :
    Inv L { s with conn := conn, watcher := watcher } where
  quorum := h.quorum
  writer := ⟨h.writer.cli, h.writer.pc, h.writer.loc⟩
  conn := hok
  live e he := by
    show (conn e).first + _ = _
    rw [(hev e).first]
    exact h.live e he
  done e i half hc := (hev e).done (h.done e i half hc)
  waiting tokens hw := by
    refine ⟨(h.waiting tokens hw).1, fun t ht => ?_⟩
    show (conn t.1).first + _ + 1 = _
    rw [(hev t.1).first]
    exact (h.waiting tokens hw).2 t ht
  region := h.region.evolve rfl rfl (fun _ ho => ho) le_rfl rfl (fun _ => rfl) hev

/-- The invariant of the connections after one of them changed. -/
theorem Inv.conn_update (h : Inv L s) {e : ℕ} {c : Conn}
    (hc : ConnOk L s.log s.postedCalls (s.q.entry e).posted c) (e' : ℕ) :
    ConnOk L s.log s.postedCalls (s.q.entry e').posted (Function.update s.conn e c e') :=
  Conn.of_update (h.conn e') fun he => he ▸ hc

theorem Inv.fetch (h : Inv L s) {e k : ℕ} (hk : (s.conn e).applied ≤ k) (off len : ℕ) :
    Inv L { s with conn := Function.update s.conn e ((s.conn e).fetch k s.cli.buffer.mem off len) } :=
  h.conns (h.conn_update ((h.conn e).fetch h.writer.loc k off len))
    (evolves_update (evolves_fetch hk s.cli.buffer.mem off len)) s.watcher

theorem Inv.bulk (h : Inv L s) (r : Reads) (e : ℕ) : Inv L (s.bulk r e) := by
  have hoff : s.cli.seqOffset = L.seqOffset := by
    rw [h.writer.cli, Client.withMem_seqOffset, ← clientAt_length, clientAt_seqOffset]
  have hsize : s.cli.fileSize = (clientAt L s.log s.log.length).fileSize := by
    rw [h.writer.cli, Client.withMem_fileSize, clientAt_length]
  have hborn : ∀ o ∈ postPair r s.cli.syncWrites Role.bulk s.postedCalls, o.born = s.postedCalls :=
    fun o ho => (mem_postPair ho).1
  have hpush : ConnOk L s.log s.postedCalls (s.q.entry e).posted
      ((s.conn e).push (postPair r s.cli.syncWrites Role.bulk s.postedCalls)) := by
    refine (h.conn e).push le_rfl hborn (fun o ho x v hv => ?_) (fun o ho => ?_)
      (fun i h1 h2 => absurd h1 (not_le.mpr h2))
    · obtain ⟨hb, hbuf, -⟩ := mem_postPair ho
      obtain ⟨j, h1, h2, h3⟩ := h.writer.loc x
      exact ⟨j, hb ▸ h1, h2, by rw [hbuf x v hv, h3]⟩
    · obtain ⟨hb, -, ⟨htag, ho1, ho2⟩ | ⟨htag, ho1, ho2⟩⟩ := mem_postPair ho
      · simp only [Shape, htag]
        exact ⟨ho1, s.log.length, hb ▸ s.postedCalls_le, le_rfl, by rw [ho2, hsize]⟩
      · simp only [Shape, htag]
        exact ⟨ho1.trans hoff, ho2⟩
  exact h.conns (h.conn_update (hpush.flags _ _ true))
    (evolves_update ((h.conn e).evolves_push (fun o ho => (hborn o ho).ge) true)) _

variable [DecidableEq α]

theorem landed_land (s : Sys α) (e : ℕ) (o : Dma.Op Role) (a : α) : (s.land e o).landed a =
    if a = (s.q.entry e).addr then o :: s.landed (s.q.entry e).addr else s.landed a :=
  Function.update_apply _ _ _ _

/-- What has landed after one more write is that write or landed before. -/
theorem mem_landed_land {e : ℕ} {o o' : Dma.Op Role} {a : α} (h : o' ∈ (s.land e o).landed a) :
    o' ∈ s.landed a ∨ (a = (s.q.entry e).addr ∧ o' = o) := by
  rw [landed_land] at h
  split at h
  · rename_i ha
    rcases List.mem_cons.mp h with rfl | h
    · exact .inr ⟨ha, rfl⟩
    · exact .inl (ha ▸ h)
  · exact .inl h

omit [DecidableEq α] in
/-- The next write of a connection was posted after all that landed at its peer,
and before those behind it. -/
theorem Inv.land_between (h : Inv L s) {e : ℕ} {o : Dma.Op Role}
    (ho : (s.conn e).ops[(s.conn e).applied]? = some o) (he : e < s.q.made)
    (hw : (s.conn e).working = true) : (∀ o' ∈ s.landed (s.q.entry e).addr, o'.born ≤ o.born) ∧
      ∀ o' ∈ (s.conn e).ops.drop ((s.conn e).applied + 1), o.born ≤ o'.born := by
  obtain ⟨hlt, hget⟩ := List.getElem?_eq_some_iff.mp ho
  have hdrop : (s.conn e).ops.drop (s.conn e).applied = o :: (s.conn e).ops.drop ((s.conn e).applied + 1) := by
    rw [List.drop_eq_getElem_cons hlt, hget]
  constructor
  · exact h.region.pending e he hw o (hdrop ▸ List.mem_cons_self)
  · have hsorted := List.Pairwise.drop (i := (s.conn e).applied) (List.pairwise_map.mp (h.conn e).ordered)
    rw [hdrop] at hsorted
    exact (List.pairwise_cons.mp hsorted).1

/-- Applied writes have landed. -/
theorem Inv.land_arrived (h : Inv L s) {e e' : ℕ} {o o' : Dma.Op Role}
    (ho : (s.conn e).ops[(s.conn e).applied]? = some o) (he' : e' < s.q.made)
    (hl : ((s.land e o).conn e').lost = false)
    (ho' : o' ∈ ((s.land e o).conn e').ops.take ((s.land e o).conn e').applied) :
    o' ∈ (s.land e o).landed (s.q.entry e').addr := by
  rw [landed_land]
  simp only [Sys.land] at hl ho'
  by_cases hee : e' = e
  · subst hee
    rw [Function.update_self] at hl ho'
    rw [if_pos rfl]
    simp only [List.take_add_one, ho, Option.toList_some] at ho'
    rcases List.mem_append.mp ho' with ho' | ho'
    · exact List.mem_cons_of_mem _ (h.region.arrived e' he' hl o' ho')
    · rw [List.mem_singleton.mp ho']
      exact List.mem_cons_self
  · rw [Function.update_of_ne hee] at hl ho'
    have hold := h.region.arrived e' he' hl o' ho'
    split
    · rename_i ha
      exact List.mem_cons_of_mem _ (ha ▸ hold)
    · exact hold

/-- The peers' part after the next write of a working connection landed: it
was posted after all that landed before it, and no other connection to this
peer works. -/
theorem Inv.land_region (h : Inv L s) {e : ℕ} {o : Dma.Op Role}
    (ho : (s.conn e).ops[(s.conn e).applied]? = some o) (he : e < s.q.made)
    (hw : (s.conn e).working = true) (hready : o.Ready) : RegionOk L (s.land e o) := by
  have hr := h.region
  have hc := h.conn e
  have hmem : o ∈ (s.conn e).ops := List.mem_of_getElem? ho
  obtain ⟨hlater, hnext⟩ := h.land_between ho he hw
  refine ⟨fun a => ?_, fun a => ?_, fun a o' ho' => ?_, fun a o' ho' => ?_,
    fun e' he' hl o' ho' => h.land_arrived ho he' hl ho',
    fun e' he' hw' o' ho' o'' ho'' => ?_, fun e₁ e₂ h1 h2 hw1 hw2 => ?_⟩
  · rw [landed_land]
    simp only [Sys.land, Function.update_apply]
    split
    · rw [hr.mem]
      rfl
    · exact hr.mem a
  · rw [landed_land]
    split
    · exact List.pairwise_cons.mpr ⟨hlater, hr.ordered _⟩
    · exact hr.ordered a
  · rcases mem_landed_land ho' with ho' | ⟨-, rfl⟩
    · exact hr.loaded a o' ho'
    · exact (hc.faithful o' hmem).loaded hready
  · rcases mem_landed_land ho' with ho' | ⟨-, rfl⟩
    · exact hr.born a o' ho'
    · exact (hc.born o' hmem).2
  · simp only [Sys.land] at hw' ho'
    by_cases hee : e' = e
    · subst hee
      rw [Function.update_self] at ho'
      rcases mem_landed_land ho'' with ho'' | ⟨-, rfl⟩
      · exact (hlater o'' ho'').trans (hnext o' ho')
      · exact hnext o' ho'
    · rw [Function.update_of_ne hee] at hw' ho'
      rcases mem_landed_land ho'' with ho'' | ⟨ha, -⟩
      · exact hr.pending e' he' hw' o' ho' o'' ho''
      · exact absurd (hr.one e' e he' he hw' hw ha) hee
  · have hsame : ∀ e', ((s.land e o).conn e').working = (s.conn e').working := fun e' =>
      Conn.of_update (P := fun c => c.working = (s.conn e').working) rfl fun hee => by rw [hee]
    rw [hsame] at hw1 hw2
    exact hr.one e₁ e₂ h1 h2 hw1 hw2

theorem Inv.land (h : Inv L s) {e : ℕ} {o : Dma.Op Role}
    (ho : (s.conn e).ops[(s.conn e).applied]? = some o) (he : e < s.q.made)
    (hw : (s.conn e).working = true) (hready : o.Ready) : Inv L (s.land e o) := by
  have hlt := (List.getElem?_eq_some_iff.mp ho).1
  have hfirst : ∀ e', ((s.land e o).conn e').first = (s.conn e').first := fun e' =>
    Conn.of_update (P := fun c => c.first = (s.conn e').first) rfl fun hee => by rw [hee]
  refine ⟨h.quorum, ⟨h.writer.cli, h.writer.pc, h.writer.loc⟩, h.conn_update ((h.conn e).advance hlt),
    fun e' he' => ?_, fun e' i half hc => ?_, fun tokens hwt => ⟨(h.waiting tokens hwt).1, fun t ht => ?_⟩,
    h.land_region ho he hw hready⟩
  · rw [hfirst]
    exact h.live e' he'
  · obtain ⟨o', ho', htag⟩ := h.done e' i half hc
    refine ⟨o', Conn.of_update (P := fun c => o' ∈ c.ops.take c.applied) ho' fun hee => ?_, htag⟩
    rw [hee] at ho'
    exact List.take_subset_take_left _ (Nat.le_succ _) ho'
  · rw [hfirst]
    exact (h.waiting tokens hwt).2 t ht

section AddPeer

variable (a : α) (ok : Bool)

/-- The older connections after an `AddPeer`: those to the same server stop
working. -/
theorem add_evolves {e : ℕ} (he : e ≠ s.q.made) :
    Evolves s.postedCalls (s.conn e) ((s.add (s.q.add a) a ok).conn e) ∧
      ((s.q.entry e).addr = a → ((s.add (s.q.add a) a ok).conn e).working = false) := by
  simp only [Sys.add, if_neg he]
  split
  · exact ⟨⟨rfl, rfl, id, fun hc => absurd hc (by simp), fun o ho => .inr ⟨o, ho, rfl⟩⟩, fun _ => rfl⟩
  · rename_i ha
    exact ⟨.refl _ _, fun hc => absurd hc ha⟩

theorem add_conn_made : (s.add (s.q.add a) a ok).conn s.q.made = .new s.postedCalls false := if_pos rfl

/-- The peers' part after an `AddPeer`: the new connection is empty, and the
only one to its server that works. -/
theorem Inv.add_region (h : Inv L s) : RegionOk L (s.add (s.q.add a) a ok) := by
  have hr := h.region
  have hlt : ∀ e, e < (s.q.add a).made → e ≠ s.q.made → e < s.q.made := fun e he hem =>
    Nat.lt_of_le_of_ne (Nat.lt_succ_iff.mp he) hem
  refine ⟨hr.mem, hr.ordered, hr.loaded, hr.born, fun e he hl o ho => ?_, fun e he hw o ho => ?_,
    fun e e' he he' hw hw' => ?_⟩
  · by_cases hem : e = s.q.made
    · rw [hem, add_conn_made] at ho
      exact absurd ho (by simp [Conn.new])
    · show o ∈ s.landed ((s.q.add a).entry e).addr
      rw [Quorum.add_entry_of_ne hem]
      rw [(add_evolves a ok hem).1.take] at ho
      exact hr.arrived e (hlt e he hem) ((add_evolves a ok hem).1.lost hl) o ho
  · by_cases hem : e = s.q.made
    · rw [hem, add_conn_made] at ho
      exact absurd ho (by simp [Conn.new])
    · show ∀ o' ∈ s.landed ((s.q.add a).entry e).addr, _
      rw [Quorum.add_entry_of_ne hem]
      intro o' ho'
      rcases (add_evolves a ok hem).1.drop o ho with hb | ⟨o₀, ho₀, hb⟩
      · exact (hr.born _ o' ho').trans hb
      · rw [← hb]
        exact hr.pending e (hlt e he hem) ((add_evolves a ok hem).1.working hw) o₀ ho₀ o' ho'
  · show ((s.q.add a).entry e).addr = ((s.q.add a).entry e').addr → e = e'
    by_cases hem : e = s.q.made <;> by_cases hem' : e' = s.q.made
    · rw [hem, hem']
      exact fun _ => rfl
    · rw [hem, Quorum.add_entry_made, Quorum.add_entry_of_ne hem']
      intro ha
      rw [(add_evolves a ok hem').2 ha.symm] at hw'
      exact absurd hw' (by simp)
    · rw [hem', Quorum.add_entry_made, Quorum.add_entry_of_ne hem]
      intro ha
      rw [(add_evolves a ok hem).2 ha] at hw
      exact absurd hw (by simp)
    · rw [Quorum.add_entry_of_ne hem, Quorum.add_entry_of_ne hem']
      exact hr.one e e' (hlt e he hem) (hlt e' he' hem') ((add_evolves a ok hem).1.working hw)
        ((add_evolves a ok hem').1.working hw')

/-- An `AddPeer` makes an empty connection and closes the older ones to the
same server. -/
theorem Inv.add {rep : ℕ} {q : Quorum.State α} (h : Inv L s) (hq : Quorum.step rep s.q (.add a) = some q) :
    Inv L (s.add q a ok) := by
  have hqI := h.quorum.step hq
  have hdone : ∀ e i half, q.completed e i half = true → s.q.completed e i half = true := fun e i half hc =>
    (Quorum.completed_step hq hc).resolve_right (by simp)
  obtain rfl := Quorum.eq_add hq
  refine ⟨hqI, ⟨h.writer.cli, h.writer.pc, h.writer.loc⟩, fun e => ?_, fun e he => ?_, fun e i half hc => ?_,
    fun tokens hw => ⟨(h.waiting tokens hw).1, fun t ht => ?_⟩, h.add_region a ok⟩
  · show ConnOk L s.log s.postedCalls ((s.q.add a).entry e).posted _
    by_cases hem : e = s.q.made
    · rw [hem, add_conn_made, Quorum.add_entry_made]
      exact connOk_new L s.log le_rfl false
    · rw [Quorum.add_entry_of_ne hem]
      simp only [Sys.add, if_neg hem]
      split
      · exact (h.conn e).flags false _ _
      · exact h.conn e
  · show _ + ((s.q.add a).entry e).posted = s.postedCalls
    by_cases hem : e = s.q.made
    · rw [hem, add_conn_made, Quorum.add_entry_made]
      rfl
    · rw [(add_evolves a ok hem).1.first, Quorum.add_entry_of_ne hem]
      refine h.live e ?_
      rcases List.mem_append.mp he with he | he
      · exact (List.mem_filter.mp he).1
      · exact absurd (List.mem_singleton.mp he) hem
  · by_cases hem : e = s.q.made
    · have hc : (s.q.add a).completed e i half = true := hc
      rw [hem, Quorum.State.completed, Quorum.add_entry_made] at hc
      simp [Quorum.Entry.new] at hc
    · exact (add_evolves a ok hem).1.done (h.done e i half (hdone e i half hc))
  · have hlt := ((h.quorum.waiting tokens hw).2 t ht).1
    rw [(add_evolves a ok (Nat.ne_of_lt hlt)).1.first]
    exact (h.waiting tokens hw).2 t ht

end AddPeer

/-- The connections after a crash: those to the server stop working. -/
theorem crash_evolves (s : Sys α) (a : α) (e : ℕ) : Evolves s.postedCalls (s.conn e) ((s.crash a).conn e) := by
  simp only [Sys.crash]
  split
  · exact ⟨rfl, rfl, fun hc => absurd hc (by simp), fun hc => absurd hc (by simp), fun o ho => .inr ⟨o, ho, rfl⟩⟩
  · exact .refl _ _

/-- The peers' part after a crash: the region is empty, and nothing is claimed
of a lost connection. -/
theorem Inv.crash_region (h : Inv L s) (a : α) : RegionOk L (s.crash a) := by
  have hr := h.region
  have hlost : ∀ e, ((s.crash a).conn e).lost = false → (s.q.entry e).addr ≠ a := by
    intro e hc ha
    simp only [Sys.crash, if_pos ha] at hc
    cases hc
  have hsub : ∀ b, ∀ o ∈ (s.crash a).landed b, o ∈ s.landed b := by
    intro b o ho
    simp only [Sys.crash, Function.update_apply] at ho
    split at ho
    · exact absurd ho (by simp)
    · exact ho
  refine ⟨fun b => ?_, fun b => ?_, fun b o ho => hr.loaded b o (hsub b o ho),
    fun b o ho => hr.born b o (hsub b o ho), fun e he hl o ho => ?_, fun e he hw o ho o' ho' => ?_,
    fun e e' he he' hw hw' => ?_⟩
  · simp only [Sys.crash, Function.update_apply]
    split
    · rfl
    · exact hr.mem b
  · simp only [Sys.crash, Function.update_apply]
    split
    · exact List.Pairwise.nil
    · exact hr.ordered b
  · rw [(crash_evolves s a e).take] at ho
    simp only [Sys.crash, Function.update_of_ne (hlost e hl)]
    exact hr.arrived e he ((crash_evolves s a e).lost hl) o ho
  · rcases (crash_evolves s a e).drop o ho with hb | ⟨o₀, ho₀, hb⟩
    · exact (hr.born _ o' (hsub _ o' ho')).trans hb
    · rw [← hb]
      exact hr.pending e he ((crash_evolves s a e).working hw) o₀ ho₀ o' (hsub _ o' ho')
  · exact hr.one e e' he he' ((crash_evolves s a e).working hw) ((crash_evolves s a e').working hw')

/-- A crash empties the region, and every connection to the server is lost. -/
theorem Inv.crash (h : Inv L s) (a : α) : Inv L (s.crash a) := by
  refine ⟨h.quorum, ⟨h.writer.cli, h.writer.pc, h.writer.loc⟩, fun e => ?_, fun e he => ?_, fun e i half hc => ?_,
    fun tokens hw => ⟨(h.waiting tokens hw).1, fun t ht => ?_⟩, h.crash_region a⟩
  · show ConnOk L s.log s.postedCalls (s.q.entry e).posted _
    simp only [Sys.crash]
    split
    · exact (h.conn e).flags false true _
    · exact h.conn e
  · rw [(crash_evolves s a e).first]
    exact h.live e he
  · exact (crash_evolves s a e).done (h.done e i half hc)
  · rw [(crash_evolves s a t.1).first]
    exact (h.waiting tokens hw).2 t ht

/-! ### Whole runs -/

/-- Every step keeps the invariant. -/
theorem Inv.step {rep : ℕ} {r : Reads} {ev : Event α} (h : Inv L s) (hs : step rep r s ev = some t) : Inv L t := by
  cases Step.of_step hs with
  | begin w hpc => exact h.begin hpc w
  | put o l hpc => exact h.put hpc o l
  | post hpc hst hq => exact h.post hpc hst hq r
  | fetch e k off len _ hk => exact h.fetch hk off len
  | apply e ho he hw hready => exact h.land ho he hw hready
  | complete e i half hd hq => exact h.complete hd hq
  | quiet hev hq => exact h.quiet hev hq
  | ret hq => exact h.ret hq
  | add a ok _ hq => exact h.add a ok hq
  | bulk _ => exact h.bulk r _
  | bulkDone => exact h.conns h.conn (fun _ => .refl _ _) .idle
  | crash a => exact h.crash a

theorem inv_of_reach [Inhabited α] {rep : ℕ} {r : Reads} {addrs : List α}
    (h : Trace.Reach (Sys.step rep r) (init L addrs) s) : Inv L s :=
  h.inv (inv_init L addrs) fun _ _ _ hs he => hs.step he

omit [DecidableEq α] in
theorem Inv.allIn_begin (h : Inv L s) (ha : AllIn (Client.fresh L) s.log) (hpc : s.pc = .idle) {w : Call}
    (hin : w.InBounds s.cli) : AllIn (Client.fresh L) (s.log ++ [w]) := by
  rw [allIn_append, ← h.writer.cli_eq (postedCalls_of_not_storing (by simp [hpc]))]
  exact ⟨ha, hin, trivial⟩

/-- The calls stay in bounds if each starts in bounds. -/
theorem allIn_step {rep : ℕ} {r : Reads} {ev : Event α} (h : Inv L s) (ha : AllIn (Client.fresh L) s.log)
    (hin : ∀ w, ev = .begin w → w.InBounds s.cli) (hs : Sys.step rep r s ev = some t) :
    AllIn (Client.fresh L) t.log := by
  cases Step.of_step hs with
  | begin w hpc => exact h.allIn_begin ha hpc (hin w rfl)
  | _ => exact ha

omit [DecidableEq α] in
/-- **What a peer holds.** At every position a byte of an image, no older than
any applied write that covers the position. -/
theorem Inv.mem_image (h : Inv L s) {e : ℕ} (he : e < s.q.made) (hl : (s.conn e).lost = false) (x : ℕ) :
    ∃ j, j ≤ s.log.length ∧ s.mem (s.q.entry e).addr x = image L s.log j x ∧
      ∀ o ∈ (s.conn e).ops.take (s.conn e).applied, o.Covers x → o.born ≤ j := by
  have hr := h.region
  obtain ⟨j, h1, h2, h3⟩ := Dma.landAll_image (hr.ordered (s.q.entry e).addr) (hr.loaded _) x
  rw [image_zero, ← hr.mem] at h2
  exact ⟨j, h1, h2, fun o ho => h3 o (hr.arrived e he hl o ho)⟩

omit [DecidableEq α] in
/-- A peer that was sent every change of a byte up to call `c` holds a byte no
older than `c`. -/
theorem Inv.mem_current (h : Inv L s) {e : ℕ} (he : e < s.q.made) (hl : (s.conn e).lost = false) {c x : ℕ}
    (hc : c ≤ s.log.length) (hsent : ∀ c', 0 < c' → c' ≤ c → image L s.log (c' - 1) x ≠ image L s.log c' x →
      ∃ o ∈ (s.conn e).ops.take (s.conn e).applied, o.Covers x ∧ c' ≤ o.born) :
    ∃ j, c ≤ j ∧ j ≤ s.log.length ∧ s.mem (s.q.entry e).addr x = image L s.log j x := by
  have hr := h.region
  have hcur := Dma.landAll_current (hr.ordered (s.q.entry e).addr) (hr.loaded _) hc fun c' h1 h2 h3 => by
    obtain ⟨o, ho, hx, hb⟩ := hsent c' h1 h2 h3
    exact ⟨o, hr.arrived e he hl o ho, hx, hb⟩
  rw [image_zero, ← hr.mem] at hcur
  exact hcur

end Sys
end ComputeSideLog
