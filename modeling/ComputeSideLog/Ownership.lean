/-
# Who owns a region

On a server a memory region is free, backs up a file, or is the second
region of a file between `SYNC_PEER` and `SYNC_PEER_DONE`
(`src/rdma/server.cc`). The requests move regions between these places:
opening takes one from the pool, closing gives one back, `SYNC_PEER` takes a
second one, and `SYNC_PEER_DONE` lets the two change places and gives the
old one back, while `tmp_buffer` still points to it.

`MrPool.Exclusive` is the abstract view: slots that hold regions, none of
them in two slots or in the pool, with the four ways a region can move.
`Ownership.step` is the server under connections and requests, with a mark
on each file whose `SYNC_PEER` has not been followed by `SYNC_PEER_DONE`.

Key definitions: `MrPool.Exclusive`, `Ownership`, `Ownership.step`,
`Ownership.Sole`.
Key theorems: `MrPool.Exclusive.take`, `MrPool.Exclusive.release`,
`MrPool.Exclusive.move`, `Ownership.Inv.step`,
`Ownership.regions_exclusive`.
-/
import ComputeSideLog.Lib.Trace
import ComputeSideLog.Lib.Assoc
import ComputeSideLog.Serve

namespace ComputeSideLog

/-! ### Slots -/

namespace MrPool

/-- No region is in two slots or both in a slot and free. -/
structure Exclusive {κ : Type*} (p : MrPool) (slot : κ → Option Mr) : Prop where
  ok : p.Ok fun b => ∃ k, slot k = some b
  inj : ∀ k k' b, slot k = some b → slot k' = some b → k = k'

variable {κ : Type*} {p q : MrPool} {slot : κ → Option Mr} {k : κ} {mr : Mr}

theorem Exclusive.write (h : p.Exclusive slot) (hk : slot k = some mr) (m : Mem) : (p.write mr m).Exclusive slot :=
  ⟨(h.ok.write ⟨k, hk⟩ m).1, h.inj⟩

variable [DecidableEq κ]

/-- A slot is emptied, and its region goes nowhere. -/
theorem Exclusive.drop (h : p.Exclusive slot) (k : κ) : p.Exclusive (Function.update slot k none) := by
  have hold : ∀ {k' b}, Function.update slot k none k' = some b → slot k' = some b := by
    intro k' b hb
    rcases Assoc.update_cases hb with ⟨-, hn⟩ | ⟨-, hb⟩
    · cases hn
    · exact hb
  refine ⟨h.ok.mono ?_, fun k₁ k₂ b h₁ h₂ => h.inj k₁ k₂ b (hold h₁) (hold h₂)⟩
  rintro b ⟨k', hb⟩
  exact ⟨k', hold hb⟩

/-- A slot gets a region from the pool, in place of what it held. -/
theorem Exclusive.take (h : p.Exclusive slot) (k : κ) {size addr : ℕ} (hfresh : p.Unused addr)
    (hget : p.getMRofSize size addr = some (q, mr)) : q.Exclusive (Function.update slot k (some mr)) := by
  obtain ⟨hok, hmr, -, -⟩ := h.ok.getMRofSize hfresh hget
  have hcases : ∀ {k' b}, Function.update slot k (some mr) k' = some b → (k' = k ∧ b = mr) ∨ slot k' = some b := by
    intro k' b hb
    rcases Assoc.update_cases hb with ⟨hk', hn⟩ | ⟨-, hb⟩
    · exact .inl ⟨hk', (Option.some.inj hn).symm⟩
    · exact .inr hb
  refine ⟨hok.mono ?_, fun k₁ k₂ b h₁ h₂ => ?_⟩
  · rintro b ⟨k', hb⟩
    rcases hcases hb with ⟨-, hb⟩ | hb
    · exact .inr hb
    · exact .inl ⟨k', hb⟩
  · rcases hcases h₁ with ⟨hk₁, hb₁⟩ | h₁
    · rcases hcases h₂ with ⟨hk₂, -⟩ | h₂
      · rw [hk₁, hk₂]
      · exact absurd ⟨k₂, hb₁ ▸ h₂⟩ hmr
    · rcases hcases h₂ with ⟨-, hb₂⟩ | h₂
      · exact absurd ⟨k₁, hb₂ ▸ h₁⟩ hmr
      · exact h.inj k₁ k₂ b h₁ h₂

/-- A region goes from its slot back to the pool. -/
theorem Exclusive.release (h : p.Exclusive slot) (hk : slot k = some mr) :
    (p.recycleMR mr).Exclusive (Function.update slot k none) := by
  have hdrop := h.drop k
  refine ⟨(h.ok.recycleMR ⟨k, hk⟩).1.mono ?_, hdrop.inj⟩
  rintro b ⟨k', hb⟩
  rcases Assoc.update_cases hb with ⟨-, hn⟩ | ⟨hne, hb⟩
  · cases hn
  · exact ⟨⟨k', hb⟩, fun he => hne (h.inj k' k b hb (he ▸ hk))⟩

/-- A region goes from its slot to another, in place of what that held. -/
theorem Exclusive.move (h : p.Exclusive slot) (hk : slot k = some mr) (k' : κ) :
    p.Exclusive (Function.update (Function.update slot k none) k' (some mr)) := by
  have hcases : ∀ {i b}, Function.update (Function.update slot k none) k' (some mr) i = some b →
      (i = k' ∧ b = mr) ∨ (i ≠ k ∧ slot i = some b) := by
    intro i b hb
    rcases Assoc.update_cases hb with ⟨hi, hn⟩ | ⟨-, hb⟩
    · exact .inl ⟨hi, (Option.some.inj hn).symm⟩
    · rcases Assoc.update_cases hb with ⟨-, hn⟩ | ⟨hne, hb⟩
      · cases hn
      · exact .inr ⟨hne, hb⟩
  have hout : ∀ {i}, i ≠ k → slot i ≠ some mr := fun hne hi => hne (h.inj _ k mr hi hk)
  refine ⟨h.ok.mono ?_, fun i j b hi hj => ?_⟩
  · rintro b ⟨i, hb⟩
    rcases hcases hb with ⟨-, rfl⟩ | ⟨-, hb⟩
    · exact ⟨k, hk⟩
    · exact ⟨i, hb⟩
  · rcases hcases hi with ⟨hi, hb⟩ | ⟨hne, hi⟩
    · rcases hcases hj with ⟨hj, -⟩ | ⟨hne', hj⟩
      · rw [hi, hj]
      · exact absurd (hb ▸ hj) (hout hne')
    · rcases hcases hj with ⟨-, hb⟩ | ⟨-, hj⟩
      · exact absurd (hb ▸ hi) (hout hne)
      · exact h.inj i j b hi hj

end MrPool

/-! ### The server under requests -/

/-- A server, and whether the last `SYNC` message of a file, in the lifetime of
its entry, was `SYNC_PEER`. -/
structure Ownership (F : Type*) where
  server : Server F
  syncing : F → Bool

namespace Ownership

variable {F : Type*}

/-- What reaches the server: a connection, a request, and the end of a
connection. `addr` is the address of a region if one is created. -/
inductive Event (F : Type*) where
  | connect (addr socket : ℕ) (fileId : F)
  | request (addr socket : ℕ) (type : ReqType) (fileId : F)
  | hangUp (socket : ℕ)

/-- A server with this pool and no files. -/
def init (p : MrPool) : Ownership F := ⟨⟨[], p, fun _ => none⟩, fun _ => false⟩

/-- `GET_INFO` is sent for a file that is open, `SYNC_PEER_DONE` after a
`SYNC_PEER`. -/
def Orderly (s : Ownership F) (fileId : F) : ReqType → Prop
  | .getInfo => (s.server.localCons fileId).isSome = true
  | .syncPeerDone => s.syncing fileId = true
  | _ => True

instance (s : Ownership F) (fileId : F) : ∀ type, Decidable (s.Orderly fileId type)
  | .getInfo => inferInstanceAs (Decidable (_ = true))
  | .syncPeerDone => inferInstanceAs (Decidable (_ = true))
  | .openFile => instDecidableTrue
  | .closeFile => instDecidableTrue
  | .exitProc => instDecidableTrue
  | .syncPeer => instDecidableTrue
  | .unknown => instDecidableTrue

variable [DecidableEq F]

/-- The mark of a file after a request. -/
def mark (s : Ownership F) (fileId : F) : ReqType → F → Bool
  | .syncPeer => Function.update s.syncing fileId (s.server.localCons fileId).isSome
  | .syncPeerDone => Function.update s.syncing fileId false
  | .closeFile => Function.update s.syncing fileId false
  | _ => s.syncing

/-- One event, where every client asks for regions of `size` bytes; `Run` drops
the socket of a request that returns 0. -/
def step (size : ℕ) (s : Ownership F) : Event F → Option (Ownership F)
  | .connect addr socket fileId =>
    if s.server.pool.Unused addr then
      (s.server.handleIncomingConnection addr socket fileId size).map fun r => { s with server := r.server }
    else none
  | .request addr socket type fileId =>
    if s.server.pool.Unused addr ∧ s.Orderly fileId type then
      (s.server.handleClientRequest addr socket ⟨type, fileId, size⟩).map fun r =>
        let qps := if r.dropped then r.server.existingQps.erase socket else r.server.existingQps
        ⟨{ r.server with existingQps := qps }, s.mark fileId type⟩
    else none
  | .hangUp socket =>
    some { s with server := { s.server with existingQps := s.server.existingQps.erase socket } }

/-- The event can happen: a region's address is new, and requests are orderly. -/
def Possible (s : Ownership F) : Event F → Prop
  | .connect addr _ _ => s.server.pool.Unused addr
  | .request addr _ type fileId => s.server.pool.Unused addr ∧ s.Orderly fileId type
  | .hangUp _ => True

/-- The regions are owned exclusively: an entry has one, not free and not that of
another entry, under its token; and the second region of a file in between
is neither free nor that of an entry. -/
structure Sole (s : Ownership F) : Prop where
  entry : ∀ f con, s.server.localCons f = some con →
    ∃ mr, con.buffer = some mr ∧ con.bufferToken = some mr ∧ mr ∉ s.server.pool.freeMrs
  distinct : ∀ f g con con', f ≠ g → s.server.localCons f = some con → s.server.localCons g = some con' →
    con.buffer ≠ con'.buffer
  tmp : ∀ f con, s.server.localCons f = some con → s.syncing f = true →
    ∃ mr, con.tmpBuffer = some mr ∧ mr ∉ s.server.pool.freeMrs ∧
      ∀ g con', s.server.localCons g = some con' → con'.buffer ≠ some mr

/-! ### The invariant -/

/-- The slots of a server: for each file its region and, while it is marked, the
second one. -/
def slots (cons : F → Option LocalConData) (syncing : F → Bool) : F × Bool → Option Mr
  | (f, false) => (cons f).bind LocalConData.buffer
  | (f, true) => if syncing f then (cons f).bind LocalConData.tmpBuffer else none

/-- What every request keeps. -/
structure Inv (size : ℕ) (s : Ownership F) : Prop where
  slots : s.server.pool.Exclusive (slots s.server.localCons s.syncing)
  sizes : ∀ b ∈ s.server.pool.made, b.size = size
  entry : ∀ f con, s.server.localCons f = some con → ∃ mr, con.buffer = some mr ∧ con.bufferToken = some mr
  tmp : ∀ f, s.syncing f = true → ∃ con mr, s.server.localCons f = some con ∧ con.tmpBuffer = some mr ∧
    con.tmpBufferToken = some mr

omit [DecidableEq F] in
theorem inv_init {size : ℕ} {p : MrPool} (hp : p.Ok fun _ => False) (hs : ∀ b ∈ p.made, b.size = size) :
    Inv size (init p : Ownership F) := by
  have hnone : ∀ k, Ownership.slots (fun _ : F => none) (fun _ => false) k = none := by
    rintro ⟨f, b⟩
    cases b <;> rfl
  refine ⟨⟨hp.mono ?_, fun k k' b h => ?_⟩, hs, ?_, ?_⟩
  · rintro b ⟨k, hk⟩
    cases (hnone k).symm.trans hk
  · cases (hnone k).symm.trans h
  · intro f con h
    cases h
  · intro f h
    cases h

omit [DecidableEq F] in
theorem Inv.sole {size : ℕ} {s : Ownership F} (h : Inv size s) : s.Sole := by
  have hbuf : ∀ f con mr, s.server.localCons f = some con → con.buffer = some mr →
      Ownership.slots s.server.localCons s.syncing (f, false) = some mr := by
    intro f con mr hf hmr
    show (s.server.localCons f).bind LocalConData.buffer = some mr
    rw [hf]
    exact hmr
  have hfree : ∀ k mr, Ownership.slots s.server.localCons s.syncing k = some mr → mr ∉ s.server.pool.freeMrs :=
    fun k mr hk hmem => h.slots.ok.apart mr hmem ⟨k, hk⟩
  refine ⟨fun f con hf => ?_, fun f g con con' hne hf hg he => ?_, fun f con hf hsync => ?_⟩
  · obtain ⟨mr, hmr, htok⟩ := h.entry f con hf
    exact ⟨mr, hmr, htok, hfree _ _ (hbuf f con mr hf hmr)⟩
  · obtain ⟨mr, hmr, -⟩ := h.entry f con hf
    have heq := h.slots.inj _ _ mr (hbuf f con mr hf hmr) (hbuf g con' mr hg (he ▸ hmr))
    exact hne (Prod.mk.inj heq).1
  · obtain ⟨con', mr, hf', hmr, -⟩ := h.tmp f hsync
    rw [hf, Option.some.injEq] at hf'
    subst hf'
    have hslot : Ownership.slots s.server.localCons s.syncing (f, true) = some mr := by
      show (if s.syncing f then (s.server.localCons f).bind LocalConData.tmpBuffer else none) = some mr
      rw [if_pos hsync, hf]
      exact hmr
    refine ⟨mr, hmr, hfree _ _ hslot, fun g con' hg he => ?_⟩
    have heq := h.slots.inj _ _ mr hslot (hbuf g con' mr hg he)
    cases (Prod.mk.inj heq).2

/-- An entry changes: so do its two slots, and no other. -/
theorem slots_update (cons : F → Option LocalConData) (syncing : F → Bool) (f : F) (con : Option LocalConData)
    (v : Bool) : slots (Function.update cons f con) (Function.update syncing f v) =
      Function.update (Function.update (slots cons syncing) (f, false) (con.bind LocalConData.buffer)) (f, true)
        (if v then con.bind LocalConData.tmpBuffer else none) := by
  funext ⟨g, b⟩
  by_cases hg : g = f
  · subst hg
    cases b with
    | false => simp [slots]
    | true => simp [slots]
  · cases b with
    | false => simp [slots, hg]
    | true => simp [slots, hg]

/-- An entry that keeps its regions. -/
theorem slots_setCon {cons : F → Option LocalConData} {f : F} {con : LocalConData} (hf : cons f = some con)
    (con' : LocalConData) (hb : con'.buffer = con.buffer) (ht : con'.tmpBuffer = con.tmpBuffer)
    (syncing : F → Bool) :
    slots (Function.update cons f (some con')) syncing = slots cons syncing := by
  funext ⟨g, b⟩
  by_cases hg : g = f
  · subst hg
    cases b with
    | false => simp [slots, hf, hb]
    | true => simp [slots, hf, ht]
  · cases b with
    | false => simp [slots, hg]
    | true => simp [slots, hg]

section

variable {size : ℕ} {s : Ownership F} {fileId : F}

/-- An entry is replaced: what is needed of the new one. -/
theorem Inv.replace (h : Inv size s) (fileId : F) (con : Option LocalConData) (v : Bool) (qps : List ℕ)
    {pool : MrPool}
    (hslots : pool.Exclusive (Function.update (Function.update (Ownership.slots s.server.localCons s.syncing)
      (fileId, false) (con.bind LocalConData.buffer)) (fileId, true)
      (if v then con.bind LocalConData.tmpBuffer else none)))
    (hsizes : ∀ b ∈ pool.made, b.size = size)
    (hentry : ∀ c, con = some c → ∃ mr, c.buffer = some mr ∧ c.bufferToken = some mr)
    (htmp : v = true → ∃ c mr, con = some c ∧ c.tmpBuffer = some mr ∧ c.tmpBufferToken = some mr) :
    Inv size ⟨⟨qps, pool, Function.update s.server.localCons fileId con⟩, Function.update s.syncing fileId v⟩ := by
  refine ⟨?_, hsizes, fun f c hf => ?_, fun f hv => ?_⟩
  · rw [← slots_update] at hslots
    exact hslots
  · rcases Assoc.update_cases hf with ⟨-, hc⟩ | ⟨-, hf⟩
    · exact hentry c hc
    · exact h.entry f c hf
  · by_cases hff : f = fileId
    · subst hff
      obtain ⟨c, mr, hc, hmr, htok⟩ := htmp ((Function.update_self _ _ _).symm.trans hv)
      exact ⟨c, mr, (Function.update_self _ _ _).trans hc, hmr, htok⟩
    · obtain ⟨c, mr, hc, hmr, htok⟩ := h.tmp f ((Function.update_of_ne hff _ _).symm.trans hv)
      exact ⟨c, mr, (Function.update_of_ne hff _ _).trans hc, hmr, htok⟩

omit [DecidableEq F] in
/-- All free regions are large enough for the size that everyone asks for. -/
theorem Inv.getMRofSize (h : Inv size s) (addr : ℕ) :
    ∃ pool mr, s.server.pool.getMRofSize size addr = some (pool, mr) := by
  refine MrPool.Adequate.getMRofSize ?_ addr
  cases hfree : s.server.pool.freeMrs with
  | nil => exact .inl hfree
  | cons b bs =>
    have hb : b ∈ s.server.pool.freeMrs := hfree ▸ List.mem_cons_self
    exact .inr ⟨b, hb, (h.sizes b (h.slots.ok.free_made b hb)).ge⟩

omit [DecidableEq F] in
theorem Inv.sizes_get (h : Inv size s) {addr : ℕ} {pool : MrPool} {mr : Mr}
    (hget : s.server.pool.getMRofSize size addr = some (pool, mr)) : ∀ b ∈ pool.made, b.size = size := by
  rcases MrPool.getMRofSize_cases hget with ⟨-, -, rfl⟩ | ⟨-, -, rfl⟩
  · intro b hb
    rcases List.mem_cons.mp hb with rfl | hb
    · rfl
    · exact h.sizes b hb
  · exact h.sizes

omit [DecidableEq F] in
theorem Inv.not_syncing (h : Inv size s) (hf : s.server.localCons fileId = none) : s.syncing fileId = false := by
  by_contra hv
  obtain ⟨con, mr, hcon, -⟩ := h.tmp fileId (by simpa using hv)
  rw [hf] at hcon
  cases hcon

/-! ### The ways a region moves -/

/-- A new entry with the region that `hslots` puts in its slot. -/
theorem Inv.bind (h : Inv size s) (hf : s.server.localCons fileId = none) (qps : List ℕ) (socket : ℕ)
    {pool : MrPool} {mr : Mr} (hsizes : ∀ b ∈ pool.made, b.size = size)
    (hslots : pool.Exclusive (Function.update (Ownership.slots s.server.localCons s.syncing) (fileId, false)
      (some mr))) :
    Inv size ⟨Server.bind { s.server with existingQps := qps } fileId socket pool mr, s.syncing⟩ := by
  have hoff := h.not_syncing hf
  have hnew := h.replace fileId (some ⟨socket, some mr, some mr, none, none, socket⟩) (s.syncing fileId) qps
    (by rw [hoff]; exact hslots.drop (fileId, true)) hsizes
    (fun c hc => by cases hc; exact ⟨mr, rfl, rfl⟩) (fun hv => by rw [hoff] at hv; cases hv)
  rwa [Function.update_eq_self] at hnew

/-- The entry of a file that reconnects. -/
theorem Inv.rebind (h : Inv size s) {con : LocalConData} (hf : s.server.localCons fileId = some con)
    (qps : List ℕ) (socket : ℕ) :
    Inv size ⟨Server.setCon { s.server with existingQps := qps } fileId { con with qp := socket, socket },
      s.syncing⟩ := by
  refine ⟨?_, h.sizes, fun f c hc => ?_, fun f hv => ?_⟩
  · show s.server.pool.Exclusive (Ownership.slots (Function.update s.server.localCons fileId _) s.syncing)
    rw [slots_setCon hf { con with qp := socket, socket } rfl rfl]
    exact h.slots
  · rcases Assoc.update_cases hc with ⟨-, hc⟩ | ⟨-, hc⟩
    · cases hc
      exact h.entry fileId con hf
    · exact h.entry f c hc
  · obtain ⟨c, mr, hc, hmr, htok⟩ := h.tmp f hv
    by_cases hff : f = fileId
    · subst hff
      rw [hf, Option.some.injEq] at hc
      subst hc
      exact ⟨_, mr, Function.update_self _ _ _, hmr, htok⟩
    · exact ⟨c, mr, (Function.update_of_ne hff _ _).trans hc, hmr, htok⟩

omit [DecidableEq F] in
theorem slots_buffer {con : LocalConData} {mr : Mr} (hf : s.server.localCons fileId = some con)
    (hmr : con.buffer = some mr) : Ownership.slots s.server.localCons s.syncing (fileId, false) = some mr := by
  show (s.server.localCons fileId).bind LocalConData.buffer = some mr
  rw [hf]
  exact hmr

/-- A closed file gives its region back; a second one is let go. -/
theorem Inv.close (h : Inv size s) {con : LocalConData} {mr : Mr} (hf : s.server.localCons fileId = some con)
    (hmr : con.buffer = some mr) :
    Inv size ⟨s.server.finalize fileId mr, Function.update s.syncing fileId false⟩ := by
  refine h.replace fileId none false s.server.existingQps ?_ h.sizes ?_ ?_
  · exact (h.slots.release (slots_buffer hf hmr)).drop (fileId, true)
  · intro c hc
    cases hc
  · intro hv
    cases hv

/-- `SYNC_PEER` takes a second region, in place of an earlier one. -/
theorem Inv.sync (h : Inv size s) {con : LocalConData} {mr tmp : Mr} (hf : s.server.localCons fileId = some con)
    (hmr : con.buffer = some mr) (htok : con.bufferToken = some mr) {addr : ℕ}
    (hfresh : s.server.pool.Unused addr) {pool : MrPool}
    (hget : s.server.pool.getMRofSize size addr = some (pool, tmp)) :
    Inv size ⟨{ s.server with pool }.setCon fileId { con with tmpBuffer := some tmp, tmpBufferToken := some tmp },
      Function.update s.syncing fileId true⟩ := by
  refine h.replace fileId _ true s.server.existingQps ?_ (h.sizes_get hget) ?_ ?_
  · have hself := Function.update_eq_self (fileId, false) (Ownership.slots s.server.localCons s.syncing)
    rw [slots_buffer hf hmr] at hself
    show pool.Exclusive (Function.update (Function.update _ (fileId, false) con.buffer) (fileId, true) (some tmp))
    rw [hmr, hself]
    exact h.slots.take (fileId, true) hfresh hget
  · intro c hc
    cases hc
    exact ⟨mr, hmr, htok⟩
  · intro _
    exact ⟨_, tmp, rfl, rfl, rfl⟩

/-- `SYNC_PEER_DONE`: the old region goes back, and the second one takes its
slot. -/
theorem Inv.swap (h : Inv size s) {con : LocalConData} {mr : Mr} (hf : s.server.localCons fileId = some con)
    (hmr : con.buffer = some mr) (hsync : s.syncing fileId = true) :
    Inv size ⟨{ s.server with pool := s.server.pool.recycleMR mr }.setCon fileId
      ⟨con.qp, con.tmpBuffer, con.tmpBufferToken, some mr, con.bufferToken, con.socket⟩,
      Function.update s.syncing fileId false⟩ := by
  obtain ⟨con', tmp, hf', htmp, htok⟩ := h.tmp fileId hsync
  rw [hf, Option.some.injEq] at hf'
  subst hf'
  have hslot : Ownership.slots s.server.localCons s.syncing (fileId, true) = some tmp := by
    show (if s.syncing fileId then (s.server.localCons fileId).bind LocalConData.tmpBuffer else none) = some tmp
    rw [if_pos hsync, hf]
    exact htmp
  have hne : (fileId, true) ≠ (fileId, false) := by simp
  refine h.replace fileId _ false s.server.existingQps ?_ h.sizes ?_ ?_
  · have hrel := h.slots.release (slots_buffer hf hmr)
    have hmove := hrel.move ((Function.update_of_ne hne _ _).trans hslot) (fileId, false)
    rw [Function.update_comm hne.symm, Function.update_idem, Function.update_comm hne] at hmove
    show (s.server.pool.recycleMR mr).Exclusive
      (Function.update (Function.update _ (fileId, false) con.tmpBuffer) (fileId, true) none)
    rw [htmp]
    exact hmove
  · intro c hc
    cases hc
    exact ⟨tmp, htmp, htok⟩
  · intro hv
    cases hv

/-! ### The handlers -/

theorem Inv.connect (h : Inv size s) (fileId : F) {addr : ℕ} (hfresh : s.server.pool.Unused addr) (socket : ℕ) :
    ∃ r, s.server.handleIncomingConnection addr socket fileId size = some r ∧
      Inv size { s with server := r.server } := by
  unfold Server.handleIncomingConnection
  cases hf : s.server.localCons fileId with
  | none =>
    obtain ⟨pool, mr, hget⟩ := h.getMRofSize addr
    have hsizes := h.sizes_get hget
    dsimp only
    rw [hget]
    refine ⟨_, rfl, h.bind hf _ socket (fun b hb => hsizes b hb) ?_⟩
    exact (h.slots.take (fileId, false) hfresh hget).write (Function.update_self _ _ _) Mem.zero
  | some con =>
    obtain ⟨mr, -, htok⟩ := h.entry fileId con hf
    have hrebind := h.rebind hf ((s.server.existingQps.erase con.qp).insert socket) socket
    rw [htok] at hrebind
    dsimp only
    rw [htok]
    exact ⟨_, rfl, hrebind⟩

theorem Inv.openFile (h : Inv size s) {addr : ℕ} (hfresh : s.server.pool.Unused addr) (socket : ℕ) :
    ∃ r, s.server.openFile addr socket fileId size = some r ∧ Inv size ⟨r.server, s.syncing⟩ := by
  unfold Server.openFile
  cases hf : s.server.localCons fileId with
  | some con => exact ⟨_, rfl, h⟩
  | none =>
    dsimp only
    split
    · obtain ⟨pool, mr, hget⟩ := h.getMRofSize addr
      rw [hget]
      exact ⟨_, rfl, h.bind hf s.server.existingQps socket (h.sizes_get hget)
        (h.slots.take (fileId, false) hfresh hget)⟩
    · exact ⟨_, rfl, h⟩

theorem Inv.closeFile (h : Inv size s) :
    ∃ r, s.server.closeFile fileId = some r ∧ Inv size ⟨r.server, Function.update s.syncing fileId false⟩ := by
  unfold Server.closeFile
  cases hf : s.server.localCons fileId with
  | none =>
    refine ⟨_, rfl, ?_⟩
    rw [← h.not_syncing hf, Function.update_eq_self]
    exact h
  | some con =>
    obtain ⟨mr, hmr, -⟩ := h.entry fileId con hf
    dsimp only
    rw [hmr]
    exact ⟨_, rfl, h.close hf hmr⟩

theorem Inv.syncPeer (h : Inv size s) {addr : ℕ} (hfresh : s.server.pool.Unused addr) :
    ∃ r, s.server.syncPeer addr fileId = some r ∧
      Inv size ⟨r.server, Function.update s.syncing fileId (s.server.localCons fileId).isSome⟩ := by
  unfold Server.syncPeer
  cases hf : s.server.localCons fileId with
  | none =>
    refine ⟨_, rfl, ?_⟩
    rw [Option.isSome_none, ← h.not_syncing hf, Function.update_eq_self]
    exact h
  | some con =>
    obtain ⟨mr, hmr, htok⟩ := h.entry fileId con hf
    have hsize : mr.size = size := h.sizes mr (h.slots.ok.held_made mr ⟨_, slots_buffer hf hmr⟩)
    obtain ⟨pool, tmp, hget⟩ := h.getMRofSize addr
    have hsync := h.sync hf hmr htok hfresh hget
    rw [hmr] at hsync
    dsimp only
    rw [hmr]
    dsimp only
    rw [hsize, hget]
    exact ⟨_, rfl, hsync⟩

theorem Inv.syncPeerDone (h : Inv size s) (hsync : s.syncing fileId = true) :
    ∃ r, s.server.syncPeerDone fileId = some r ∧ Inv size ⟨r.server, Function.update s.syncing fileId false⟩ := by
  obtain ⟨con, tmp, hf, -⟩ := h.tmp fileId hsync
  obtain ⟨mr, hmr, -⟩ := h.entry fileId con hf
  unfold Server.syncPeerDone
  rw [hf]
  dsimp only
  rw [hmr]
  exact ⟨_, rfl, h.swap hf hmr hsync⟩

/-- **One request** is handled and keeps the invariant. -/
theorem Inv.request (h : Inv size s) {addr : ℕ} (hfresh : s.server.pool.Unused addr) (socket : ℕ) {type : ReqType}
    (ho : s.Orderly fileId type) : ∃ r, s.server.handleClientRequest addr socket ⟨type, fileId, size⟩ = some r ∧
      Inv size ⟨r.server, s.mark fileId type⟩ := by
  cases type with
  | openFile => exact h.openFile hfresh socket
  | closeFile => exact h.closeFile
  | exitProc => exact ⟨_, rfl, h⟩
  | getInfo =>
    obtain ⟨con, hf⟩ := Option.isSome_iff_exists.mp ho
    obtain ⟨mr, hmr, -⟩ := h.entry fileId con hf
    show ∃ r, s.server.answerInfo fileId = some r ∧ Inv size ⟨r.server, s.syncing⟩
    unfold Server.answerInfo
    rw [hf]
    dsimp only
    rw [hmr]
    exact ⟨_, rfl, h⟩
  | syncPeer => exact h.syncPeer hfresh
  | syncPeerDone => exact h.syncPeerDone ho
  | unknown => exact ⟨_, rfl, h⟩

omit [DecidableEq F] in
/-- Which sockets are polled does not matter to the regions. -/
theorem Inv.existingQps (h : Inv size s) (qps : List ℕ) :
    Inv size ⟨{ s.server with existingQps := qps }, s.syncing⟩ :=
  ⟨h.slots, h.sizes, h.entry, h.tmp⟩

theorem Inv.step (h : Inv size s) {e : Event F} (he : s.Possible e) : ∃ t, s.step size e = some t ∧ Inv size t := by
  cases e with
  | connect addr socket fileId =>
    have hfresh : s.server.pool.Unused addr := he
    obtain ⟨r, hr, hinv⟩ := h.connect fileId hfresh socket
    refine ⟨_, ?_, hinv⟩
    simp only [Ownership.step, if_pos hfresh, hr]
    rfl
  | request addr socket type fileId =>
    have hok : s.server.pool.Unused addr ∧ s.Orderly fileId type := he
    obtain ⟨r, hr, hinv⟩ := h.request hok.1 socket hok.2
    refine ⟨_, ?_, hinv.existingQps (if r.dropped then r.server.existingQps.erase socket else r.server.existingQps)⟩
    simp only [Ownership.step, if_pos hok, hr]
    rfl
  | hangUp socket => exact ⟨_, rfl, h.existingQps _⟩

end

theorem possible_of_step {size : ℕ} {s t : Ownership F} {e : Event F} (h : s.step size e = some t) :
    s.Possible e := by
  cases e with
  | connect addr socket fileId =>
    simp only [Ownership.step, Option.ite_none_right_eq_some] at h
    exact h.1
  | request addr socket type fileId =>
    simp only [Ownership.step, Option.ite_none_right_eq_some] at h
    exact h.1
  | hangUp socket => trivial

/-- **Regions are owned exclusively.** When everyone asks for regions of one
size, in every state of every run of connections and orderly requests each
entry has a region of its own under its token, apart from the free ones and
from the second regions in use; and every possible event is handled. -/
theorem regions_exclusive {size : ℕ} {p : MrPool} (hp : p.Ok fun _ => False) (hs : ∀ b ∈ p.made, b.size = size)
    {s : Ownership F} (h : Trace.Reach (step size) (init p) s) :
    s.Sole ∧ ∀ e, s.Possible e → ∃ t, s.step size e = some t := by
  have hinv : Inv size s := by
    refine h.inv (inv_init hp hs) fun s e t hi hst => ?_
    obtain ⟨t', ht', hi'⟩ := hi.step (possible_of_step hst)
    rw [hst, Option.some.injEq] at ht'
    exact ht' ▸ hi'
  refine ⟨hinv.sole, fun e he => ?_⟩
  obtain ⟨t, ht, -⟩ := hinv.step he
  exact ⟨t, ht⟩

/-- Two files, the first one synchronised: its old region is free again, and the
second file is in between. -/
theorem regions_exclusive_synced : ∃ s : Ownership ℕ, Trace.Reach (step 16) (init .empty) s ∧
    (s.server.region 0 = some ⟨2, 16⟩ ∧ s.server.pool.freeMrs = [] ∧ s.syncing 1 = true) ∧ s.Sole := by
  obtain ⟨s, hs, hp⟩ : ∃ s : Ownership ℕ, Trace.Reach (step 16) (init .empty) s ∧
      (s.server.region 0 = some ⟨2, 16⟩ ∧ s.server.pool.freeMrs = [] ∧ s.syncing 1 = true) :=
    Trace.exists_reach_of_exec
      [.connect 0 5 0, .connect 1 6 1, .request 2 5 .syncPeer 0, .request 3 5 .syncPeerDone 0,
        .request 3 6 .getInfo 1, .request 3 6 .syncPeer 1, .request 3 5 .exitProc 0, .hangUp 6] (by decide)
  exact ⟨s, hs, hp, (regions_exclusive MrPool.ok_empty (by simp [MrPool.empty]) hs).1⟩

end Ownership
end ComputeSideLog
