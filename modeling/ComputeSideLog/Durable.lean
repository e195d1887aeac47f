/-
# Acknowledged writes after a crash of the client

One epoch with a fixed peer set, whose writes carry the bytes as of the post;
at any point the client crashes and a new one recovers. A peer is then the
one of `Recover.lean` that has applied a prefix of the posted writes
(`peer_eq`), so the layers meet here.

The source is a peer with the *least* trailer, and a quorum does not wait for
the slowest peer: with one that lags, an acknowledged write is not recovered
(`acknowledged_lost`). What is acknowledged survives exactly when every peer
that can become the source has it (`acknowledged_survive_iff`).
-/
import ComputeSideLog.Fixed

namespace ComputeSideLog

open Quorum (Half)

/-! ### The posted writes by position -/

section Posts

variable {L : Layout} {log : List Call} {i : ℕ} {w : Call} (hw : log[i]? = some w)
include hw

/-- The two writes of call `i`. -/
theorem posts_drop : (posts (Client.fresh L) log).drop (2 * i) =
    (clientAt L log (i + 1)).writeTwoPlace (w.off (clientAt L log i)) (w.size (clientAt L log i)) ++
      posts (clientAt L log (i + 1)) (log.drop (i + 1)) := by
  obtain ⟨hlt, hget⟩ := List.getElem?_eq_some_iff.mp hw
  have hlen : (posts (Client.fresh L) (log.take i)).length = 2 * i := by
    rw [posts_length, List.length_take, min_eq_left hlt.le]
  conv_lhs => rw [← List.take_append_drop i log, posts_append]
  rw [← hlen, List.drop_left, List.drop_eq_getElem_cons hlt, hget, posts, clientAt_succ hw]
  rfl

theorem posts_data : (posts (Client.fresh L) log)[2 * i]? =
    some ⟨w.off (clientAt L log i), w.size (clientAt L log i) % 2 ^ 32, image L log (i + 1)⟩ := by
  rw [← Nat.add_zero (2 * i), ← List.getElem?_drop, posts_drop hw]
  rfl

theorem posts_seq : (posts (Client.fresh L) log)[2 * i + 1]? =
    some ⟨L.seqOffset, seqWidth, image L log (i + 1)⟩ := by
  rw [← List.getElem?_drop, posts_drop hw]
  simp only [Client.writeTwoPlace, List.cons_append, List.getElem?_cons_succ, List.getElem?_cons_zero,
    clientAt_seqOffset, clientAt_mem]

end Posts

namespace Sys

variable {α : Type*} {L : Layout} {s t : Sys α}

/-! ### Bytes as of the post -/

/-- Every write carries the image as of its post. -/
def Snapshots (L : Layout) (s : Sys α) : Prop :=
  ∀ e, ∀ o ∈ (s.conn e).ops, ∀ x, o.buf x = some (image L s.log o.born x)

theorem Snapshots.post (h : Snapshots L s) (hI : Inv L s) {off size : ℕ} {target : Mem}
    (hpc : s.pc = .storing off size target) (hst : s.Stored off size target) (q : Quorum.State α) :
    Snapshots L (s.post .atPost q off size) := by
  intro e o ho x
  simp only [Sys.post] at ho
  split at ho
  · rcases List.mem_append.mp ho with ho | ho
    · exact h e o ho x
    · have hmem : s.cli.buffer.mem = image L s.log s.log.length := by
        rw [hI.writer.stored hpc hst, ← clientAt_length, clientAt_mem]
      simp only [postPair, Client.writeTwoPlace, List.zipWith_cons_cons, List.zipWith_nil_right, List.mem_cons,
        List.not_mem_nil, or_false, hmem] at ho
      rcases ho with rfl | rfl
      · rfl
      · rfl
  · exact h e o ho x

theorem Snapshots.step [DecidableEq α] {rep : ℕ} {ev : Event α} (h : Snapshots L s) (hI : Inv L s)
    (hloc : ev.Local) (hs : step rep .atPost s ev = some t) : Snapshots L t := by
  cases Step.of_step hs with
  | begin w _ =>
    intro e o ho x
    show _ = some (image L (s.log ++ [w]) o.born x)
    rw [image_append (((hI.conn e).born o ho).2.trans s.postedCalls_le)]
    exact h e o ho x
  | post hpc hst _ => exact h.post hI hpc hst _
  | fetch e' k off len _ _ =>
    intro e
    refine Conn.of_update (P := fun c => ∀ o ∈ c.ops, ∀ x, o.buf x = some (image L s.log o.born x)) (h e)
      fun _ o ho x => ?_
    obtain ⟨o₀, ho₀, rfl | rfl⟩ := Dma.mem_modify ho
    · exact h e' o ho₀ x
    · exact Dma.Op.fetch_buf (h e' o₀ ho₀ x) _ off len
  | apply e' _ _ _ _ =>
    intro e
    exact Conn.of_update (P := fun c => ∀ o ∈ c.ops, ∀ x, o.buf x = some (image L s.log o.born x)) (h e)
      fun _ => h e'
  | add a ok _ _ => exact absurd hloc (by simp [Event.Local])
  | bulk _ => exact absurd hloc (by simp [Event.Local])
  | crash a => exact absurd hloc (by simp [Event.Local])
  | _ => exact h

/-- The invariants of an epoch with a fixed peer set and bytes as of the post. -/
theorem snapshots_of_reach [DecidableEq α] [Inhabited α] {rep : ℕ} {addrs : List α}
    (h : Trace.Reach (Trace.restrict (fun _ ev => ev.Local) (step rep .atPost)) (init L addrs) s) :
    Inv L s ∧ FixedOk (Quorum.init addrs).made s ∧ Snapshots L s := by
  refine ⟨inv_of_reach h.of_restrict, ?_⟩
  refine h.inv_restrict_of (J := Inv L) (I := fun s => FixedOk (Quorum.init addrs).made s ∧ Snapshots L s)
    (fun s hs => inv_of_reach hs) ⟨fixedOk_init L addrs, ?_⟩ ?_
  · exact fun e o ho => absurd ho (by simp [init, Conn.new])
  · rintro s ev t hI ⟨hF, hS⟩ hloc hst
    exact ⟨hF.step hI hloc hst, hS.step hI hloc hst⟩

/-! ### The peers at the crash -/

/-- A posted write with the bytes read. -/
def toWrite (o : Dma.Op Role) : RdmaWrite := ⟨o.off, o.len, fun x => (o.buf x).getD 0⟩

/-- The peer of entry `e`, as the next client finds it. -/
def peer (L : Layout) (s : Sys α) (e : ℕ) : Peer α := ⟨(s.q.entry e).addr, L.region (s.mem (s.q.entry e).addr)⟩

/-- The number of calls whose data the peer of entry `e` has applied. -/
def held (s : Sys α) (e : ℕ) : ℕ := ((s.conn e).applied + 1) / 2

section Fixed

variable {m : ℕ} (hF : FixedOk m s) (hI : Inv L s) (h : Snapshots L s) {e : ℕ} (he : e < m)
include hF hI h he

/-- The `k`-th write of a connection is the `k`-th one of the epoch. -/
theorem posts_of_op {k : ℕ} {o : Dma.Op Role} (ho : (s.conn e).ops[k]? = some o) :
    (posts (Client.fresh L) s.log)[k]? = some (toWrite o) := by
  have hmem := List.mem_of_getElem? ho
  have hbuf : (fun x => (o.buf x).getD 0) = image L s.log o.born := by
    funext x
    rw [h e o hmem x, Option.getD_some]
  have hklt := (List.getElem?_eq_some_iff.mp ho).1
  rw [hF.length e he] at hklt
  have hple := s.postedCalls_le
  have hlog : s.log[k / 2]? = some s.log[k / 2] := List.getElem?_eq_getElem (by omega)
  rw [toWrite, hbuf]
  rcases Nat.mod_two_eq_zero_or_one k with hpar | hpar
  · obtain ⟨-, hb, w, hw, hoff, hlen⟩ := hF.even_op hI he ho hpar
    have hpost := posts_data (L := L) hw
    rwa [show 2 * (k / 2) = k by omega, ← hoff, ← hlen, ← hb] at hpost
  · obtain ⟨-, hb, hoff, hlen⟩ := hF.odd_op hI he ho hpar
    have hpost := posts_seq (L := L) hlog
    rwa [show 2 * (k / 2) + 1 = k by omega, ← hoff, ← hlen, ← hb] at hpost

theorem posts_take_applied : (posts (Client.fresh L) s.log).take (s.conn e).applied =
    ((s.conn e).ops.take (s.conn e).applied).map toWrite := by
  refine List.ext_getElem? fun k => ?_
  have hle := (hI.conn e).applied_le
  by_cases hk : k < (s.conn e).applied
  · have ho : (s.conn e).ops[k]? = some (s.conn e).ops[k] := List.getElem?_eq_getElem (by omega)
    rw [List.getElem?_take_of_lt hk, List.getElem?_map, List.getElem?_take_of_lt hk, ho,
      posts_of_op hF hI h he ho, Option.map_some]
  · rw [List.getElem?_eq_none (by rw [List.length_take]; omega),
      List.getElem?_eq_none (by rw [List.length_map, List.length_take]; omega)]

/-- **The machine refines the prefix model**: a peer is one that has applied a
prefix of the posted writes. -/
theorem peer_eq : s.peer L e = prefixPeer L s.log (s.q.entry e).addr (s.conn e).applied := by
  have hmem : s.mem (s.q.entry e).addr =
      applyAll Mem.zero ((posts (Client.fresh L) s.log).take (s.conn e).applied) := by
    rw [hI.region.mem, hF.landed e he, Dma.landAll_reverse, posts_take_applied hF hI h he, applyAll,
      List.foldl_map]
    rfl
  rw [peer, prefixPeer, hmem]

end Fixed

/-- The sequence number that the trailer of the peer of entry `e` shows. -/
def shown (s : Sys α) (e : ℕ) : ℕ :=
  if (s.conn e).applied / 2 = 0 then 0 else ((s.conn e).applied / 2 - 1) % 2 ^ 64

/-- That number lets the peer be the source. -/
def Shows (s : Sys α) (e : ℕ) : Prop := s.shown e ≠ 0 ∧ s.shown e < seqMax

/-- No peer that can be the source shows less. -/
def LeastShown (s : Sys α) (e : ℕ) : Prop :=
  e < s.q.made ∧ s.Shows e ∧ ∀ e', e' < s.q.made → s.Shows e' → s.shown e ≤ s.shown e'

/-- What the next client does brings back every acknowledged call, in whatever
order it asks the peers: the source has applied the call, and the recovered
buffer is the image of all calls that the source has applied. -/
def Survives [DecidableEq α] (L : Layout) (s : Sys α) : Prop :=
  ∀ es : List ℕ, es.Perm (List.range s.q.made) → ∀ c ∈ s.acked, ∃ e ∈ es,
    (getRecoverSrcPeer (es.map (s.peer L))).1 = some (s.q.entry e).addr ∧ c ≤ s.held e ∧
      HoldsImage L s.log (s.held e) ((Client.fresh L).recovered (es.map (s.peer L)))

/-- Some peer can be the source, and every one that shows the least number has
applied call `c`. -/
def SourcesHold (s : Sys α) (c : ℕ) : Prop :=
  (∃ e, e < s.q.made ∧ s.Shows e) ∧ ∀ e, s.LeastShown e → c ≤ s.held e

/-- Some peer has applied two pairs, and every one that has has applied
call `c`. -/
def NoneLags (s : Sys α) (c : ℕ) : Prop :=
  (∃ e, e < s.q.made ∧ 4 ≤ (s.conn e).applied) ∧
    ∀ e, e < s.q.made → 4 ≤ (s.conn e).applied → c ≤ s.held e

section Sources

variable {m : ℕ} (hF : FixedOk m s) (hI : Inv L s) (h : Snapshots L s) (ha : AllIn (Client.fresh L) s.log)
  {es : List ℕ} (hes : es.Perm (List.range s.q.made))

include hF hI in
theorem applied_le_log {e : ℕ} (he : e < s.q.made) : (s.conn e).applied / 2 ≤ s.log.length := by
  have hlen := hF.length e (hF.made ▸ he)
  have hle := (hI.conn e).applied_le
  have hp := s.postedCalls_le
  omega

include hes in
theorem mem_perm_range {e : ℕ} : e ∈ es ↔ e < s.q.made := by
  rw [hes.mem_iff, List.mem_range]

include hF hI h ha in
theorem peer_seq {e : ℕ} (he : e < s.q.made) : (s.peer L e).seq = s.shown e := by
  have hle := applied_le_log hF hI he
  rw [peer_eq hF hI h (hF.made ▸ he)]
  refine (prefix_seq ha (s.conn e).applied).trans ?_
  rw [min_eq_left hle, shown]

include hF hI h ha in
theorem eligible_iff {e : ℕ} (he : e < s.q.made) : (s.peer L e).Eligible ↔ s.Shows e := by
  rw [Peer.Eligible, peer_seq hF hI h ha he, Shows]

include hF hes in
theorem fleet_peers : Fleet L (es.map (s.peer L)) where
  nodup := by
    rw [List.map_map]
    refine List.Nodup.map_on (fun e he e' he' haddr => ?_) (hes.nodup_iff.mpr List.nodup_range)
    rw [mem_perm_range hes, hF.made] at he he'
    exact hF.inj e e' he he' haddr
  size := by
    intro p hp
    obtain ⟨e, -, rfl⟩ := List.mem_map.mp hp
    rfl

include hF hI h ha hes in
/-- The source shows the least number. -/
theorem leastShown_of_isSrc {p : Peer α} (hp : IsSrc (es.map (s.peer L)) p) :
    ∃ e, p = s.peer L e ∧ s.LeastShown e := by
  obtain ⟨e, he, rfl⟩ := List.mem_map.mp hp.mem
  have hm := (mem_perm_range hes).mp he
  refine ⟨e, rfl, hm, (eligible_iff hF hI h ha hm).mp hp.admissible, fun e' he' hs' => ?_⟩
  rw [← peer_seq hF hI h ha hm, ← peer_seq hF hI h ha he']
  refine hp.le (List.mem_map_of_mem ((mem_perm_range hes).mpr he')) ?_
  exact (eligible_iff hF hI h ha he').mpr hs'

include hF hI h ha in
/-- Every peer that shows the least number is the source in some order. -/
theorem isSrc_of_leastShown {e : ℕ} (he : s.LeastShown e) :
    ∃ es : List ℕ, es.Perm (List.range s.q.made) ∧ IsSrc (es.map (s.peer L)) (s.peer L e) := by
  obtain ⟨hm, hs, hleast⟩ := he
  have hes : (e :: (List.range s.q.made).erase e).Perm (List.range s.q.made) :=
    (List.perm_cons_erase (List.mem_range.mpr hm)).symm
  refine ⟨_, hes, [], _, rfl, (eligible_iff hF hI h ha hm).mpr hs, by simp, fun p hp hel => ?_⟩
  obtain ⟨e', he', rfl⟩ := List.mem_map.mp hp
  have hm' := List.mem_range.mp (List.mem_of_mem_erase he')
  rw [peer_seq hF hI h ha hm, peer_seq hF hI h ha hm']
  exact hleast e' hm' ((eligible_iff hF hI h ha hm').mp hel)

include hF hI h ha hes in
/-- If some peer can be the source, one is. -/
theorem exists_isSrc (hs : ∃ e, e < s.q.made ∧ s.Shows e) :
    ∃ e, s.LeastShown e ∧ IsSrc (es.map (s.peer L)) (s.peer L e) := by
  obtain ⟨e₀, hm, hs⟩ := hs
  rcases getRecoverSrcPeer_cases (es.map (s.peer L)) with ⟨hn, -⟩ | ⟨p, hp, -⟩
  · refine absurd ((eligible_iff hF hI h ha hm).mpr hs) (hn _ ?_)
    exact List.mem_map_of_mem ((mem_perm_range hes).mpr hm)
  · obtain ⟨e, rfl, he⟩ := leastShown_of_isSrc hF hI h ha hes hp
    exact ⟨e, he, hp⟩

end Sources

section Survive

variable {m : ℕ} (hF : FixedOk m s) (hI : Inv L s) (h : Snapshots L s) (ha : AllIn (Client.fresh L) s.log)
include hF hI h ha

theorem sourcesHold_of_survives [DecidableEq α] (hs : s.Survives L) {c : ℕ} (hc : c ∈ s.acked) :
    s.SourcesHold c := by
  refine ⟨?_, fun e he => ?_⟩
  · obtain ⟨_, -, hsrc, -⟩ := hs _ (List.Perm.refl _) c hc
    rcases getRecoverSrcPeer_cases ((List.range s.q.made).map (s.peer L)) with ⟨-, hg⟩ | ⟨p, hp, -⟩
    · simp [hg] at hsrc
    · obtain ⟨e, -, hm, hsh, -⟩ := leastShown_of_isSrc hF hI h ha (List.Perm.refl _) hp
      exact ⟨e, hm, hsh⟩
  · obtain ⟨es, hes, hp⟩ := isSrc_of_leastShown hF hI h ha he
    obtain ⟨e', he', hsrc, hle, -⟩ := hs es hes c hc
    rw [hp.getRecoverSrcPeer_eq] at hsrc
    have hm' := (mem_perm_range hes).mp he'
    have hee : e = e' := hF.inj e e' (hF.made ▸ he.1) (hF.made ▸ hm') (Option.some.inj hsrc)
    rwa [hee]

theorem survives_of_sourcesHold [DecidableEq α] (hL : L.size ≤ 2 ^ 32) (hs : ∀ c ∈ s.acked, s.SourcesHold c) :
    s.Survives L := by
  intro es hes c hc
  obtain ⟨hex, hall⟩ := hs c hc
  obtain ⟨e, he, hp⟩ := exists_isSrc hF hI h ha hes hex
  refine ⟨e, (mem_perm_range hes).mpr he.1, by rw [hp.getRecoverSrcPeer_eq]; rfl, hall e he, ?_⟩
  rw [recovered_of_src (fleet_peers hF hes) hp, peer_eq hF hI h (hF.made ▸ he.1)]
  exact restored_image hL ha _ _

/-- Before the counter wraps, a peer shows one less than the pairs it has
applied, and the slowest peer with two of them decides. -/
theorem sourcesHold_iff_noneLags (hlen : s.log.length < 2 ^ 64) (c : ℕ) : s.SourcesHold c ↔ s.NoneLags c := by
  have hshown : ∀ e, e < s.q.made → s.shown e = (s.conn e).applied / 2 - 1 := by
    intro e he
    have hle := applied_le_log hF hI he
    rw [shown]
    split
    · omega
    · exact Nat.mod_eq_of_lt (by omega)
  have hshows : ∀ e, e < s.q.made → (s.Shows e ↔ 4 ≤ (s.conn e).applied) := by
    intro e he
    have hle := applied_le_log hF hI he
    rw [Shows, hshown e he, seqMax]
    omega
  constructor
  · rintro ⟨hex, hall⟩
    obtain ⟨e₀, he₀, -⟩ := exists_isSrc hF hI h ha (List.Perm.refl _) hex
    refine ⟨⟨e₀, he₀.1, (hshows e₀ he₀.1).mp he₀.2.1⟩, fun e he h4 => ?_⟩
    have hsh := (hshows e he).mpr h4
    have hle := he₀.2.2 e he hsh
    rcases Nat.lt_or_ge (s.shown e₀) (s.shown e) with hlt | hge
    · -- a whole pair ahead of the source
      have h0 := hall e₀ he₀
      rw [hshown e₀ he₀.1, hshown e he] at hlt
      simp only [held] at h0 ⊢
      omega
    · exact hall e ⟨he, hsh, fun e' he' hs' => hge.trans (he₀.2.2 e' he' hs')⟩
  · rintro ⟨⟨e, he, h4⟩, hall⟩
    exact ⟨⟨e, he, (hshows e he).mpr h4⟩, fun e' he' => hall e' he'.1 ((hshows e' he'.1).mp he'.2.1)⟩

end Survive

/-- **When acknowledged writes survive a crash of the client.** In every run of
one epoch with a fixed peer set and bytes as of the post: every
acknowledged call is recovered exactly when some peer can be the source and
all peers that show the least number have applied the call. Before the
counter wraps: exactly when some peer has applied two pairs and none that
has lags behind the call. -/
theorem acknowledged_survive_iff [DecidableEq α] [Inhabited α] (hL : L.size ≤ 2 ^ 32) {rep : ℕ} {addrs : List α}
    (h : Trace.Reach (Trace.restrict (fun _ ev => ev.Local) (step rep .atPost)) (init L addrs) s)
    (ha : AllIn (Client.fresh L) s.log) :
    (s.Survives L ↔ ∀ c ∈ s.acked, s.SourcesHold c) ∧
      (s.log.length < 2 ^ 64 → (s.Survives L ↔ ∀ c ∈ s.acked, s.NoneLags c)) := by
  obtain ⟨hI, hF, hS⟩ := snapshots_of_reach h
  have hiff : s.Survives L ↔ ∀ c ∈ s.acked, s.SourcesHold c :=
    ⟨fun hs c hc => sourcesHold_of_survives hF hI hS ha hs hc, survives_of_sourcesHold hF hI hS ha hL⟩
  refine ⟨hiff, fun hlen => hiff.trans ?_⟩
  exact forall₂_congr fun c _ => sourcesHold_iff_noneLags hF hI hS ha hlen c

/-- A call to which the peers `es` respond, each applying both writes. -/
def respond (w : Call) (k : ℕ) (es : List ℕ) : List (Event ℕ) :=
  [.begin w, .put 0 16, .post] ++
    es.flatMap (fun e => [.apply e, .apply e, .complete e k .data, .complete e k .seq, .poll e]) ++ [.ret]

theorem acknowledged_survive_iff_allRespond : ∃ s : Sys ℕ,
    Trace.Reach (Trace.restrict (fun _ ev => ev.Local) (step 3 .atPost)) (init tiny [0, 1, 2]) s ∧
      s.acked = [1, 2] ∧ s.Survives tiny := by
  have hrun : ∃ s : Sys ℕ,
      Trace.Reach (Trace.restrict (fun _ ev => ev.Local) (step 3 .atPost)) (init tiny [0, 1, 2]) s ∧
      s.log = [.append [1], .append [2]] ∧ s.acked = [1, 2] ∧ s.q.made = 3 ∧
        ∀ e, e < 3 → (s.conn e).applied = 4 :=
    Trace.exists_reach_of_exec (respond (.append [1]) 0 [0, 1, 2] ++ respond (.append [2]) 1 [0, 1, 2])
      (by decide)
  obtain ⟨s, hs, hlog, hacked, hmade, happ⟩ := hrun
  obtain ⟨-, hiff⟩ := acknowledged_survive_iff (by decide) hs (by rw [hlog]; decide)
  refine ⟨s, hs, hacked, (hiff (by rw [hlog]; decide)).mpr fun c hc => ?_⟩
  have hle : c ≤ 2 := by
    rw [hacked] at hc
    exact (by decide : ∀ c ∈ [1, 2], c ≤ 2) c hc
  refine ⟨⟨0, by omega, (happ 0 (by omega)).ge⟩, fun e he _ => ?_⟩
  rw [held, happ e (hmade ▸ he)]
  exact hle

/-- Three appends that the first two peers acknowledge; the third peer has
applied only two of them. -/
def lagging : List (Event ℕ) :=
  respond (.append [1]) 0 [0, 1] ++ respond (.append [2]) 1 [0, 1] ++ respond (.append [3]) 2 [0, 1] ++
    [.apply 2, .apply 2, .apply 2, .apply 2]

/-- The third peer becomes the source, and the third append is lost. -/
theorem acknowledged_lost : ¬ ∀ s : Sys ℕ,
    Trace.Reach (Trace.restrict (fun _ ev => ev.Local) (step 3 .atPost)) (init tiny [0, 1, 2]) s →
    AllIn (Client.fresh tiny) s.log → (∀ e, e < s.q.made → (s.conn e).applied % 2 = 0) → s.Survives tiny := by
  intro h
  have hrun : ∃ s : Sys ℕ,
      Trace.Reach (Trace.restrict (fun _ ev => ev.Local) (step 3 .atPost)) (init tiny [0, 1, 2]) s ∧
      s.log = [.append [1], .append [2], .append [3]] ∧ 3 ∈ s.acked ∧ s.q.made = 3 ∧
        (∀ e, e < 3 → (s.conn e).applied % 2 = 0) ∧ (s.conn 2).applied = 4 :=
    Trace.exists_reach_of_exec lagging (by decide +kernel)
  obtain ⟨s, hs, hlog, hacked, hmade, heven, happ⟩ := hrun
  have ha : AllIn (Client.fresh tiny) s.log := by
    rw [hlog]
    decide
  have hlen : s.log.length < 2 ^ 64 := by
    rw [hlog]
    decide
  obtain ⟨hI, hF, hS⟩ := snapshots_of_reach hs
  have hsrc := sourcesHold_of_survives hF hI hS ha (h s hs ha (by rwa [hmade])) hacked
  have hlag := ((sourcesHold_iff_noneLags hF hI hS ha hlen 3).mp hsrc).2 2 (by omega) happ.ge
  rw [held, happ] at hlag
  omega

end Sys
end ComputeSideLog
