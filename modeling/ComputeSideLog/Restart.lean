/-
# Recovery is restartable

A `TryRecover` that is interrupted has applied, on every peer but its
source, some prefix of the two writes posted to it: nothing, the data, or
the data and the trailer. The trailer it writes is its own, which is zero in
a fresh client, so an attempt can only take peers out of the selection:
the source is untouched and stays the first least one
(`isSrc_interrupted`). Any number of interrupted attempts therefore leaves
what a completed one recovers unchanged (`tryRecover_restartable`).

Every client of one peer set fills `remote_props` in the same order, so the
attempts iterate over the peers alike. The order only decides between peers
with equal trailers, and these hold the same data as long as the sequence
number has not wrapped: then the attempts may even iterate in any order.
-/
import ComputeSideLog.Recover

namespace ComputeSideLog

variable {α : Type*}

/-! ### The peers in any order -/

section Order

variable {L : Layout} {ps qs : List (Peer α)} {s : ℕ} {d : Mem}

/-- What makes the order of the peers irrelevant: all peers with the least
eligible sequence number hold the same data. -/
structure OneSource (L : Layout) (ps : List (Peer α)) (s : ℕ) (d : Mem) : Prop where
  has : ∃ p ∈ ps, p.Eligible ∧ p.seq = s
  least : ∀ p ∈ ps, p.Eligible → s ≤ p.seq
  data : ∀ p ∈ ps, p.seq = s → ∀ x, x < L.seqOffset → p.buffer.mem x = d x

theorem Fleet.perm (h : ps.Perm qs) (hP : Fleet L ps) : Fleet L qs :=
  ⟨(h.map Peer.addr).nodup_iff.mp hP.nodup, fun q hq => hP.size q (h.mem_iff.mpr hq)⟩

theorem OneSource.perm (h : ps.Perm qs) (ho : OneSource L ps s d) :
    OneSource L qs s d where
  has := by
    obtain ⟨p, hp, hs⟩ := ho.has
    exact ⟨p, h.mem_iff.mp hp, hs⟩
  least p hp := ho.least p (h.mem_iff.mpr hp)
  data p hp := ho.data p (h.mem_iff.mpr hp)

/-- Whichever of them is selected, its sequence number is the least one. -/
theorem OneSource.isSrc (ho : OneSource L ps s d) : ∃ p, IsSrc ps p ∧ p.seq = s := by
  obtain ⟨q, hq, hel, hs⟩ := ho.has
  rcases getRecoverSrcPeer_cases ps with ⟨hn, -⟩ | ⟨p, hp, -⟩
  · exact absurd hel (hn q hq)
  · exact ⟨p, hp, le_antisymm (hs ▸ hp.le hq hel) (ho.least p hp.mem hp.admissible)⟩

end Order

variable [DecidableEq α]

/-- The peers after an attempt that applied the first `k a` of its two writes
at the peer `a`. -/
def interrupted (L : Layout) (ps : List (Peer α)) (k : α → ℕ) : List (Peer α) :=
  ((Client.fresh L).recovered ps).syncPeers ps (getRecoverSrcPeer ps).1 k

/-- The peers after any number of interrupted attempts, each with an iteration
order of its own. -/
inductive Interrupted (L : Layout) : List (Peer α) → List (Peer α) → Prop
  | stop {ps qs : List (Peer α)} : ps.Perm qs → Interrupted L ps qs
  | attempt {ps qs rs : List (Peer α)} (k : α → ℕ) : ps.Perm qs →
      Interrupted L (interrupted L qs k) rs → Interrupted L ps rs

/-! ### What an attempt writes -/

/-- A client in recovery: its own trailer is zero and its data fits. -/
structure Restoring (L : Layout) (c : Client) : Prop where
  off : c.seqOffset = L.seqOffset
  trailer : ∀ x, L.seqOffset ≤ x → c.buffer.mem x = 0
  size : c.fileSize ≤ L.seqOffset

theorem restoring_fresh (L : Layout) : Restoring L (Client.fresh L) :=
  ⟨Client.fresh_seqOffset L, fun _ _ => rfl, Nat.zero_le _⟩

variable {L : Layout} {ps : List (Peer α)}

theorem restoring_recovered (hP : Fleet L ps) : Restoring L ((Client.fresh L).recovered ps) := by
  rcases getRecoverSrcPeer_cases ps with ⟨hn, -⟩ | ⟨p, hp, -⟩
  · rw [recovered_of_none hn]
    exact restoring_fresh L
  · rw [recovered_of_src hP hp]
    have hle := hP.size_le hp.mem
    refine ⟨Client.fresh_seqOffset L, fun x hx => ?_, hle⟩
    have hmod := Nat.mod_le p.size (2 ^ 32)
    rw [Client.restored_mem, if_neg (by omega)]

section Partial

variable {c : Client} (hc : Restoring L c) (m : Mem) (k : ℕ)
include hc

/-- A partial write-back leaves each data byte or brings the client's. -/
theorem partial_data {x : ℕ} (hx : x < L.seqOffset) :
    applyAll m (c.syncWrites.take k) x = m x ∨ (x < c.fileSize % 2 ^ 32 ∧
      applyAll m (c.syncWrites.take k) x = c.buffer.mem x) := by
  match k with
  | 0 => exact .inl rfl
  | 1 =>
    rw [sync_one]
    by_cases h : x < c.fileSize % 2 ^ 32
    · exact .inr ⟨h, Mem.copy_in (by omega)⟩
    · exact .inl (Mem.copy_out (by omega))
  | k + 2 =>
    rw [sync_data k (hc.off ▸ hx)]
    split
    · exact .inr ⟨‹_›, rfl⟩
    · exact .inl rfl

/-- A partial write-back leaves the sequence number or clears it. -/
theorem partial_seq :
    readSeqNum (L.region (applyAll m (c.syncWrites.take k))) = readSeqNum (L.region m) ∨
    readSeqNum (L.region (applyAll m (c.syncWrites.take k))) = 0 := by
  simp only [L.readSeqNum_region]
  have hmod := Nat.mod_le c.fileSize (2 ^ 32)
  have hsize := hc.size
  match k with
  | 0 => exact .inl rfl
  | 1 =>
    refine .inl (Mem.getLE_congr fun x h1 _ => ?_)
    rw [sync_one]
    exact Mem.copy_out (by omega)
  | k + 2 =>
    refine .inr ((Mem.getLE_congr fun x h1 h2 => ?_).trans (Mem.getLE_zero seqWidth L.seqOffset))
    rw [sync_two, hc.off, Mem.copy_in ⟨h1, h2⟩]
    exact hc.trailer x h1

end Partial

/-! ### One attempt -/

/-- Each peer of an attempt comes from one before it: the source unchanged,
every other one with a partial write-back. -/
theorem mem_interrupted {k : α → ℕ} {q' : Peer α} (h : q' ∈ interrupted L ps k) :
    ∃ q ∈ ps, q'.addr = q.addr ∧ (q' = q ∨
      q' = q.apply (((Client.fresh L).recovered ps).syncWrites.take (k q.addr))) := by
  obtain ⟨q, hq, rfl⟩ := List.mem_map.mp h
  refine ⟨q, hq, ?_⟩
  split
  · exact ⟨rfl, .inl rfl⟩
  · exact ⟨rfl, .inr rfl⟩

theorem fleet_interrupted (hP : Fleet L ps) (k : α → ℕ) : Fleet L (interrupted L ps k) :=
  fleet_syncPeers hP _ _ k

/-- A peer that is still eligible after an attempt has kept its sequence number. -/
theorem seq_interrupted (hP : Fleet L ps) {q q' : Peer α} {k : ℕ} (hq : q ∈ ps)
    (h : q' = q ∨ q' = q.apply (((Client.fresh L).recovered ps).syncWrites.take k)) (h0 : q'.seq ≠ 0) :
    q'.seq = q.seq := by
  rcases h with rfl | rfl
  · rfl
  · have hsize := hP.size q hq
    have hq' : q.buffer = L.region q.buffer.mem := by
      cases hb : q.buffer
      simp only [hb] at hsize
      subst hsize
      rfl
    have hs := partial_seq (restoring_recovered hP) q.buffer.mem k
    rw [← hq'] at hs
    simp only [Layout.region, ← hsize] at hs
    exact hs.resolve_right h0

/-- **The source of an attempt stays the source.** -/
theorem isSrc_interrupted (hP : Fleet L ps) {p : Peer α} (h : IsSrc ps p) (k : α → ℕ) :
    IsSrc (interrupted L ps k) p := by
  have hg := h.getRecoverSrcPeer_eq
  have hmem : ∀ q ∈ ps, ∀ q', q' = (if some q.addr = some p.addr then q else
      q.apply (((Client.fresh L).recovered ps).syncWrites.take (k q.addr))) → q'.Eligible →
      q.Eligible ∧ q'.seq = q.seq := by
    intro q hq q' hq' hel
    have hs : q'.seq = q.seq := by
      refine seq_interrupted hP hq (k := k q.addr) ?_ hel.1
      rw [hq']
      split
      · exact .inl rfl
      · exact .inr rfl
    unfold Peer.Eligible at hel ⊢
    exact ⟨hs ▸ hel, hs⟩
  obtain ⟨l₁, l₂, rfl, hel, h1, h2⟩ := h
  unfold interrupted Client.syncPeers
  rw [hg, List.map_append, List.map_cons, if_pos rfl]
  refine ⟨_, _, rfl, hel, fun q' hq' hq'el => ?_, fun q' hq' hq'el => ?_⟩
  · obtain ⟨q, hq, rfl⟩ := List.mem_map.mp hq'
    obtain ⟨hqel, hs⟩ := hmem q (by simp [hq]) _ rfl hq'el
    rw [hs]
    exact h1 q hq hqel
  · obtain ⟨q, hq, rfl⟩ := List.mem_map.mp hq'
    obtain ⟨hqel, hs⟩ := hmem q (by simp [hq]) _ rfl hq'el
    rw [hs]
    exact h2 q hq hqel

/-- Without a source there is none after the attempt either. -/
theorem none_interrupted (hP : Fleet L ps) (hn : ∀ p ∈ ps, ¬ p.Eligible) (k : α → ℕ) :
    ∀ p ∈ interrupted L ps k, ¬ p.Eligible := by
  intro q' hq' hel
  obtain ⟨q, hq, -, h⟩ := mem_interrupted hq'
  have hs := seq_interrupted hP hq h hel.1
  unfold Peer.Eligible at hel hn
  exact hn q hq (hs ▸ hel)

/-! ### Any number of attempts -/

theorem recovered_foldl : ∀ (ks : List (α → ℕ)) {ps : List (Peer α)}, Fleet L ps →
    (Client.fresh L).recovered (ks.foldl (interrupted L) ps) = (Client.fresh L).recovered ps := by
  intro ks
  induction ks with
  | nil => exact fun _ => rfl
  | cons k ks ih =>
    intro ps hP
    rw [List.foldl_cons, ih (fleet_interrupted hP k)]
    rcases getRecoverSrcPeer_cases ps with ⟨hn, -⟩ | ⟨p, hp, -⟩
    · rw [recovered_of_none hn, recovered_of_none (none_interrupted hP hn k)]
    · rw [recovered_of_src hP hp, recovered_of_src (fleet_interrupted hP k) (isSrc_interrupted hP hp k)]

section OneSource

variable {s : ℕ} {d : Mem}

theorem OneSource.interrupted (hP : Fleet L ps) (ho : OneSource L ps s d) (k : α → ℕ) :
    OneSource L (interrupted L ps k) s d := by
  obtain ⟨p, hp, hps⟩ := ho.isSrc
  have hs0 : s ≠ 0 := hps ▸ hp.admissible.1
  refine ⟨⟨p, (isSrc_interrupted hP hp k).mem, hp.admissible, hps⟩, fun q' hq' hel => ?_, fun q' hq' hs x hx => ?_⟩
  · obtain ⟨q, hq, -, h⟩ := mem_interrupted hq'
    have hqs := seq_interrupted hP hq h hel.1
    unfold Peer.Eligible at hel
    rw [hqs] at hel ⊢
    exact ho.least q hq hel
  · obtain ⟨q, hq, -, h⟩ := mem_interrupted hq'
    have hqs := seq_interrupted hP hq h (hs ▸ hs0)
    have hqd := ho.data q hq (hqs ▸ hs) x hx
    rcases h with rfl | rfl
    · exact hqd
    · rcases partial_data (restoring_recovered hP) q.buffer.mem (k q.addr) hx with hd | ⟨hlt, hd⟩
      · exact hd.trans hqd
      · -- the byte written back is the source's, which has the same data
        have hsrc : ((Client.fresh L).recovered ps).buffer.mem x = p.buffer.mem x := by
          rw [recovered_of_src hP hp] at hlt ⊢
          rw [Client.restored_mem]
          exact if_pos hlt
        calc _ = ((Client.fresh L).recovered ps).buffer.mem x := hd
          _ = p.buffer.mem x := hsrc
          _ = d x := ho.data p hp.mem hps x hx

theorem OneSource.recovered (hP : Fleet L ps) (ho : OneSource L ps s d) :
    ((Client.fresh L).recovered ps).fileSize = d.used L.seqOffset ∧
      ∀ x, x < L.seqOffset → ((Client.fresh L).recovered ps).buffer.mem x =
        if x < d.used L.seqOffset % 2 ^ 32 then d x else 0 := by
  obtain ⟨p, hp, hps⟩ := ho.isSrc
  have hsz : p.size = d.used L.seqOffset := by
    rw [hP.size_eq hp.mem]
    exact Mem.used_congr (ho.data p hp.mem hps)
  rw [recovered_of_src hP hp]
  refine ⟨hsz, fun x hx => ?_⟩
  rw [Client.restored_mem, hsz, ho.data p hp.mem hps x hx]

end OneSource

/-- Attempts in any order leave the least sequence number and its data. -/
theorem oneSource_of_interrupted {s : ℕ} {d : Mem} {ps qs : List (Peer α)} (h : Interrupted L ps qs) :
    Fleet L ps → OneSource L ps s d → Fleet L qs ∧ OneSource L qs s d := by
  induction h with
  | stop hperm => exact fun hP ho => ⟨hP.perm hperm, ho.perm hperm⟩
  | attempt k hperm _ ih =>
    intro hP ho
    have hQ := hP.perm hperm
    exact ih (fleet_interrupted hQ k) ((ho.perm hperm).interrupted hQ k)

theorem none_of_interrupted {ps qs : List (Peer α)} (h : Interrupted L ps qs) :
    Fleet L ps → (∀ p ∈ ps, ¬ p.Eligible) → ∀ p ∈ qs, ¬ p.Eligible := by
  induction h with
  | stop hperm => exact fun _ hn p hp => hn p (hperm.mem_iff.mpr hp)
  | attempt k hperm _ ih =>
    intro hP hn
    have hQ := hP.perm hperm
    exact ih (fleet_interrupted hQ k) (none_interrupted hQ (fun p hp => hn p (hperm.mem_iff.mpr hp)) k)

omit [DecidableEq α] in
/-- Before a wrap, equal sequence numbers come from equal prefixes. -/
theorem oneSource_prefixPeers {ws : List Call} (ha : AllIn (Client.fresh L) ws) (hlen : ws.length ≤ 2 ^ 64)
    {ks : List (α × ℕ)} {p : Peer α}
    (hp : IsSrc (prefixPeers L ws (ks.map fun ak => (ak.1, 2 * ak.2))) p) :
    OneSource L (prefixPeers L ws (ks.map fun ak => (ak.1, 2 * ak.2))) p.seq p.buffer.mem := by
  refine ⟨⟨p, hp.mem, hp.admissible, rfl⟩, fun q hq hel => hp.le hq hel, fun q hq hs x _ => ?_⟩
  have hne := hp.admissible.1
  have hpre : ∀ r ∈ prefixPeers L ws (ks.map fun ak => (ak.1, 2 * ak.2)), ∃ k,
      r.buffer.mem = applyAll Mem.zero ((posts (Client.fresh L) ws).take (2 * min k ws.length)) ∧
      r.seq = if min k ws.length = 0 then 0 else (min k ws.length - 1) % 2 ^ 64 := by
    intro r hr
    simp only [prefixPeers, List.map_map, List.mem_map, Function.comp_apply] at hr
    obtain ⟨⟨a, k⟩, -, rfl⟩ := hr
    refine ⟨k, ?_, ?_⟩
    · simp only [prefixPeer, Layout.region_mem]
      rw [posts_take_even, posts_take_even, ← List.take_take, List.take_length]
    · have := prefix_seq ha (2 * k)
      rwa [Nat.mul_div_cancel_left _ (by omega : 0 < 2)] at this
  obtain ⟨k, hpm, hpseq⟩ := hpre p hp.mem
  obtain ⟨k', hqm, hqseq⟩ := hpre q hq
  have hk : min k ws.length = min k' ws.length := by
    rw [hqseq, hpseq] at hs
    rw [hpseq] at hne
    split at hs <;> split at hs <;> split at hne <;> omega
  rw [hpm, hqm, hk]

/-- **Recovery is restartable.** From peers that applied any prefixes of the
pairs of one epoch, a `TryRecover` that completes after any number of
interrupted ones yields the file that it yields at once, each attempt
iterating over the peers in the same order, or, in an epoch of at most
`2^64` calls, in any order. -/
theorem tryRecover_restartable {ws : List Call} (ha : AllIn (Client.fresh L) ws) {ks : List (α × ℕ)}
    (hn : (ks.map Prod.fst).Nodup) :
    (∀ attempts : List (α → ℕ),
      SameFile ((Client.fresh L).tryRecover
          (attempts.foldl (interrupted L) (prefixPeers L ws (ks.map fun ak => (ak.1, 2 * ak.2))))).1
        ((Client.fresh L).tryRecover (prefixPeers L ws (ks.map fun ak => (ak.1, 2 * ak.2)))).1) ∧
    (ws.length ≤ 2 ^ 64 → ∀ qs,
      Interrupted L (prefixPeers L ws (ks.map fun ak => (ak.1, 2 * ak.2))) qs →
      SameFile ((Client.fresh L).tryRecover qs).1
        ((Client.fresh L).tryRecover (prefixPeers L ws (ks.map fun ak => (ak.1, 2 * ak.2)))).1) := by
  have hP : Fleet L (prefixPeers L ws (ks.map fun ak => (ak.1, 2 * ak.2))) :=
    fleet_prefixPeers L ws (by simpa [Function.comp_def] using hn)
  refine ⟨fun attempts => ?_, fun hlen qs hqs => ?_⟩
  · have h := recovered_foldl attempts hP
    simp only [Client.tryRecover, h]
    exact ⟨rfl, fun _ _ => rfl⟩
  · simp only [Client.tryRecover]
    rcases getRecoverSrcPeer_cases (prefixPeers L ws (ks.map fun ak => (ak.1, 2 * ak.2))) with
      ⟨hnone, -⟩ | ⟨p, hp, -⟩
    · rw [recovered_of_none hnone, recovered_of_none (none_of_interrupted hqs hP hnone)]
      exact ⟨rfl, fun _ _ => rfl⟩
    · have ho := oneSource_prefixPeers ha hlen hp
      obtain ⟨hQ, hoq⟩ := oneSource_of_interrupted hqs hP ho
      obtain ⟨h1, h2⟩ := ho.recovered hP
      obtain ⟨h1', h2'⟩ := hoq.recovered hQ
      refine ⟨h1'.trans h1.symm, fun x hx => ?_⟩
      have hx' : x < L.seqOffset := hx.trans_le (h1' ▸ Mem.used_le _ _)
      rw [h2 x hx', h2' x hx']

/-- Two attempts are interrupted before the third one. What comes back is the log of
the peer that has applied two calls. -/
theorem tryRecover_restartable_tiny :
    AllIn (Client.fresh tiny) [.append [1], .append [2], .append [3]] ∧
      SameFile ((Client.fresh tiny).tryRecover ([fun a => if a = 1 then 1 else 2, fun _ => 0].foldl
          (interrupted tiny) (prefixPeers tiny [.append [1], .append [2], .append [3]] [(0, 4), (1, 6)]))).1
        ((Client.fresh tiny).tryRecover
          (prefixPeers tiny [.append [1], .append [2], .append [3]] [(0, 4), (1, 6)])).1 ∧
      (((Client.fresh tiny).tryRecover
          (prefixPeers tiny [.append [1], .append [2], .append [3]] [(0, 4), (1, 6)])).1.fileSize = 2 ∧
        ∀ x : Fin 2, ((Client.fresh tiny).tryRecover
          (prefixPeers tiny [.append [1], .append [2], .append [3]] [(0, 4), (1, 6)])).1.buffer.mem x =
            [1, 2].get x) := by
  have ha : AllIn (Client.fresh tiny) [.append [1], .append [2], .append [3]] := by decide
  exact ⟨ha, (tryRecover_restartable ha
    (show (([(0, 2), (1, 3)] : List (ℕ × ℕ)).map Prod.fst).Nodup by decide)).1 _, by decide⟩

end ComputeSideLog
