/-
# Recovery from the peers

A client that starts after a crash runs `TryRecover` (`src/rdma/client.cc`):
it asks every peer for its size and sequence number, picks a source
(`getRecoverSrcPeer`), reads the source's data into its own buffer
(`recoverFromSrc`), and writes it back to every other peer together with its
own trailer word (`syncPeerAfterRecover`, `recoverPeers`).

The source is the first peer, in the order of `remote_props`, with the least
sequence number other than 0 and `UINT64_MAX` (`IsSrc`,
`getRecoverSrcPeer_cases`). The write-back covers only the recovered size,
so the peers agree afterwards exactly when none of them holds anything past
it (`tryRecover_agree_iff`).

Key definitions: `getRecoverSrcPeer`, `Client.recoverFromSrc`,
`Client.syncPeers`, `Client.tryRecover`, `IsSrc`.
Key theorems: `getRecoverSrcPeer_cases`, `recovered_of_src`,
`recovered_of_none`, `tryRecover_agree_iff`.
-/
import Mathlib.Data.List.Nodup
import ComputeSideLog.Lib.Least
import ComputeSideLog.Posts

namespace ComputeSideLog

/-- `UINT64_MAX`. -/
def seqMax : ℕ := 2 ^ 64 - 1

/-- A connected peer: its address and its region for the file. -/
structure Peer (α : Type*) where
  addr : α
  buffer : Buffer

namespace Peer

variable {α : Type*}

/-- The peer after RDMA writes to its region. -/
def apply (p : Peer α) (os : List RdmaWrite) : Peer α :=
  { p with buffer := { p.buffer with mem := applyAll p.buffer.mem os } }

@[simp] theorem apply_addr (p : Peer α) (os : List RdmaWrite) : (p.apply os).addr = p.addr := rfl
@[simp] theorem apply_size (p : Peer α) (os : List RdmaWrite) :
    (p.apply os).buffer.size = p.buffer.size := rfl
@[simp] theorem apply_mem (p : Peer α) (os : List RdmaWrite) :
    (p.apply os).buffer.mem = applyAll p.buffer.mem os := rfl

/-- The sequence number the peer reports. -/
def seq (p : Peer α) : ℕ := readSeqNum p.buffer

/-- The size the peer reports. -/
def size (p : Peer α) : ℕ := findSize p.buffer

/-- The peer can be a source: its sequence number is neither 0 nor the
initial value of `min_seq`. -/
def Eligible (p : Peer α) : Prop := p.seq ≠ 0 ∧ p.seq < seqMax

instance (p : Peer α) : Decidable p.Eligible := inferInstanceAs (Decidable (_ ∧ _))

end Peer

variable {α : Type*}

/-- The variables of the loop in `getRecoverSrcPeer`. -/
structure SrcAcc (α : Type*) where
  minSeq : ℕ
  recoverSize : ℕ
  ipRecoverSrc : Option α

/-- The body of that loop, for the reply of one peer. -/
def srcStep (acc : SrcAcc α) (p : Peer α) : SrcAcc α :=
  let resp := getInfo p.buffer
  if resp.seq ≠ 0 ∧ resp.seq < acc.minSeq then ⟨resp.seq, resp.size, some p.addr⟩ else acc

/-- `getRecoverSrcPeer` over the peers in the order of `remote_props`: the
source, if there is one, and the size to recover. -/
def getRecoverSrcPeer (ps : List (Peer α)) : Option α × ℕ :=
  let acc := ps.foldl srcStep ⟨seqMax, 0, none⟩
  (acc.ipRecoverSrc, if acc.minSeq = seqMax then 0 else acc.recoverSize)

namespace Client

/-- `recoverFromSrc`: read `size` bytes (a 32-bit length) into the buffer. -/
def recoverFromSrc (c : Client) (src : Peer α) (size : ℕ) : Client :=
  { c with
    buffer := { c.buffer with mem := c.buffer.mem.copy src.buffer.mem 0 (size % 2 ^ 32) }
    fileSize := size }

/-- What `recoverPeers` posts to each peer: the recovered bytes and the
client's own trailer word. -/
def syncWrites (c : Client) : List RdmaWrite := c.writeTwoPlace 0 c.fileSize

/-- `syncPeerAfterRecover` and `recoverPeers`, each peer but `skip` having
applied the first `k` of the two writes posted to it. -/
def syncPeers [DecidableEq α] (c : Client) (ps : List (Peer α)) (skip : Option α) (k : α → ℕ) :
    List (Peer α) :=
  ps.map fun p =>
    if some p.addr = skip then p else p.apply (c.syncWrites.take (k p.addr))

/-- The client after the first half of `TryRecover`. -/
def recovered [DecidableEq α] (c : Client) (ps : List (Peer α)) : Client :=
  let (src, size) := getRecoverSrcPeer ps
  if 0 < size then
    match src.bind fun a => ps.find? fun p => p.addr = a with
    | some p => c.recoverFromSrc p size
    | none => c
  else c

/-- `TryRecover`: the client and the peers after it. -/
def tryRecover [DecidableEq α] (c : Client) (ps : List (Peer α)) : Client × List (Peer α) :=
  let c' := c.recovered ps
  (c', c'.syncPeers ps (getRecoverSrcPeer ps).1 fun _ => 2)

end Client

/-- Two clients hold the same file. -/
def SameFile (c c' : Client) : Prop :=
  c.fileSize = c'.fileSize ∧ ∀ x, x < c.fileSize → c.buffer.mem x = c'.buffer.mem x

/-! ### The source -/

/-- `p` is the first peer of the list with the least eligible sequence number. -/
def IsSrc (ps : List (Peer α)) (p : Peer α) : Prop := Least.FirstLeast Peer.seq Peer.Eligible ps p

/-- **What `getRecoverSrcPeer` selects**: the first peer with the least
eligible sequence number and the size it reports, or nothing. -/
theorem getRecoverSrcPeer_cases (ps : List (Peer α)) :
    ((∀ p ∈ ps, ¬ p.Eligible) ∧ getRecoverSrcPeer ps = (none, 0)) ∨
    ∃ p, IsSrc ps p ∧ getRecoverSrcPeer ps = (some p.addr, p.size) := by
  unfold getRecoverSrcPeer
  rcases @Least.foldl_cases _ _ Peer.seq SrcAcc.minSeq (fun p : Peer α => ⟨p.seq, p.size, some p.addr⟩)
    srcStep (fun _ => rfl) (fun _ _ => rfl) ps ⟨seqMax, 0, none⟩ with ⟨he, hall⟩ | ⟨p, hp, he⟩
  · refine .inl ⟨fun p hp hel => ?_, by simp [he]⟩
    exact absurd hel.2 (not_lt.mpr (hall p hp hel.1))
  · have hlt : p.seq < seqMax := hp.admissible.2
    refine .inr ⟨p, hp, ?_⟩
    simp only [he]
    rw [if_neg (ne_of_lt hlt)]

theorem IsSrc.getRecoverSrcPeer_eq {ps : List (Peer α)} {p : Peer α} (h : IsSrc ps p) :
    getRecoverSrcPeer ps = (some p.addr, p.size) := by
  rcases getRecoverSrcPeer_cases ps with ⟨hn, -⟩ | ⟨q, hq, he⟩
  · exact absurd h.admissible (hn p h.mem)
  · rw [he, Least.FirstLeast.unique h hq]

theorem getRecoverSrcPeer_none {ps : List (Peer α)} (h : ∀ p ∈ ps, ¬ p.Eligible) :
    getRecoverSrcPeer ps = (none, 0) := by
  rcases getRecoverSrcPeer_cases ps with ⟨-, he⟩ | ⟨p, hp, -⟩
  · exact he
  · exact absurd hp.admissible (h p hp.mem)

/-! ### The recovered client -/

/-- The peers of one epoch: distinct addresses, and regions of the layout's size. -/
structure Fleet (L : Layout) (ps : List (Peer α)) : Prop where
  nodup : (ps.map Peer.addr).Nodup
  size : ∀ p ∈ ps, p.buffer.size = L.size

theorem Fleet.size_eq {L : Layout} {ps : List (Peer α)} (h : Fleet L ps) {p : Peer α} (hp : p ∈ ps) :
    p.size = p.buffer.mem.used L.seqOffset := by
  rw [Peer.size, findSize, h.size p hp, if_pos L.trailer_le]
  rfl

theorem Fleet.size_le {L : Layout} {ps : List (Peer α)} (h : Fleet L ps) {p : Peer α} (hp : p ∈ ps) :
    p.size ≤ L.seqOffset := by
  rw [h.size_eq hp]
  exact Mem.used_le _ _

/-- The peer whose address is selected is the first least one. -/
theorem isSrc_of_selected {L : Layout} {ps : List (Peer α)} (hP : Fleet L ps) {p : Peer α} (hp : p ∈ ps)
    (h : (getRecoverSrcPeer ps).1 = some p.addr) : IsSrc ps p := by
  rcases getRecoverSrcPeer_cases ps with ⟨-, hg⟩ | ⟨q, hq, hg⟩
  · simp [hg] at h
  · rw [hg] at h
    rwa [← List.inj_on_of_nodup_map hP.nodup hq.mem hp (Option.some.inj h)]

/-- What a fresh client holds after reading from `p`. -/
def Client.restored (L : Layout) (p : Peer α) : Client := (Client.fresh L).recoverFromSrc p p.size

theorem Client.restored_mem (L : Layout) (p : Peer α) (x : ℕ) : (Client.restored L p).buffer.mem x =
    if x < p.size % 2 ^ 32 then p.buffer.mem x else 0 := by
  simp only [Client.restored, Client.recoverFromSrc, Mem.copy, Nat.zero_le, true_and, Nat.zero_add]
  rfl

section TryRecover

variable [DecidableEq α] {L : Layout} {ps : List (Peer α)}

theorem find_addr (hn : (ps.map Peer.addr).Nodup) {p : Peer α} (hp : p ∈ ps) :
    ps.find? (fun q => q.addr = p.addr) = some p := by
  induction ps with
  | nil => simp at hp
  | cons q qs ih =>
    simp only [List.map_cons, List.nodup_cons] at hn
    rcases List.mem_cons.mp hp with rfl | hp
    · simp
    · have hne : q.addr ≠ p.addr := fun he => hn.1 (he ▸ List.mem_map.mpr ⟨p, hp, rfl⟩)
      simp [hne, ih hn.2 hp]

/-- With a source, the client holds what it read from it. -/
theorem recovered_of_src (hP : Fleet L ps) {p : Peer α} (h : IsSrc ps p) :
    (Client.fresh L).recovered ps = Client.restored L p := by
  unfold Client.recovered
  rw [h.getRecoverSrcPeer_eq]
  simp only [Option.bind_some, find_addr hP.nodup h.mem]
  split
  · rfl
  · rename_i h0
    have hz : p.size = 0 := by omega
    -- a source without data: nothing is read, which is a read of no bytes
    simp only [Client.restored, Client.recoverFromSrc, hz, Nat.zero_mod]
    rw [Mem.copy_eq_self fun x _ hx => absurd hx (by omega)]
    rfl

/-- Without one, it stays empty. -/
theorem recovered_of_none (h : ∀ p ∈ ps, ¬ p.Eligible) :
    (Client.fresh L).recovered ps = Client.fresh L := by
  unfold Client.recovered
  rw [getRecoverSrcPeer_none h]
  rfl

theorem fleet_syncPeers (hP : Fleet L ps) (c : Client) (skip : Option α) (k : α → ℕ) :
    Fleet L (c.syncPeers ps skip k) where
  nodup := by
    have haddr : (c.syncPeers ps skip k).map Peer.addr = ps.map Peer.addr := by
      simp only [Client.syncPeers, List.map_map]
      refine List.map_congr_left fun p _ => ?_
      simp only [Function.comp_apply]
      split <;> rfl
    rw [haddr]
    exact hP.nodup
  size := by
    intro q' hq'
    obtain ⟨q, hq, rfl⟩ := List.mem_map.mp hq'
    split
    · exact hP.size q hq
    · exact hP.size q hq

/-- The first write of the write-back brings the data. -/
theorem sync_one (c : Client) (m : Mem) :
    applyAll m (c.syncWrites.take 1) = m.copy c.buffer.mem 0 (c.fileSize % 2 ^ 32) := rfl

/-- The second one brings the trailer. -/
theorem sync_two (c : Client) (m : Mem) (k : ℕ) : applyAll m (c.syncWrites.take (k + 2)) =
    (m.copy c.buffer.mem 0 (c.fileSize % 2 ^ 32)).copy c.buffer.mem c.seqOffset seqWidth := by
  have hall : c.syncWrites.take (k + 2) = c.writeTwoPlace 0 c.fileSize :=
    List.take_of_length_le (Nat.le_add_left 2 k)
  rw [hall]
  exact applyAll_writeTwoPlace m c 0 c.fileSize

/-- The data region of a peer after the whole write-back. -/
theorem sync_data {c : Client} {m : Mem} (k : ℕ) {x : ℕ} (hx : x < c.seqOffset) :
    applyAll m (c.syncWrites.take (k + 2)) x =
      if x < c.fileSize % 2 ^ 32 then c.buffer.mem x else m x := by
  rw [sync_two, Mem.copy_out (by omega)]
  simp only [Mem.copy, Nat.zero_le, true_and, Nat.zero_add]

/-- All peers hold the client's data region. -/
def PeersAgree (L : Layout) (r : Client × List (Peer α)) : Prop :=
  ∀ q ∈ r.2, ∀ x, x < L.seqOffset → q.buffer.mem x = r.1.buffer.mem x

/-- The write-back of `size` bytes reaches everything a peer holds: no peer
reports more. -/
def Covered (ps : List (Peer α)) (size : ℕ) : Prop := ∀ q ∈ ps, q.size ≤ size % 2 ^ 32

/-- The agreement of the peers after the write-back by a client with data `d`
up to its size and zeros after it. -/
theorem agree_sync_iff (hP : Fleet L ps) (c : Client) (skip : Option α) (hc : c.seqOffset = L.seqOffset)
    (hz : ∀ x, c.fileSize % 2 ^ 32 ≤ x → c.buffer.mem x = 0)
    (hskip : ∀ p ∈ ps, some p.addr = skip → ∀ x, x < c.fileSize % 2 ^ 32 → p.buffer.mem x = c.buffer.mem x) :
    PeersAgree L (c, c.syncPeers ps skip fun _ => 2) ↔ Covered ps c.fileSize := by
  have hpeer : ∀ p ∈ ps, (∀ x, x < L.seqOffset →
      (if some p.addr = skip then p else p.apply (c.syncWrites.take 2)).buffer.mem x =
        c.buffer.mem x) ↔ p.size ≤ c.fileSize % 2 ^ 32 := by
    intro p hp
    -- skipped or not, the peer holds the client's bytes up to the size and its own after it
    have hmem : ∀ x, x < L.seqOffset →
        (if some p.addr = skip then p else p.apply (c.syncWrites.take 2)).buffer.mem x =
          if x < c.fileSize % 2 ^ 32 then c.buffer.mem x else p.buffer.mem x := by
      intro x hx
      split
      · rename_i hs
        split
        · exact hskip p hp hs x ‹_›
        · rfl
      · exact sync_data 0 (hc ▸ hx)
    rw [hP.size_eq hp, Mem.used_le_iff]
    constructor
    · intro h x h1 h2
      have := h x h2
      rw [hmem x h2, if_neg (not_lt.mpr h1), hz x h1] at this
      exact this
    · intro h x h2
      rw [hmem x h2]
      split
      · rfl
      · rename_i h1
        rw [h x (not_lt.mp h1) h2, hz x (not_lt.mp h1)]
  simp only [PeersAgree, Covered, Client.syncPeers, List.forall_mem_map]
  exact forall₂_congr hpeer

/-- **When the peers agree after recovery.** `TryRecover` leaves every peer
with the client's data region exactly when no peer reports a larger size
than the source (modulo the 32-bit length of the write-back), or, without a
source, when no peer holds any data. -/
theorem tryRecover_agree_iff (hP : Fleet L ps) : PeersAgree L ((Client.fresh L).tryRecover ps) ↔
    (∀ p, IsSrc ps p → Covered ps p.size) ∧ ((∀ p ∈ ps, ¬ p.Eligible) → Covered ps 0) := by
  unfold Client.tryRecover
  rcases getRecoverSrcPeer_cases ps with ⟨hn, hg⟩ | ⟨p, hp, hg⟩
  · have hiff := agree_sync_iff hP (Client.fresh L) none (Client.fresh_seqOffset L) (fun _ _ => rfl)
      (fun _ _ h => absurd h (by simp))
    simp only [recovered_of_none hn, hg]
    rw [hiff]
    exact ⟨fun h => ⟨fun p hp => absurd hp.admissible (hn p hp.mem), fun _ => h⟩, fun h => h.2 hn⟩
  · have hiff := agree_sync_iff hP (Client.restored L p) (some p.addr) (Client.fresh_seqOffset L)
      (fun x hx => by rw [Client.restored_mem]; exact if_neg (not_lt.mpr hx))
      (fun q hq he x hx => by
        rw [Client.restored_mem, List.inj_on_of_nodup_map hP.nodup hq hp.mem (Option.some.inj he)]
        exact (if_pos hx).symm)
    simp only [recovered_of_src hP hp, hg]
    rw [hiff]
    refine ⟨fun h => ⟨fun q hq => ?_, fun hn => absurd hp.admissible (hn p hp.mem)⟩, fun h => h.1 p hp⟩
    rw [Least.FirstLeast.unique hq hp]
    exact h

end TryRecover

/-! ### Peers that applied a prefix -/

/-- A peer that has applied the first `j` single writes of the calls. -/
def prefixPeer (L : Layout) (ws : List Call) (a : α) (j : ℕ) : Peer α :=
  ⟨a, L.region (applyAll Mem.zero ((posts (Client.fresh L) ws).take j))⟩

/-- Peers with the number of single writes each has applied. -/
def prefixPeers (L : Layout) (ws : List Call) (js : List (α × ℕ)) : List (Peer α) :=
  js.map fun aj => prefixPeer L ws aj.1 aj.2

theorem fleet_prefixPeers (L : Layout) (ws : List Call) {js : List (α × ℕ)} (h : (js.map Prod.fst).Nodup) :
    Fleet L (prefixPeers L ws js) where
  nodup := by simpa [prefixPeers, prefixPeer, Function.comp_def] using h
  size := by
    intro p hp
    obtain ⟨aj, -, rfl⟩ := List.mem_map.mp hp
    rfl

/-- A layout with eight bytes of data. -/
def tiny : Layout := ⟨16, by decide, by decide⟩

theorem tryRecover_agree_iff_tiny :
    Fleet tiny (prefixPeers tiny [.append [1], .append [2]] [(0, 4), (1, 2)]) ∧
      PeersAgree tiny ((Client.fresh tiny).tryRecover
        (prefixPeers tiny [.append [1], .append [2]] [(0, 4), (1, 2)])) := by
  have hP : Fleet tiny (prefixPeers tiny [.append [1], .append [2]] [(0, 4), (1, 2)]) :=
    fleet_prefixPeers _ _ (by decide)
  refine ⟨hP, (tryRecover_agree_iff hP).mpr ⟨fun p hp => ?_, fun hn => ?_⟩⟩
  · -- the peer that is ahead is the only eligible one
    have hmem := hp.mem
    simp only [prefixPeers, List.map_cons, List.map_nil, List.mem_cons, List.not_mem_nil, or_false] at hmem
    rcases hmem with rfl | rfl
    · unfold Covered
      decide
    · exact absurd hp.admissible (by decide)
  · exact absurd (hn (prefixPeer tiny [.append [1], .append [2]] 0 4) (by simp [prefixPeers])) (by decide)

/-- Of three appended bytes one peer has two and the other three: the
lagging peer is the source, and the third byte stays on the other one. -/
theorem tryRecover_leaves_tail : ¬ ∀ (L : Layout) (ws : List Call) (ks : List (ℕ × ℕ)),
    AllIn (Client.fresh L) ws → (ks.map Prod.fst).Nodup →
    PeersAgree L ((Client.fresh L).tryRecover (prefixPeers L ws (ks.map fun ak => (ak.1, 2 * ak.2)))) := by
  intro h
  have h := h tiny [.append [1], .append [2], .append [3]] [(0, 2), (1, 3)] (by decide) (by decide)
  unfold PeersAgree at h
  exact absurd h (by decide)

end ComputeSideLog
