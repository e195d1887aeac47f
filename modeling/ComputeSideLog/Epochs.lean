/-
# Recovery over any number of crash epochs

Each epoch starts with a new client, which recovers from the peers, makes
any number of calls whose writes all reach every peer, and crashes. The
first client finds no node of its own in ZooKeeper and does not recover.

What is carried from epoch to epoch is `Settled`: all peers hold the
client's data region, and some peer has an eligible trailer. It survives an
epoch exactly when the trailer the epoch leaves is eligible again, and the
trailer is one less than the number of calls: after a single call it is 0,
which `getRecoverSrcPeer` takes for a peer without the file, and the next
client starts empty. `roundTrips_iff` is the exact condition.

Key definitions: `Epochs.start`, `Epochs.crash`, `Epochs.RoundTrips`,
`Epochs.Recoverable`.
Key theorem: `Epochs.roundTrips_iff`.
-/
import ComputeSideLog.Recover

namespace ComputeSideLog
namespace Epochs

variable {α : Type*}

/-- A client and its peers when the client crashes after the calls: all RDMA
writes are applied. -/
def crash (r : Client × List (Peer α)) (ws : List Call) : Client × List (Peer α) :=
  (r.1.run ws, r.2.map fun p => p.apply (posts r.1 ws))

/-! ### What an epoch starts from -/

/-- All peers hold the client's data region, and after the first epoch one of
them can be a source. -/
structure Settled (L : Layout) (first : Prop) (r : Client × List (Peer α)) : Prop where
  fleet : Fleet L r.2
  nonempty : r.2 ≠ []
  wf : r.1.Wf
  off : r.1.seqOffset = L.seqOffset
  seq : r.1.seq = 0
  tidy : r.1.Tidy
  agree : PeersAgree L r
  source : ¬ first → ∃ p ∈ r.2, p.Eligible

variable {L : Layout} {first : Prop} {r : Client × List (Peer α)}

/-! ### The crash -/

section Crash

variable (h : Settled L first r) {ws : List Call} (ha : AllIn r.1 ws) (hs : AllShort ws)
include h

theorem fleet_crash : Fleet L (crash r ws).2 where
  nodup := by simpa [crash, Function.comp_def] using h.fleet.nodup
  size := by
    intro q hq
    obtain ⟨p, hp, rfl⟩ := List.mem_map.mp hq
    exact h.fleet.size p hp

include ha hs

/-- The peers hold the data region of the client that crashed. -/
theorem crash_agree : PeersAgree L (crash r ws) := by
  intro q hq x hx
  obtain ⟨p, hp, rfl⟩ := List.mem_map.mp hq
  exact applyAll_posts ws h.wf ha hs (h.agree p hp x hx)

/-- A peer's size is the size of the file, if the file does not end in zeros. -/
theorem crash_size (hlast : (crash r ws).1.buffer.mem ((crash r ws).1.fileSize - 1) ≠ 0)
    {q : Peer α} (hq : q ∈ (crash r ws).2) : q.size = (crash r ws).1.fileSize := by
  have htidy : (crash r ws).1.Tidy := Client.tidy_run ws r.1 h.wf h.tidy ha
  have hoff : (crash r ws).1.seqOffset = L.seqOffset := (Client.run_seqOffset ws r.1).trans h.off
  have hle : (crash r ws).1.fileSize ≤ L.seqOffset := hoff ▸ htidy.size_le
  rw [(fleet_crash h).size_eq hq, Mem.used_congr (crash_agree h ha hs q hq)]
  exact Mem.used_eq_of_last hle (fun x h1 h2 => htidy.clean x h1 (hoff.symm ▸ h2)) (.inr hlast)

omit ha hs in
/-- After at least one call every trailer is one less than the number of calls. -/
theorem crash_seq (hne : ws ≠ []) {q : Peer α} (hq : q ∈ (crash r ws).2) :
    q.seq = (ws.length - 1) % 2 ^ 64 := by
  obtain ⟨p, hp, rfl⟩ := List.mem_map.mp hq
  have hoff := h.off
  have hread : (p.apply (posts r.1 ws)).seq =
      (applyAll p.buffer.mem (posts r.1 ws)).getLE L.seqOffset seqWidth := by
    rw [Peer.seq, readSeqNum, Peer.apply_size, h.fleet.size p hp]
    rfl
  rw [hread, Mem.getLE_congr fun x h1 h2 =>
    applyAll_posts_trailer ws (by rw [hoff]; exact ⟨h1, h2⟩) (.inr hne), ← hoff,
    run_trailer_of h.wf (by rw [h.seq]; norm_num) hne, h.seq, Nat.zero_add]

omit ha hs in
/-- Some peer can be a source after the crash if and only if the trailer the
epoch leaves is eligible. -/
theorem crash_source (hfirst : first → ws ≠ []) :
    (∃ q ∈ (crash r ws).2, q.Eligible) ↔ (ws = [] ∨ 2 ≤ ws.length % 2 ^ 64) := by
  by_cases hne : ws = []
  · subst hne
    have hsame : (crash r []).2 = r.2 := (List.map_congr_left fun _ _ => rfl).trans (List.map_id _)
    rw [hsame]
    exact iff_of_true (h.source fun hf => hfirst hf rfl) (.inl rfl)
  · have hel : ∀ q ∈ (crash r ws).2, q.Eligible ↔ 2 ≤ ws.length % 2 ^ 64 := by
      intro q hq
      have hpos := List.length_pos_of_ne_nil hne
      rw [Peer.Eligible, crash_seq h hne hq, seqMax]
      omega
    obtain ⟨p, hp⟩ := List.exists_mem_of_ne_nil r.2 h.nonempty
    have hq : p.apply (posts r.1 ws) ∈ (crash r ws).2 := List.mem_map.mpr ⟨p, hp, rfl⟩
    constructor
    · rintro ⟨q, hq, hqel⟩
      exact .inr ((hel q hq).mp hqel)
    · rintro (h0 | h2)
      · exact absurd h0 hne
      · exact ⟨_, hq, (hel _ hq).mpr h2⟩

end Crash

/-! ### The recovery after it -/

variable [DecidableEq α]

section Recovery

variable (h : Settled L first r) {ws : List Call} (ha : AllIn r.1 ws) (hs : AllShort ws)
  (hfirst : first → ws ≠ [])
  (hlast : (crash r ws).1.buffer.mem ((crash r ws).1.fileSize - 1) ≠ 0)
include h ha hs hfirst hlast

/-- The round trip of one epoch holds exactly when it leaves a file shorter
than 4 GiB and an eligible trailer. -/
theorem sameFile_iff (hpos : 0 < (crash r ws).1.fileSize) :
    SameFile ((Client.fresh L).tryRecover (crash r ws).2).1 (crash r ws).1 ↔
      (crash r ws).1.fileSize < 2 ^ 32 ∧ (ws = [] ∨ 2 ≤ ws.length % 2 ^ 64) := by
  have hP : Fleet L (crash r ws).2 := fleet_crash h
  rw [← crash_source h hfirst]
  simp only [Client.tryRecover]
  rcases getRecoverSrcPeer_cases (crash r ws).2 with ⟨hn, -⟩ | ⟨p, hp, -⟩
  · rw [recovered_of_none hn]
    refine iff_of_false (fun hsame => ?_) ?_
    · exact absurd hsame.1 (Nat.ne_of_lt hpos)
    · rintro ⟨-, q, hq, hel⟩
      exact hn q hq hel
  · have hsize := crash_size h ha hs hlast hp.mem
    have hle : (crash r ws).1.fileSize ≤ L.seqOffset := hsize ▸ hP.size_le hp.mem
    rw [recovered_of_src hP hp]
    constructor
    · intro hsame
      refine ⟨?_, p, hp.mem, hp.admissible⟩
      by_contra hbig
      -- the last byte is past what a 32-bit length reads
      have hmod := Nat.mod_lt p.size (show 0 < 2 ^ 32 by norm_num)
      have hb := hsame.2 ((crash r ws).1.fileSize - 1) (by rw [hsame.1]; omega)
      rw [Client.restored_mem, if_neg (by omega)] at hb
      exact hlast hb.symm
    · rintro ⟨hlt, -⟩
      refine ⟨hsize, fun x hx => ?_⟩
      have hx : x < p.size := hx
      rw [Client.restored_mem, hsize, Nat.mod_eq_of_lt hlt, if_pos (hsize ▸ hx)]
      exact crash_agree h ha hs p hp.mem x (by omega)

/-- A round trip leaves what the next epoch starts from. -/
theorem settled_recovered (hlt : (crash r ws).1.fileSize < 2 ^ 32)
    (hcalls : ws = [] ∨ 2 ≤ ws.length % 2 ^ 64) :
    Settled L False ((Client.fresh L).tryRecover (crash r ws).2) := by
  have hP : Fleet L (crash r ws).2 := fleet_crash h
  obtain ⟨q, hq, hel⟩ := (crash_source h hfirst).mpr hcalls
  obtain ⟨p, hp⟩ : ∃ p, IsSrc (crash r ws).2 p := by
    rcases getRecoverSrcPeer_cases (crash r ws).2 with ⟨hn, -⟩ | ⟨p, hp, -⟩
    · exact absurd hel (hn q hq)
    · exact ⟨p, hp⟩
  have hsize := fun q hq => crash_size (q := q) h ha hs hlast hq
  have hrec := recovered_of_src hP hp
  have hsrc : p ∈ ((Client.fresh L).tryRecover (crash r ws).2).2 := by
    simp only [Client.tryRecover, Client.syncPeers, hp.getRecoverSrcPeer_eq]
    exact List.mem_map.mpr ⟨p, hp.mem, if_pos rfl⟩
  have hsync : Fleet L ((Client.fresh L).tryRecover (crash r ws).2).2 := by
    simp only [Client.tryRecover]
    exact fleet_syncPeers hP _ _ _
  refine ⟨hsync, List.ne_nil_of_mem hsrc, ?_, ?_, ?_, ?_, ?_, fun _ => ⟨p, hsrc, hp.admissible⟩⟩
  · simp only [Client.tryRecover, hrec]
    exact ⟨rfl, (Client.fresh_wf L).room⟩
  · simp only [Client.tryRecover, hrec]
    exact Client.fresh_seqOffset L
  · simp only [Client.tryRecover, hrec]
    rfl
  · simp only [Client.tryRecover, hrec]
    have hoff : (Client.restored L p).seqOffset = L.seqOffset := Client.fresh_seqOffset L
    refine ⟨hoff ▸ hP.size_le hp.mem, fun x hx _ => ?_⟩
    have hx : p.size ≤ x := hx
    have hmod := Nat.mod_le p.size (2 ^ 32)
    rw [Client.restored_mem, if_neg (by omega)]
  · -- the write-back covers every peer: they all have the same size
    refine (tryRecover_agree_iff hP).mpr ⟨fun p' hp' q hq => ?_, fun hn => absurd hel (hn q hq)⟩
    rw [hsize q hq, hsize p' hp'.mem, Nat.mod_eq_of_lt hlt]

end Recovery

/-! ### Any number of epochs -/

/-- A new client and its peers after the epochs, the latest first. -/
def start (L : Layout) (addrs : List α) : List (List Call) → Client × List (Peer α)
  | [] => (Client.fresh L, addrs.map fun a => ⟨a, L.region Mem.zero⟩)
  | ws :: es => (Client.fresh L).tryRecover (crash (start L addrs es) ws).2

/-- Every recovery brings back the file of the client that crashed. -/
def RoundTrips (L : Layout) (addrs : List α) : List (List Call) → Prop
  | [] => True
  | ws :: es => RoundTrips L addrs es ∧
      SameFile (start L addrs (ws :: es)).1 (crash (start L addrs es) ws).1

/-- What the epochs have to be: calls in bounds whose length fits a 32-bit
size, at least one in the first epoch, and a file whose last byte is not zero. -/
def Valid (L : Layout) (addrs : List α) : List (List Call) → Prop
  | [] => True
  | ws :: es => Valid L addrs es ∧ AllIn (start L addrs es).1 ws ∧ AllShort ws ∧ (es = [] → ws ≠ []) ∧
      0 < (crash (start L addrs es) ws).1.fileSize ∧
      (crash (start L addrs es) ws).1.buffer.mem ((crash (start L addrs es) ws).1.fileSize - 1) ≠ 0

/-- Every epoch leaves a file shorter than 4 GiB, and makes no call or a
number of calls that is neither 0 nor 1 modulo `2^64`. -/
def Recoverable (L : Layout) (addrs : List α) : List (List Call) → Prop
  | [] => True
  | ws :: es => Recoverable L addrs es ∧ (crash (start L addrs es) ws).1.fileSize < 2 ^ 32 ∧
      (ws = [] ∨ 2 ≤ ws.length % 2 ^ 64)

variable {addrs : List α}

theorem settled_start (hn : addrs.Nodup) (hne : addrs ≠ []) : Settled L True (start L addrs []) where
  fleet := by
    refine ⟨?_, fun p hp => ?_⟩
    · simpa [start, Function.comp_def] using hn
    · obtain ⟨a, -, rfl⟩ := List.mem_map.mp hp
      rfl
  nonempty := by simpa [start] using hne
  wf := Client.fresh_wf L
  off := Client.fresh_seqOffset L
  seq := rfl
  tidy := Client.fresh_tidy L
  agree := by
    intro q hq x _
    obtain ⟨a, -, rfl⟩ := List.mem_map.mp hq
    rfl
  source h := absurd trivial h

/-- As long as every epoch is recoverable, each starts settled. -/
theorem settled_of_recoverable (hn : addrs.Nodup) (hne : addrs ≠ []) : ∀ {es : List (List Call)},
    Valid L addrs es → Recoverable L addrs es → Settled L (es = []) (start L addrs es) := by
  intro es
  induction es with
  | nil =>
    intro _ _
    simpa using settled_start hn hne
  | cons ws es ih =>
    intro hv hr
    obtain ⟨hv, ha, hs, hfirst, -, hlast⟩ := hv
    obtain ⟨hr, hlt, hcalls⟩ := hr
    have h := ih hv hr
    simpa [start] using settled_recovered h ha hs hfirst hlast hlt hcalls

/-- **Recovery round trip over any number of epochs.** Every new client finds
the file of the one that crashed before it if and only if every epoch left
a file shorter than 4 GiB and made no call at all or a number of calls that
is neither 0 nor 1 modulo `2^64`. -/
theorem roundTrips_iff (hn : addrs.Nodup) (hne : addrs ≠ []) : ∀ {es : List (List Call)},
    Valid L addrs es → (RoundTrips L addrs es ↔ Recoverable L addrs es) := by
  intro es
  induction es with
  | nil => exact fun _ => Iff.rfl
  | cons ws es ih =>
    intro hv
    obtain ⟨hv, ha, hs, hfirst, hpos, hlast⟩ := hv
    have ih := ih hv
    have hstep : Recoverable L addrs es →
        (SameFile (start L addrs (ws :: es)).1 (crash (start L addrs es) ws).1 ↔
          (crash (start L addrs es) ws).1.fileSize < 2 ^ 32 ∧ (ws = [] ∨ 2 ≤ ws.length % 2 ^ 64)) :=
      fun hr => sameFile_iff (settled_of_recoverable hn hne hv hr) ha hs hfirst hlast hpos
    constructor
    · rintro ⟨h1, h2⟩
      have hr := ih.mp h1
      exact ⟨hr, (hstep hr).mp h2⟩
    · rintro ⟨hr, h2⟩
      exact ⟨ih.mpr hr, (hstep hr).mpr h2⟩

theorem roundTrips_iff_tiny :
    Valid tiny [0, 1] [[], [.append [3], .append [4]], [.append [1], .append [2]]] ∧
      RoundTrips tiny [0, 1] [[], [.append [3], .append [4]], [.append [1], .append [2]]] := by
  have hv : Valid tiny [0, 1] [[], [.append [3], .append [4]], [.append [1], .append [2]]] := by
    unfold Valid Valid Valid Valid
    decide
  refine ⟨hv, (roundTrips_iff (by decide) (by decide) hv).mpr ?_⟩
  unfold Recoverable Recoverable Recoverable Recoverable
  decide

/-- A single call leaves trailer 0 on every peer, and the next client starts
without the file. -/
theorem single_call_lost : ¬ ∀ (L : Layout) (addrs : List ℕ) (es : List (List Call)), addrs.Nodup →
    addrs ≠ [] → Valid L addrs es → RoundTrips L addrs es := by
  intro h
  have hv : Valid tiny [0] [[.append [1]]] := by
    unfold Valid Valid
    decide
  have h := (h tiny [0] [[.append [1]]] (by decide) (by decide) hv).2
  exact absurd h.1 (by decide)

end Epochs
end ComputeSideLog
