/-
# What recovery can bring back

The peers of one epoch have each applied some prefix of the single RDMA
writes data₁, seq₁, data₂, seq₂, …, with the bytes as of the post. Whatever
the prefixes, a fresh client that recovers holds the image of the first `m`
calls, cut after its last non-zero byte and zero past it: recovery neither
invents nor mixes data (`restored_image`). The source's trailer `s` tells
`m` up to the write in flight and up to the wrap of the 64-bit counter
(`recovered_image`): `m` is `s + 1` or `s + 2` modulo `2^64`.

The lengths of RDMA operations are 32 bits wide, so this is about regions of
at most 4 GiB; `csl.cc` only asks for `MR_SIZE`, 100 MiB.
-/
import ComputeSideLog.Recover

namespace ComputeSideLog

variable {α : Type*}

/-- The local buffer of a fresh client after the first `m` calls. -/
def image (L : Layout) (ws : List Call) (m : ℕ) : Mem := ((Client.fresh L).run (ws.take m)).buffer.mem

/-- The client holds the image of the first `m` calls, with its trailing zero
bytes cut off and zeros past them. -/
structure HoldsImage (L : Layout) (ws : List Call) (m : ℕ) (c : Client) : Prop where
  size : c.fileSize = (image L ws m).used L.seqOffset
  data : ∀ x, x < c.fileSize → c.buffer.mem x = image L ws m x
  rest : ∀ x, c.fileSize ≤ x → x < L.seqOffset → c.buffer.mem x = 0

/-- The client agrees with the image on the whole data region. -/
theorem HoldsImage.mem_eq {L : Layout} {ws : List Call} {m : ℕ} {c : Client} (h : HoldsImage L ws m c)
    {x : ℕ} (hx : x < L.seqOffset) : c.buffer.mem x = image L ws m x := by
  by_cases hc : x < c.fileSize
  · exact h.data x hc
  · rw [h.rest x (not_lt.mp hc) hx, Mem.zero_of_used_le (image L ws m) _ x (h.size ▸ not_lt.mp hc) hx]

/-- On a region of at most 4 GiB calls in bounds are short enough. -/
theorem allShort_of_size {L : Layout} (hL : L.size ≤ 2 ^ 32) (ws : List Call) {c : Client}
    (hc : c.seqOffset = L.seqOffset) (ha : AllIn c ws) : AllShort ws := by
  induction ws generalizing c with
  | nil => simp [AllShort]
  | cons w ws ih =>
    have hb := ha.1
    have hoff := L.seqOffset_add
    have hrest := ih ((Client.call_seqOffset c w).trans hc) ha.2
    intro v hv
    rcases List.mem_cons.mp hv with rfl | hv
    · unfold Call.InBounds at hb
      simp only [seqWidth] at hoff
      omega
    · exact hrest v hv

section

variable {L : Layout} (hL : L.size ≤ 2 ^ 32) {ws : List Call} (ha : AllIn (Client.fresh L) ws)
include hL ha

/-- A peer's data region is the image of the calls whose data it applied. -/
theorem prefixPeer_data (a : α) (j : ℕ) {x : ℕ} (hx : x < L.seqOffset) :
    (prefixPeer L ws a j).buffer.mem x = image L ws ((j + 1) / 2) x :=
  prefix_data ha (allShort_of_size hL ws (Client.fresh_seqOffset L) ha) j hx

/-- **Reading from a peer restores an image.** -/
theorem restored_image (a : α) (j : ℕ) :
    HoldsImage L ws ((j + 1) / 2) (Client.restored L (prefixPeer L ws a j)) := by
  have hd := fun x => prefixPeer_data (x := x) hL ha a j
  have hs : (prefixPeer L ws a j).size = (image L ws ((j + 1) / 2)).used L.seqOffset := by
    rw [Peer.size, prefixPeer, L.findSize_region]
    exact Mem.used_congr hd
  have hle : (prefixPeer L ws a j).size ≤ L.seqOffset := hs ▸ Mem.used_le _ _
  have hoff := L.seqOffset_add
  simp only [seqWidth] at hoff
  -- the size is read through a 32-bit length
  have hmod : (prefixPeer L ws a j).size % 2 ^ 32 = (prefixPeer L ws a j).size :=
    Nat.mod_eq_of_lt (by omega)
  refine ⟨hs, fun x hx => ?_, fun x hx _ => ?_⟩
  · have hx : x < (prefixPeer L ws a j).size := hx
    rw [Client.restored_mem, hmod, if_pos hx]
    exact hd x (by omega)
  · have hx : (prefixPeer L ws a j).size ≤ x := hx
    rw [Client.restored_mem, hmod, if_neg (not_lt.mpr hx)]

/-- **Recovery never invents or mixes data.** If a peer with trailer `s` is
selected, the client that read from it holds the image of the first `m`
calls, where `m` is `s + 1` or `s + 2` modulo `2^64`, and exactly one of the
two in an epoch of at most `2^64` calls. -/
theorem recovered_image {js : List (α × ℕ)} (hn : (js.map Prod.fst).Nodup) {p : Peer α}
    (hp : p ∈ prefixPeers L ws js) (hsel : (getRecoverSrcPeer (prefixPeers L ws js)).1 = some p.addr) :
    ∃ m, (m % 2 ^ 64 = (p.seq + 1) % 2 ^ 64 ∨ m % 2 ^ 64 = (p.seq + 2) % 2 ^ 64) ∧
      (ws.length ≤ 2 ^ 64 → m = p.seq + 1 ∨ m = p.seq + 2) ∧ m ≤ ws.length ∧
      HoldsImage L ws m ((Client.fresh L).recoverFromSrc p (getRecoverSrcPeer (prefixPeers L ws js)).2) := by
  have hsrc := isSrc_of_selected (fleet_prefixPeers L ws hn) hp hsel
  rw [hsrc.getRecoverSrcPeer_eq]
  have hne := hsrc.admissible.1
  obtain ⟨⟨a, j⟩, -, rfl⟩ := List.mem_map.mp hp
  have hseq : (prefixPeer L ws a j).seq = _ := prefix_seq ha j
  have h0 : min (j / 2) ws.length ≠ 0 := by
    intro h0
    rw [if_pos h0] at hseq
    exact hne hseq
  rw [if_neg h0] at hseq
  have himg := restored_image hL ha a j
  have hcut : HoldsImage L ws (min ((j + 1) / 2) ws.length) (Client.restored L (prefixPeer L ws a j)) := by
    have hi : image L ws (min ((j + 1) / 2) ws.length) = image L ws ((j + 1) / 2) := by
      rw [image, image, ← List.take_take, List.take_of_length_le le_rfl]
    exact ⟨hi ▸ himg.size, hi ▸ himg.data, himg.rest⟩
  refine ⟨min ((j + 1) / 2) ws.length, ?_, fun hw => ?_, min_le_right _ _, hcut⟩
  · show _ ∨ _
    rw [hseq]
    omega
  · show _ ∨ _
    rw [hseq]
    omega

end

theorem recovered_image_tiny :
    tiny.size ≤ 2 ^ 32 ∧ ∃ m, (m = 2 ∨ m = 3) ∧ HoldsImage tiny [.append [1], .append [2], .append [3]] m
      ((Client.fresh tiny).recoverFromSrc
        (prefixPeer tiny [.append [1], .append [2], .append [3]] 0 5) 3) := by
  refine ⟨by decide, ?_⟩
  obtain ⟨m, -, hm, -, himg⟩ := recovered_image (L := tiny) (by decide)
    (show AllIn _ [.append [1], .append [2], .append [3]] by decide)
    (show (([(0, 5), (1, 6)] : List (ℕ × ℕ)).map Prod.fst).Nodup by decide)
    (p := prefixPeer tiny [.append [1], .append [2], .append [3]] 0 5) (by simp [prefixPeers]) (by decide)
  exact ⟨m, hm (by decide), himg⟩

/-! ### Where the exact count fails

Two calls are enough on a region of more than 4 GiB, because the data's
length wraps at `2^32`; on a small region it takes more than `2^64` calls,
because the sequence number wraps. -/

/-- The trailer tells the number of calls exactly. -/
def ExactCount (L : Layout) (ws : List Call) : Prop :=
  ∀ (js : List (ℕ × ℕ)) (p : Peer ℕ), AllIn (Client.fresh L) ws → (js.map Prod.fst).Nodup →
    p ∈ prefixPeers L ws js → (getRecoverSrcPeer (prefixPeers L ws js)).1 = some p.addr →
    ∃ m, (m = p.seq + 1 ∨ m = p.seq + 2) ∧
      HoldsImage L ws m ((Client.fresh L).recoverFromSrc p (getRecoverSrcPeer (prefixPeers L ws js)).2)

/-- A single peer with trailer 1 is the source. -/
theorem exactCount_single {L : Layout} {ws : List Call} (h : ExactCount L ws)
    (ha : AllIn (Client.fresh L) ws) (hseq : (prefixPeer L ws 0 (2 * ws.length)).seq = 1) :
    ∃ m, (m = 2 ∨ m = 3) ∧ HoldsImage L ws m (Client.restored L (prefixPeer L ws 0 (2 * ws.length))) := by
  set p := prefixPeer L ws 0 (2 * ws.length) with hpdef
  have hsrc : IsSrc [p] p := by
    refine ⟨[], [], rfl, ⟨?_, ?_⟩, by simp, by simp⟩
    · rw [hseq]; decide
    · rw [hseq]; decide
  have hg := hsrc.getRecoverSrcPeer_eq
  have hps : prefixPeers L ws [(0, 2 * ws.length)] = [p] := rfl
  obtain ⟨m, hm, himg⟩ := h [(0, 2 * ws.length)] p ha (by simp) (by simp [hps]) (by rw [hps, hg])
  rw [hseq] at hm
  rw [hps, hg] at himg
  exact ⟨m, hm, himg⟩

theorem not_exactCount_wrap {ws : List Call} (ha : AllIn (Client.fresh tiny) ws)
    (hlen : ws.length = 2 ^ 64 + 2) (hall : image tiny ws ws.length 1 ≠ 0) (h2 : image tiny ws 2 1 = 0)
    (h3 : image tiny ws 3 1 = 0) : ¬ ExactCount tiny ws := by
  intro h
  have hseq : (prefixPeer tiny ws 0 (2 * ws.length)).seq = 1 := by
    refine (prefix_seq ha (2 * ws.length)).trans ?_
    rw [Nat.mul_div_cancel_left _ (by norm_num : 0 < 2), min_self, hlen]
    norm_num
  obtain ⟨m, hm, himg⟩ := exactCount_single h ha hseq
  have hfull := restored_image (by decide) ha 0 (2 * ws.length)
  rw [show (2 * ws.length + 1) / 2 = ws.length by omega] at hfull
  have heq : image tiny ws ws.length 1 = image tiny ws m 1 :=
    (hfull.mem_eq (by decide)).symm.trans (himg.mem_eq (by decide))
  rcases hm with rfl | rfl
  · exact hall (heq.trans h2)
  · exact hall (heq.trans h3)

/-- The byte at 0 written `n` times, then one byte after it. -/
def rewriting (n : ℕ) : List Call := List.replicate n (.writePos [1] 0) ++ [.writePos [2] 1]

section Rewriting

variable (n : ℕ)

theorem rewriting_length : (rewriting n).length = n + 1 := by
  rw [rewriting, List.length_append, List.length_replicate]
  rfl

theorem rewriting_allIn : AllIn (Client.fresh tiny) (rewriting n) := by
  refine allIn_writePos _ _ fun w hw => ?_
  rcases List.mem_append.mp hw with hw | hw
  · exact ⟨[1], 0, List.eq_of_mem_replicate hw, by decide⟩
  · exact ⟨[2], 1, List.mem_singleton.mp hw, by decide⟩

theorem rewriting_image_short {m : ℕ} (hm : m ≤ n) : image tiny (rewriting n) m 1 = 0 := by
  have htake : (rewriting n).take m = List.replicate m (.writePos [1] 0) := by
    rw [rewriting, List.take_append_of_le_length (by rwa [List.length_replicate]), List.take_replicate,
      min_eq_left hm]
  rw [image, htake]
  refine Client.run_mem_off _ _ fun w hw c hc hwr => ?_
  rw [List.eq_of_mem_replicate hw] at hwr
  have hsz : (Call.writePos [1] 0).size c ≤ 1 := min_le_left _ _
  rcases hwr with hwr | hwr
  · exact absurd hwr.2 (by simp only [Call.off]; omega)
  · rw [hc] at hwr
    exact absurd hwr.1 (by decide)

theorem rewriting_image_all : image tiny (rewriting n) (rewriting n).length 1 ≠ 0 := by
  rw [image, List.take_length, rewriting, Client.run_concat]
  set c := (Client.fresh tiny).run (List.replicate n (.writePos [1] 0)) with hcdef
  have hc : c.Wf := (Client.fresh_wf tiny).run _
  have hoff : c.seqOffset = 8 := by rw [hcdef, Client.run_seqOffset]; rfl
  have hb : (Call.writePos [2] 1).InBounds c := by
    unfold Call.InBounds
    rw [hoff]
    show 1 + 1 ≤ 8
    omega
  have hsz : (Call.writePos [2] 1).size c = 1 := Client.size_of_inBounds hc hb
  have hdata := Client.call_mem_data hc (w := .writePos [2] 1) (i := 0)
    (by rw [hsz, hoff]; show 1 + 1 ≤ 8; omega) (by omega)
  simp only [Call.off, Nat.add_zero] at hdata
  rw [hdata]
  decide

end Rewriting

/-- A region of a little more than 4 GiB. -/
def huge : Layout := ⟨2 ^ 32 + 16, by decide, by decide⟩

/-- A call that writes `n` bytes from the start. -/
def filling (n : ℕ) : Call := .writePos (List.replicate n 1) 0

section Filling

variable {n : ℕ} (hn : n = 2 ^ 32 + 1) {c : Client} (hc : c.seqOffset = huge.seqOffset)
include hn hc

theorem filling_inBounds : (filling n).InBounds c := by
  have hoff : huge.seqOffset = 2 ^ 32 + 8 := by decide
  unfold Call.InBounds
  rw [hc, hoff]
  simp only [filling, Call.off, Call.buf, List.length_replicate]
  omega

theorem filling_size (hw : c.Wf) : (filling n).size c = n := by
  rw [Client.size_of_inBounds hw (filling_inBounds hn hc)]
  exact List.length_replicate

/-- Of `2^32 + 1` bytes one is posted. -/
theorem filling_pair (hw : c.Wf) {m : Mem} {x : ℕ} (h1 : 1 ≤ x) (hx : x < huge.seqOffset) (hm : m x = 0) :
    applyAll m ((c.call (filling n)).writeTwoPlace ((filling n).off c) ((filling n).size c)) x = 0 := by
  have hlen : n % 2 ^ 32 = 1 := by omega
  have hoff : (filling n).off c = 0 := rfl
  rw [applyAll_writeTwoPlace, Client.call_seqOffset, filling_size hn hc hw, hc, hlen, hoff]
  rw [Mem.copy_out (by omega), Mem.copy_out (by omega), hm]

theorem filling_image (hw : c.Wf) : (c.call (filling n)).buffer.mem 1 ≠ 0 := by
  have hsz := filling_size hn hc hw
  have hoff : huge.seqOffset = 2 ^ 32 + 8 := by decide
  have hdata := Client.call_mem_data hw (w := filling n) (i := 1)
    (by rw [hsz, hc, hoff]; simp only [filling, Call.off]; omega) (by omega)
  have hbyte : (filling n).buf.getD 1 0 = 1 := by
    simp only [filling, Call.buf]
    rw [List.getD_eq_getElem?_getD, List.getElem?_replicate, if_pos (by omega), Option.getD_some]
  simp only [filling, Call.off, Nat.zero_add] at hdata hbyte ⊢
  rw [hdata, hbyte]
  decide

end Filling

theorem not_exactCount_long {n : ℕ} (hn : n = 2 ^ 32 + 1) : ¬ ExactCount huge [filling n, filling n] := by
  have hw := Client.fresh_wf huge
  have hoff := Client.fresh_seqOffset huge
  have hoff' : ((Client.fresh huge).call (filling n)).seqOffset = huge.seqOffset := by
    rw [Client.call_seqOffset, hoff]
  have ha : AllIn (Client.fresh huge) [filling n, filling n] :=
    ⟨filling_inBounds hn hoff, filling_inBounds hn hoff', trivial⟩
  intro h
  obtain ⟨m, hm, himg⟩ := exactCount_single h ha ((prefix_seq ha _).trans (by norm_num))
  -- the peer holds nothing at position 1, the client wrote there
  have hpeer : (prefixPeer huge [filling n, filling n] 0 4).buffer.mem 1 = 0 := by
    rw [prefixPeer, Layout.region_mem, List.take_of_length_le (by rw [posts_length]; rfl), posts, posts,
      posts, List.append_nil, applyAll_append]
    exact filling_pair hn hoff' (hw.call _) le_rfl (by decide) (filling_pair hn hoff hw le_rfl (by decide) rfl)
  have hzero : (Client.restored huge (prefixPeer huge [filling n, filling n] 0 4)).buffer.mem 1 = 0 := by
    rw [Client.restored_mem, hpeer, ite_self]
  have hall : [filling n, filling n].take m = [filling n, filling n] :=
    List.take_of_length_le (by rcases hm with rfl | rfl <;> simp)
  have hone := himg.mem_eq (x := 1) (by decide)
  rw [image, hall, Client.run_cons, Client.run_cons, Client.run_nil] at hone
  exact filling_image hn hoff' (hw.call _) (hone.symm.trans hzero)

/-- The exact count fails after a wrap of the sequence number, and on a region
where a call's length does not fit 32 bits. -/
theorem exactCount_fails : ¬ ExactCount tiny (rewriting (2 ^ 64 + 1)) ∧
    ¬ ExactCount huge [filling (2 ^ 32 + 1), filling (2 ^ 32 + 1)] := by
  refine ⟨?_, not_exactCount_long rfl⟩
  refine not_exactCount_wrap (rewriting_allIn _) (rewriting_length _) (rewriting_image_all _) ?_ ?_
  · exact rewriting_image_short _ (by omega)
  · exact rewriting_image_short _ (by omega)

end ComputeSideLog
