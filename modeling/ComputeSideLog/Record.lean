/-
# The membership record

All clients of a host share one node in ZooKeeper, named by the host's
address (`getZkNodeName` in `src/rdma/client.h`). A client that finds no
node takes its peers from the servers and creates it
(`createClientZKNode`); one that finds it connects to the peers it names, as
far as they fit a buffer of 512 bytes (`getPeersFromZK`); and a client that
has replaced a lost peer overwrites it with its own peers
(`updateClientZKNode`). A recovery contacts the peers in the record, so
every peer of every live client should be there.

A peer that is added when a server joins is not recorded, and a client that
overwrites the record drops the peers that only others have. Apart from that
and from a record cut at 512 bytes, the record covers the clients
(`Recorded`). Every call to ZooKeeper is taken to succeed.

Key definitions: `Record.State`, `Record.step`, `Record.Covers`,
`Record.Recorded`.
Key theorems: `Record.covers_step_iff`, `Record.record_covers`.
-/
import ComputeSideLog.Lib.Trace
import ComputeSideLog.IpString
import ComputeSideLog.Watcher

namespace ComputeSideLog
namespace Record

/-- The value of the host's node, if it exists, and the live clients. -/
structure State where
  record : Option Name
  clients : List (Member Name)

/-- The construction of a client, a callback of client `i`, the application's
use of it, and its end; `children` is what `zoo_get_children` lists. -/
inductive Event where
  | construct (rep : ℕ) (children : List Name)
  | callback (i : ℕ) (children : List Name) (n : Notice Name)
  | setInUse (i : ℕ) (b : Bool)
  | destroy (i : ℕ)
  deriving DecidableEq

/-- The length of `peers_buf`. -/
def bufLen : ℕ := 512

/-- `getPeersFromZK`: the peers, `rep_factor` after it, and the number of peers
the record named; `none` if `parseIpString` throws. -/
def getPeersFromZK (record : Option Name) (rep : ℕ) (children : List Name) : Option (Finset Name × ℕ × ℕ) :=
  match record with
  | none =>
    if children = [] then some (∅, rep, 0)
    else
      let rep := if children.length < rep then children.length else rep
      some ((children.take rep).toFinset, rep, 0)
  | some v => (parseIpString (v.take bufLen)).map fun (_, cnt, ps) => (ps, rep, cnt)

/-- `createClientZKNode`: an existing node stays as it is. -/
def createClientZKNode (record : Option Name) (peers : Finset Name) : Option Name :=
  record <|> some (generateIpString peers 0)

/-- What a call of a callback does to the record. -/
def act (record : Option Name) : Act Name → Option Name
  | .updateClientZKNode peers => record.map fun _ => generateIpString peers 0
  | _ => record

/-- ZooKeeper's answers when every call succeeds. -/
def answers (children : List Name) : Answers Name := ⟨some children, true⟩

/-- One event. The names of servers are addresses. -/
def step (s : State) : Event → Option State
  | .construct rep children =>
    if ∀ a ∈ children, ValidName a then
      (getPeersFromZK s.record rep children).map fun (peers, rep, n) =>
        { record := if n = 0 then createClientZKNode s.record peers else s.record
          clients := s.clients ++ [Member.construct (inOrder peers) rep fun _ => true] }
    else none
  | .callback i children n =>
    if ∀ a ∈ children, ValidName a then
      s.clients[i]?.map fun m =>
        { record := (m.clientWatcher (answers children) n).2.foldl act s.record
          clients := s.clients.set i (m.clientWatcher (answers children) n).1 }
    else none
  | .setInUse i b => s.clients[i]?.map fun m => { s with clients := s.clients.set i { m with inUse := b } }
  | .destroy i => if i < s.clients.length then some { s with clients := s.clients.eraseIdx i } else none

/-- No node and no client. -/
def init : State := ⟨none, []⟩

/-- The set that parsing a value yields. -/
def named (v : Name) : Finset Name := (parseIpString v).elim ∅ fun r => r.2.2

/-- The set that parsing the record yields. -/
def State.named (s : State) : Finset Name := s.record.elim ∅ Record.named

/-- The record names every peer of every live client. -/
def Covers (s : State) : Prop := ∀ m ∈ s.clients, m.peers ⊆ s.named

/-- A client is constructed from a record whose first 512 bytes name peers of
the record only; a join adds a peer that the record names; and a client that
replaces a peer and overwrites the record has the peers of all others. -/
def Recorded (s : State) : Event → Prop
  | .construct _ _ => ∀ v ∈ s.record, named (v.take bufLen) ⊆ named v
  | .callback i children (.deleted peer) => ∀ m ∈ s.clients[i]?, peer ∈ m.props →
      ∀ a ∈ Member.finds (answers children) (m.peers.erase peer), ∀ m' ∈ s.clients.eraseIdx i,
        m'.peers ⊆ insert a (m.peers.erase peer)
  | .callback i children .child => ∀ m ∈ s.clients[i]?, ∀ a ∈ Member.finds (answers children) m.peers,
      a ∈ s.named
  | _ => True

instance (s : State) : ∀ ev, Decidable (Recorded s ev)
  | .construct _ _ => inferInstanceAs (Decidable (∀ v ∈ s.record, named (v.take bufLen) ⊆ named v))
  | .callback i children (.deleted peer) => inferInstanceAs (Decidable (∀ m ∈ s.clients[i]?, peer ∈ m.props →
      ∀ a ∈ Member.finds (answers children) (m.peers.erase peer), ∀ m' ∈ s.clients.eraseIdx i,
        m'.peers ⊆ insert a (m.peers.erase peer)))
  | .callback i children .child => inferInstanceAs (Decidable (∀ m ∈ s.clients[i]?,
      ∀ a ∈ Member.finds (answers children) m.peers, a ∈ s.named))
  | .callback _ _ (.created _) | .setInUse _ _ | .destroy _ => instDecidableTrue

/-! ### The value of the node -/

theorem named_generate {ps : Finset Name} (hv : ∀ a ∈ ps, ValidName a) : named (generateIpString ps 0) = ps := by
  unfold named
  rw [parseIpString_generateIpString hv]
  rfl

/-- A value without a slash is always read. -/
theorem parse_of_noSlash {v : Name} (h : '/' ∉ v) : ∃ cnt, parseIpString v = some (0, cnt, named v) := by
  by_cases hv : v = []
  · subst hv
    exact ⟨0, rfl⟩
  · have hr := parseIpString_of_noSlash hv h
    refine ⟨(parsePeers v).1, ?_⟩
    unfold named
    rw [hr]
    rfl

/-- What a property of all elements asks after one of them is replaced. -/
theorem forall_mem_set {β : Type*} {P : β → Prop} {b : β} : ∀ {l : List β} {i : ℕ}, i < l.length →
    ((∀ x ∈ l.set i b, P x) ↔ P b ∧ ∀ x ∈ l.eraseIdx i, P x)
  | [], _, h => absurd h (Nat.not_lt_zero _)
  | x :: l, 0, _ => by simp
  | x :: l, i + 1, h => by
    have hi : i < l.length := by simpa using h
    simp only [List.set_cons_succ, List.eraseIdx_cons_succ, List.forall_mem_cons, forall_mem_set hi]
    tauto

/-- The invariant beside `Covers`: clients have addresses as peers, and the
record is the string of a set of addresses. -/
structure Inv (s : State) : Prop where
  ok : ∀ m ∈ s.clients, m.Ok
  valid : ∀ m ∈ s.clients, ∀ a ∈ m.peers, ValidName a
  node : s.clients ≠ [] → s.record.isSome
  value : ∀ v ∈ s.record, ∃ ps : Finset Name, (∀ a ∈ ps, ValidName a) ∧ v = generateIpString ps 0

theorem inv_init : Inv init where
  ok := by simp [init]
  valid := by simp [init]
  node := by simp [init]
  value := by simp [init]

/-! ### Construction -/

theorem construct_peers (peers : Finset Name) (rep : ℕ) :
    (Member.construct (inOrder peers) rep fun _ => true).peers = peers := by
  rw [Member.construct_eq, inOrder_eq_sort]
  exact Finset.sort_toFinset _ _

section

variable {s t : State}

/-- What a construction can do: the first client of the host creates the node,
and a later one reads it. -/
theorem construct_cases (hI : Inv s) {rep : ℕ} {children : List Name}
    (hs : step s (.construct rep children) = some t) :
    (s = init ∧ ∃ (ps : Finset Name) (r : ℕ), (∀ a ∈ ps, ValidName a) ∧
      t = ⟨some (generateIpString ps 0), [Member.construct (inOrder ps) r fun _ => true]⟩) ∨
    ∃ v, s.record = some v ∧ t = ⟨some v,
      s.clients ++ [Member.construct (inOrder (named (v.take bufLen))) rep fun _ => true]⟩ := by
  simp only [step, Option.ite_none_right_eq_some, Option.map_eq_some_iff] at hs
  obtain ⟨hvalid, ⟨ps, r, n⟩, hget, rfl⟩ := hs
  cases hr : s.record with
  | none =>
    have hempty : s.clients = [] := by
      by_contra hne
      have := hI.node hne
      rw [hr] at this
      exact absurd this (by simp)
    have hinit : s = init := by
      obtain ⟨record, clients⟩ := s
      simp only at hr hempty
      rw [hr, hempty]
      rfl
    have hps : n = 0 ∧ ∀ a ∈ ps, ValidName a := by
      rw [hr] at hget
      simp only [getPeersFromZK] at hget
      split at hget
      · cases hget
        exact ⟨rfl, by simp⟩
      · cases hget
        refine ⟨rfl, fun a ha => hvalid a ?_⟩
        rw [List.mem_toFinset] at ha
        exact List.mem_of_mem_take ha
    refine .inl ⟨hinit, ps, r, hps.2, ?_⟩
    simp [hps.1, createClientZKNode, hempty]
  | some v =>
    obtain ⟨qs, hqs, rfl⟩ := hI.value v hr
    have hslash : '/' ∉ (generateIpString qs 0).take bufLen :=
      fun h => slash_notMem_generate hqs (List.mem_of_mem_take h)
    obtain ⟨cnt, hparse⟩ := parse_of_noSlash hslash
    rw [hr] at hget
    simp only [getPeersFromZK, hparse, Option.map_some, Option.some.injEq, Prod.mk.injEq] at hget
    obtain ⟨rfl, rfl, rfl⟩ := hget
    refine .inr ⟨_, rfl, ?_⟩
    simp [createClientZKNode]

theorem covers_construct_iff (hI : Inv s) (hc : Covers s) {rep : ℕ} {children : List Name}
    (hs : step s (.construct rep children) = some t) : Covers t ↔ Recorded s (.construct rep children) := by
  rcases construct_cases hI hs with ⟨rfl, ps, r, hps, rfl⟩ | ⟨v, hr, rfl⟩
  · refine iff_of_true ?_ (by simp [Recorded, init])
    intro m hm
    rw [List.mem_singleton.mp hm, construct_peers]
    exact (named_generate hps).ge
  · have hnamed : s.named = named v := by
      unfold State.named
      rw [hr]
      rfl
    unfold Covers
    show (∀ m ∈ s.clients ++ [_], m.peers ⊆ named v) ↔ ∀ w ∈ s.record, _
    rw [hr]
    simp only [List.forall_mem_append, List.forall_mem_singleton, construct_peers, Option.mem_def,
      Option.some.injEq, forall_eq']
    rw [← hnamed]
    exact and_iff_right hc

theorem Inv.construct (hI : Inv s) {rep : ℕ} {children : List Name}
    (hrec : Recorded s (.construct rep children)) (hs : step s (.construct rep children) = some t) : Inv t := by
  rcases construct_cases hI hs with ⟨rfl, ps, r, hps, rfl⟩ | ⟨v, hr, rfl⟩
  · refine ⟨?_, ?_, fun _ => rfl, ?_⟩
    · intro m hm
      rw [List.mem_singleton.mp hm]
      exact Member.construct_ok _ _ _
    · intro m hm
      rw [List.mem_singleton.mp hm, construct_peers]
      exact hps
    · rintro v hv
      cases hv
      exact ⟨ps, hps, rfl⟩
  · obtain ⟨qs, hqs, rfl⟩ := hI.value v hr
    have hsub := hrec _ hr
    rw [named_generate hqs] at hsub
    refine ⟨?_, ?_, fun _ => rfl, ?_⟩
    · rw [List.forall_mem_append, List.forall_mem_singleton]
      exact ⟨hI.ok, Member.construct_ok _ _ _⟩
    · rw [List.forall_mem_append, List.forall_mem_singleton, construct_peers]
      exact ⟨hI.valid, fun a ha => hqs a (hsub ha)⟩
    · rintro w hw
      cases hw
      exact ⟨qs, hqs, rfl⟩

/-! ### Callbacks -/

/-- A call other than the update leaves the record. -/
theorem foldl_act_quiet : ∀ {acts : List (Act Name)} {record : Option Name},
    (∀ a ∈ acts, ∀ ps, a ≠ .updateClientZKNode ps) → acts.foldl act record = record := by
  intro acts
  induction acts with
  | nil => exact fun _ => rfl
  | cons a acts ih =>
    intro record h
    have ha : act record a = record := by
      cases a with
      | updateClientZKNode ps => exact absurd rfl (h _ List.mem_cons_self ps)
      | _ => rfl
    rw [List.foldl_cons, ha]
    exact ih fun b hb => h b (List.mem_cons_of_mem _ hb)

theorem suspends_quiet (m : Member Name) : ∀ a ∈ m.suspends, ∀ ps, a ≠ .updateClientZKNode ps := by
  intro a ha ps
  unfold Member.suspends at ha
  rintro rfl
  simp at ha

theorem joined_quiet (m : Member Name) (b : Name) : ∀ a ∈ m.joined b, ∀ ps, a ≠ .updateClientZKNode ps := by
  intro a ha ps
  unfold Member.joined at ha
  rintro rfl
  simp at ha

/-- What a callback can do: it leaves the record and at most removes a peer; it
adds a peer and leaves the record; or it replaces a peer and overwrites the
record. -/
theorem callback_cases {m : Member Name} (hm : m.Ok) (children : List Name) (n : Notice Name)
    (record : Option Name) :
    (∃ m', m'.peers ⊆ m.peers ∧ (m.clientWatcher (answers children) n).1 = m' ∧
      (m.clientWatcher (answers children) n).2.foldl act record = record ∧
      (∀ peer, n = .deleted peer → peer ∈ m.props →
        Member.finds (answers children) (m.peers.erase peer) = none) ∧
      (n = .child → Member.finds (answers children) m.peers = none)) ∨
    (∃ a, n = .child ∧ Member.finds (answers children) m.peers = some a ∧
      (m.clientWatcher (answers children) n).1 = m.add a ∧
      (m.clientWatcher (answers children) n).2.foldl act record = record) ∨
    ∃ peer a, n = .deleted peer ∧ peer ∈ m.props ∧
      Member.finds (answers children) (m.peers.erase peer) = some a ∧
      (m.clientWatcher (answers children) n).1 = (m.remove peer).add a ∧
      (m.clientWatcher (answers children) n).2.foldl act record =
        record.map fun _ => generateIpString ((m.remove peer).add a).peers 0 := by
  cases n with
  | created peer => exact .inl ⟨m, subset_rfl, rfl, rfl, by simp, by simp⟩
  | deleted peer =>
    rcases Member.deleted_cases hm (answers children) peer with
      ⟨hp, -, h⟩ | ⟨hp, -, hf, h⟩ | ⟨a, hp, hf, -, h⟩
    · refine .inl ⟨m, subset_rfl, by rw [h], by rw [h]; exact foldl_act_quiet (suspends_quiet m), ?_, by simp⟩
      rintro q hq hprops
      cases hq
      rw [hm] at hprops
      exact absurd hprops hp
    · refine .inl ⟨m.remove peer, Finset.erase_subset _ _, by rw [h], ?_, ?_, by simp⟩
      · rw [h]
        exact foldl_act_quiet (suspends_quiet _)
      · rintro q hq -
        cases hq
        exact hf
    · refine .inr (.inr ⟨peer, a, rfl, by rwa [hm], hf, by rw [h], ?_⟩)
      rw [h]
      rfl
  | child =>
    rcases Member.child_cases (answers children) m with ⟨hf, h⟩ | ⟨a, hf, h⟩
    · exact .inl ⟨m, subset_rfl, by rw [h], by rw [h]; rfl, by simp, fun _ => hf⟩
    · refine .inr (.inl ⟨a, rfl, hf, by rw [h], ?_⟩)
      rw [h]
      exact foldl_act_quiet (joined_quiet _ a)

/-- The peers a callback leaves are addresses. -/
theorem valid_callback {m : Member Name} (hm : m.Ok) (hv : ∀ a ∈ m.peers, ValidName a) {children : List Name}
    (hch : ∀ a ∈ children, ValidName a) (n : Notice Name) :
    ∀ a ∈ (m.clientWatcher (answers children) n).1.peers, ValidName a := by
  have hfound : ∀ {ps : Finset Name} {b : Name}, Member.finds (answers children) ps = some b → ValidName b := by
    intro ps b hf
    exact hch b (List.mem_of_find?_eq_some hf)
  rcases callback_cases hm children n none with ⟨m', hsub, hw, -⟩ | ⟨b, -, hf, hw, -⟩ | ⟨peer, b, -, -, hf, hw, -⟩
  · rw [hw]
    exact fun a ha => hv a (hsub ha)
  · rw [hw]
    intro a ha
    rcases Finset.mem_insert.mp ha with rfl | ha
    · exact hfound hf
    · exact hv a ha
  · rw [hw]
    intro a ha
    rcases Finset.mem_insert.mp ha with rfl | ha
    · exact hfound hf
    · exact hv a (Finset.mem_of_mem_erase ha)

theorem Inv.callback (hI : Inv s) {i : ℕ} {children : List Name} {n : Notice Name}
    (hs : step s (.callback i children n) = some t) : Inv t := by
  simp only [step, Option.ite_none_right_eq_some, Option.map_eq_some_iff] at hs
  obtain ⟨hch, m, hi, rfl⟩ := hs
  have hmem := List.mem_of_getElem? hi
  have hok := hI.ok m hmem
  have hset : ∀ {P : Member Name → Prop}, (∀ x ∈ s.clients, P x) → P (m.clientWatcher (answers children) n).1 →
      ∀ x ∈ s.clients.set i (m.clientWatcher (answers children) n).1, P x := by
    intro P hall hnew x hx
    rcases List.mem_or_eq_of_mem_set hx with hx | rfl
    · exact hall x hx
    · exact hnew
  have hvalid := valid_callback hok (hI.valid m hmem) hch n
  refine ⟨hset hI.ok (hok.clientWatcher _ n), hset hI.valid hvalid, fun _ => ?_, ?_⟩
  · have hsome := hI.node (List.ne_nil_of_mem hmem)
    rcases callback_cases hok children n s.record with ⟨_, -, -, hr, -⟩ | ⟨_, -, -, -, hr⟩ | ⟨_, _, -, -, -, -, hr⟩
    · rw [hr]
      exact hsome
    · rw [hr]
      exact hsome
    · rw [hr, Option.isSome_map]
      exact hsome
  · rcases callback_cases hok children n s.record with ⟨_, -, -, hr, -⟩ | ⟨_, -, -, -, hr⟩ | ⟨_, _, -, -, -, hw, hr⟩
    · rw [hr]
      exact hI.value
    · rw [hr]
      exact hI.value
    · rw [hr]
      rw [hw] at hvalid
      intro v hv
      obtain ⟨w, -, rfl⟩ := Option.map_eq_some_iff.mp hv
      exact ⟨_, hvalid, rfl⟩

theorem covers_callback_iff (hI : Inv s) (hc : Covers s) {i : ℕ} {children : List Name} {n : Notice Name}
    (hs : step s (.callback i children n) = some t) : Covers t ↔ Recorded s (.callback i children n) := by
  simp only [step, Option.ite_none_right_eq_some, Option.map_eq_some_iff] at hs
  obtain ⟨hch, m, hi, rfl⟩ := hs
  have hmem := List.mem_of_getElem? hi
  have hlt : i < s.clients.length := (List.getElem?_eq_some_iff.mp hi).1
  have hok := hI.ok m hmem
  have hvalid := valid_callback hok (hI.valid m hmem) hch n
  have hothers : ∀ x ∈ s.clients.eraseIdx i, x.peers ⊆ s.named := fun x hx => hc x (List.mem_of_mem_eraseIdx hx)
  unfold Covers
  rw [forall_mem_set hlt]
  rcases callback_cases hok children n s.record with
    ⟨m', hsub, hw, hr, hdel, hchild⟩ | ⟨a, rfl, hf, hw, hr⟩ | ⟨peer, a, rfl, hp, hf, hw, hr⟩
  · -- nothing is added
    have hrec : Recorded s (.callback i children n) := by
      cases n with
      | created peer => trivial
      | deleted peer =>
        intro m₁ hm₁ hprops a ha
        rw [Option.mem_def, hi, Option.some.injEq] at hm₁
        subst hm₁
        rw [hdel peer rfl hprops] at ha
        exact absurd ha (by simp)
      | child =>
        intro m₁ hm₁ a ha
        rw [Option.mem_def, hi, Option.some.injEq] at hm₁
        subst hm₁
        rw [hchild rfl] at ha
        exact absurd ha (by simp)
    refine iff_of_true ?_ hrec
    simp only [State.named, hr, hw]
    exact ⟨hsub.trans (hc m hmem), hothers⟩
  · -- a peer is added, and the record stays
    simp only [State.named, hr, hw]
    change (insert a m.peers ⊆ s.named ∧ ∀ x ∈ s.clients.eraseIdx i, x.peers ⊆ s.named) ↔ _
    rw [Finset.insert_subset_iff]
    simp only [Recorded, hi, Option.mem_def, Option.some.injEq, forall_eq', hf]
    exact ⟨fun h => h.1.1, fun h => ⟨⟨h, hc m hmem⟩, hothers⟩⟩
  · -- the record names exactly the peers of this client
    rw [hw] at hvalid
    obtain ⟨v, hv⟩ := Option.isSome_iff_exists.mp (hI.node (List.ne_nil_of_mem hmem))
    rw [hv, Option.map_some] at hr
    simp only [State.named, hv, hr, hw, Option.elim_some, named_generate hvalid]
    simp only [Recorded, hi, Option.mem_def, Option.some.injEq, forall_eq', hf, hp, forall_const]
    exact and_iff_right subset_rfl

/-! ### Runs -/

/-- A step that is recorded keeps the record covering, and one that is not does
not. -/
theorem covers_step_iff (hI : Inv s) (hc : Covers s) {ev : Event} (hs : step s ev = some t) :
    Covers t ↔ Recorded s ev := by
  cases ev with
  | construct rep children => exact covers_construct_iff hI hc hs
  | callback i children n => exact covers_callback_iff hI hc hs
  | setInUse i b =>
    simp only [step, Option.map_eq_some_iff] at hs
    obtain ⟨m, hi, rfl⟩ := hs
    refine iff_of_true (fun x hx => ?_) trivial
    rcases List.mem_or_eq_of_mem_set hx with hx | rfl
    · exact hc x hx
    · exact hc m (List.mem_of_getElem? hi)
  | destroy i =>
    simp only [step, Option.ite_none_right_eq_some, Option.some.injEq] at hs
    obtain ⟨-, rfl⟩ := hs
    exact iff_of_true (fun x hx => hc x (List.mem_of_mem_eraseIdx hx)) trivial

theorem Inv.step (hI : Inv s) {ev : Event} (hrec : Recorded s ev) (hs : Record.step s ev = some t) : Inv t := by
  cases ev with
  | construct rep children => exact hI.construct hrec hs
  | callback i children n => exact hI.callback hs
  | setInUse i b =>
    simp only [Record.step, Option.map_eq_some_iff] at hs
    obtain ⟨m, hi, rfl⟩ := hs
    have hmem := List.mem_of_getElem? hi
    refine ⟨fun x hx => ?_, fun x hx => ?_, fun _ => hI.node (List.ne_nil_of_mem hmem), hI.value⟩
    · rcases List.mem_or_eq_of_mem_set hx with hx | rfl
      · exact hI.ok x hx
      · exact hI.ok m hmem
    · rcases List.mem_or_eq_of_mem_set hx with hx | rfl
      · exact hI.valid x hx
      · exact hI.valid m hmem
  | destroy i =>
    simp only [Record.step, Option.ite_none_right_eq_some, Option.some.injEq] at hs
    obtain ⟨hlt, rfl⟩ := hs
    refine ⟨fun x hx => hI.ok x (List.mem_of_mem_eraseIdx hx),
      fun x hx => hI.valid x (List.mem_of_mem_eraseIdx hx), fun _ => hI.node ?_, hI.value⟩
    exact List.ne_nil_of_length_pos (by omega)

end

/-- **When the membership record covers the live membership.** In every run
whose steps are recorded, the record names every peer of every live client;
a step that is not recorded leaves a peer that it does not name. -/
theorem record_covers {s : State} (h : Trace.Reach (Trace.restrict Recorded step) init s) :
    Covers s ∧ ∀ ev t, step s ev = some t → ¬ Recorded s ev → ¬ Covers t := by
  obtain ⟨hI, hc⟩ : Inv s ∧ Covers s := by
    refine h.inv_restrict (I := fun s => Inv s ∧ Covers s) ⟨inv_init, by simp [Covers, init]⟩ ?_
    rintro s ev t ⟨hI, hc⟩ hrec hst
    exact ⟨hI.step hrec hst, (covers_step_iff hI hc hst).mpr hrec⟩
  refine ⟨hc, fun ev t hst hno hct => ?_⟩
  exact hno ((covers_step_iff hI hc hst).mp hct)

instance (s : State) : Decidable (Covers s) := inferInstanceAs (Decidable (∀ m ∈ s.clients, _))

/-- Two clients on the same two peers lose one of them; the second client finds no
replacement, the first one does and overwrites the record. -/
theorem record_covers_replaced : ∃ s, Trace.Reach (Trace.restrict Recorded step) init s ∧
    s.record = some ['A', ':', 'C'] ∧ Covers s := by
  obtain ⟨s, hs, hr⟩ : ∃ s, Trace.Reach (Trace.restrict Recorded step) init s ∧
      s.record = some ['A', ':', 'C'] :=
    Trace.exists_reach_of_exec [.construct 2 [['A'], ['B'], ['C']], .construct 2 [['A'], ['B'], ['C']],
      .callback 1 [['A']] (.deleted ['B']), .callback 0 [['A'], ['C']] (.deleted ['B'])] (by decide)
  exact ⟨s, hs, hr, (record_covers hs).1⟩

/-- A peer is lost without replacement, and the server that joins next becomes a
peer that the record does not name. -/
theorem join_unrecorded : ¬ ∀ s, Trace.Reach step init s → Covers s := by
  intro h
  obtain ⟨s, hs, hbad⟩ : ∃ s, Trace.Reach step init s ∧ ¬ Covers s :=
    Trace.exists_reach_of_exec [.construct 2 [['A'], ['B']], .callback 0 [['A']] (.deleted ['B']),
      .callback 0 [['A'], ['C']] .child] (by decide)
  exact hbad (h s hs)

end Record
end ComputeSideLog
