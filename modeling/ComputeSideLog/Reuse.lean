/-
# Regions that are used again

Clients, servers, and the two channels between them. A client of the pool is
constructed for a file, connects to its peers, writes with `WriteQuorum`,
which returns on a quorum, is recycled (`Reset` sends `CLOSE_FILE`), and is
taken again for another file (`SetFileInfo` sends `OPEN_FILE`). Requests are
read from the socket in order, at any time. Posted RDMA writes go to the
region that the client's token names: the network card reads their source
bytes at any time, and they land at any time after that, in any order.

A region should be zero when a file gets it, and until the first write posted
for the file lands (`Clean`). A write that is still in flight when its region
is recycled lands in the region of the next file (`late_write`), and so does
one that is posted with the token of a region that is gone. Otherwise
(`Calm`) each write in flight is aimed at the region of its own file
(`Local`), and the property holds in every run.

`gens`, the number of times a file got a region at a server, and `touched`,
whether a write of the current opening has landed, are bookkeeping.

Key definitions: `Net`, `Net.step`, `Net.Clean`, `Net.Calm`, `Net.Local`.
Key theorems: `Net.Local.land`, `Net.Local.opened`, `Net.Local.closed`,
`Net.new_file_clean`.
-/
import ComputeSideLog.Lib.Trace
import ComputeSideLog.Lib.Dma
import ComputeSideLog.Recycle
import ComputeSideLog.Serve

namespace ComputeSideLog

/-- What a client sends on its socket: the connection request with the file, and
the two requests of a client of the pool. -/
inductive Msg (F : Type*) where
  | connect (fileId : F) (size : ℕ)
  | openFile (fileId : F) (size : ℕ)
  | closeFile (fileId : F)
  deriving DecidableEq

/-- The file of a message. -/
def Msg.file {F : Type*} : Msg F → F
  | .connect fileId _ | .openFile fileId _ | .closeFile fileId => fileId

/-- Where a posted write goes: the client and its call, the region, and the file
it is posted for with the number of its opening. -/
structure Target (F : Type*) where
  client : ℕ
  call : Option ℕ
  mr : Mr
  file : Option F
  gen : ℕ

/-- A client: its log, its file, the tokens it has from its peers and those it
waits for, and whether a call is in `WriteQuorum`. -/
structure Writer (α F : Type*) where
  cli : Client
  file : Option F
  inUse : Bool
  repFactor : ℕ
  peers : List α
  token : α → Option Mr
  awaited : α → Bool
  calls : ℕ
  writing : Bool

/-- The whole state. -/
structure Net (α F : Type*) where
  servers : α → Server F
  clients : ℕ → Option (Writer α F)
  toServer : ℕ → α → List (Msg F)
  toClient : ℕ → α → List Mr
  flight : α → List (Dma.Op (Target F))
  gens : α → F → ℕ
  touched : α → F → Bool

/-- A step of the clients, the network or the servers. -/
inductive NetEvent (α F : Type*) where
  | construct (c : ℕ) (f : F) (L : Layout) (repFactor : ℕ)
  | addPeer (c : ℕ) (a : α)
  | getClient (c : ℕ) (f : F) (size : ℕ) (mr : Buffer)
  | recvToken (c : ℕ) (a : α)
  | setInUse (c : ℕ)
  | call (c : ℕ) (w : Call)
  | copy (c : ℕ) (a : α)
  | load (c : ℕ) (a : α) (size : ℕ)
  | ret (c : ℕ)
  | recycle (c : ℕ)
  | fetch (a : α) (i off len : ℕ)
  | land (a : α) (i : ℕ)
  | serve (a : α) (c addr : ℕ)

namespace Writer

variable {α F : Type*}

/-- A client under construction. -/
def new (f : F) (L : Layout) (repFactor : ℕ) : Writer α F :=
  ⟨.fresh L, some f, false, repFactor, [], fun _ => none, fun _ => false, 0, false⟩

/-- The connection to the peer is set up. -/
def Linked (w : Writer α F) (a : α) : Prop := w.awaited a = false ∧ (w.token a).isSome

instance (w : Writer α F) (a : α) : Decidable (w.Linked a) := inferInstanceAs (Decidable (_ ∧ _))

end Writer

namespace Net

variable {α F : Type*} [DecidableEq α] [DecidableEq F]

/-- Nothing is there yet. -/
def init : Net α F where
  servers := fun _ => .init
  clients := fun _ => none
  toServer := fun _ _ => []
  toClient := fun _ _ => []
  flight := fun _ => []
  gens := fun _ _ => 0
  touched := fun _ _ => false

/-! ### The clients -/

/-- The client changes. -/
def setClient (s : Net α F) (c : ℕ) (w : Writer α F) : Net α F :=
  { s with clients := Function.update s.clients c (some w) }

/-- A message to each of the servers. -/
def send (s : Net α F) (c : ℕ) (as : List α) (m : Msg F) : Net α F :=
  { s with toServer := Function.update s.toServer c fun a =>
      if a ∈ as then s.toServer c a ++ [m] else s.toServer c a }

/-- `AddPeer` up to the connection request of `GetQpTo`. -/
def addPeer (s : Net α F) (c : ℕ) (a : α) : Option (Net α F) :=
  match s.clients c with
  | none => none
  | some w =>
    match w.file with
    | none => none
    | some f =>
      if a ∉ w.peers ∧ w.awaited a = false then
        some ((s.send c [a] (.connect f w.cli.bufSize)).setClient c
          { w with awaited := Function.update w.awaited a true })
      else none

/-- `GetClient` with an idle client, up to the requests of `SetFileInfo`. -/
def getClient (s : Net α F) (c : ℕ) (f : F) (size : ℕ) (mr : Buffer) : Option (Net α F) :=
  match s.clients c with
  | none => none
  | some w =>
    if w.inUse = false ∧ ∀ a ∈ w.peers, w.awaited a = false then
      some ((s.send c w.peers (.openFile f size)).setClient c
        { w with
          cli := (w.cli.replaceBuffer size mr).setFileInfo size
          file := some f
          awaited := fun a => decide (a ∈ w.peers) || w.awaited a })
    else none

/-- The client reads a token that it waits for; a new peer is then inserted. -/
def recvToken (s : Net α F) (c : ℕ) (a : α) : Option (Net α F) :=
  match s.clients c, s.toClient c a with
  | some w, mr :: rest =>
    if w.awaited a = true then
      let q := Function.update s.toClient c (Function.update (s.toClient c) a rest)
      some ({ s with toClient := q }.setClient c
        { w with
          token := Function.update w.token a (some mr)
          awaited := Function.update w.awaited a false
          peers := if a ∈ w.peers then w.peers else w.peers ++ [a] })
    else none
  | _, _ => none

/-- The end of `GetClient`. -/
def setInUse (s : Net α F) (c : ℕ) : Option (Net α F) :=
  match s.clients c with
  | none => none
  | some w => if ∀ a ∈ w.peers, w.awaited a = false then some (s.setClient c { w with inUse := true }) else none

/-- What a client posts to a peer, for a call or for a copy of its log. -/
def ops (s : Net α F) (c : ℕ) (w : Writer α F) (call : Option ℕ) (ws : List RdmaWrite) (a : α) :
    List (Dma.Op (Target F)) :=
  match w.token a with
  | none => []
  | some mr =>
    ws.map fun x => ⟨x.off, x.len, ⟨c, call, mr, w.file, (w.file.map (s.gens a)).getD 0⟩, 0, fun _ => none⟩

/-- The writes to each of the servers. -/
def post (s : Net α F) (c : ℕ) (w : Writer α F) (call : Option ℕ) (ws : List RdmaWrite) (as : List α) : Net α F :=
  { s with flight := fun a => if a ∈ as then s.flight a ++ s.ops c w call ws a else s.flight a }

/-- `Append` and `WritePos` up to the posts of `WriteQuorum`, which ask for no
more than a token of each peer. -/
def call (s : Net α F) (c : ℕ) (x : Call) : Option (Net α F) :=
  match s.clients c with
  | none => none
  | some w =>
    if w.writing = false ∧ ∀ a ∈ w.peers, w.Linked a then
      let ws := (w.cli.call x).writeTwoPlace (x.off w.cli) (x.size w.cli)
      some ((s.post c w (some w.calls) ws w.peers).setClient c
        { w with cli := w.cli.call x, calls := w.calls + 1, writing := true })
    else none

/-- `recoverPeer`, and `recoverPeers` for one peer. -/
def copy (s : Net α F) (c : ℕ) (a : α) : Option (Net α F) :=
  match s.clients c with
  | none => none
  | some w =>
    if a ∈ w.peers ∧ w.Linked a then some (s.post c w none w.cli.syncWrites [a]) else none

/-- `recoverFromSrc`. -/
def load (s : Net α F) (c : ℕ) (a : α) (size : ℕ) : Option (Net α F) :=
  match s.clients c with
  | none => none
  | some w =>
    match w.token a with
    | none => none
    | some mr =>
      let src := mr.buffer ((s.servers a).pool.mem mr.addr)
      some (s.setClient c { w with cli := w.cli.recoverFromSrc (⟨a, src⟩ : Peer α) size })

/-- The peers at which the last call's writes have landed. -/
def acks (s : Net α F) (c : ℕ) (w : Writer α F) : List α :=
  w.peers.filter fun a => ∀ o ∈ s.flight a, ¬ (o.tag.client = c ∧ o.tag.call = some (w.calls - 1))

/-- `WriteQuorum` returns. -/
def ret (s : Net α F) (c : ℕ) : Option (Net α F) :=
  match s.clients c with
  | none => none
  | some w =>
    if w.writing = true ∧ (w.peers.length ≤ w.repFactor / 2 ∨ w.repFactor / 2 < (s.acks c w).length) then
      some (s.setClient c { w with writing := false })
    else none

/-- `RecycleClient`: `Reset` with its messages. -/
def recycle (s : Net α F) (c : ℕ) : Option (Net α F) :=
  match s.clients c with
  | none => none
  | some w =>
    let w' := { w with cli := w.cli.reset, inUse := false, file := none }
    match w.inUse, w.file with
    | true, some f => some ((s.send c w.peers (.closeFile f)).setClient c w')
    | _, _ => some (s.setClient c w')

/-! ### The network -/

/-- The network card reads source bytes of a posted write. -/
def fetch (s : Net α F) (a : α) (i off len : ℕ) : Option (Net α F) :=
  match (s.flight a)[i]? with
  | none => none
  | some o =>
    match s.clients o.tag.client with
    | none => none
    | some w =>
      let os := (s.flight a).set i (o.fetch w.cli.buffer.mem off len)
      some { s with flight := Function.update s.flight a os }

/-- The write counts for the opening of its file that it was posted for. -/
def touch (s : Net α F) (a : α) (t : Target F) : F → Bool :=
  match t.file with
  | none => s.touched a
  | some f =>
    if (s.servers a).region f = some t.mr ∧ s.gens a f = t.gen then Function.update (s.touched a) f true
    else s.touched a

/-- The server's memory after a write has landed. -/
def landed (sv : Server F) (o : Dma.Op (Target F)) : Server F :=
  { sv with pool := sv.pool.write o.tag.mr (o.land (sv.pool.mem o.tag.mr.addr)) }

/-- A posted write whose bytes are all read lands. -/
def land (s : Net α F) (a : α) (i : ℕ) : Option (Net α F) :=
  match (s.flight a)[i]? with
  | none => none
  | some o =>
    if o.Ready then
      some { s with
        servers := Function.update s.servers a (landed (s.servers a) o)
        flight := Function.update s.flight a ((s.flight a).eraseIdx i)
        touched := Function.update s.touched a (s.touch a o.tag) }
    else none

/-! ### The servers -/

/-- What the server does with a message on the socket: `Run` reads requests only
from sockets in `existing_qps`. -/
def handle (sv : Server F) (addr socket : ℕ) : Msg F → Option (Handled F)
  | .connect f size => sv.handleIncomingConnection addr socket f size
  | .openFile f size =>
    if socket ∈ sv.existingQps then sv.handleClientRequest addr socket ⟨.openFile, f, size⟩ else none
  | .closeFile f =>
    if socket ∈ sv.existingQps then sv.handleClientRequest addr socket ⟨.closeFile, f, 0⟩ else none

/-- The tokens go to the sockets that they are sent on. -/
def deliver (s : Net α F) (a : α) : List (ℕ × Reply) → ℕ → α → List Mr
  | [] => s.toClient
  | (socket, .token mr) :: rest =>
    let q := deliver s a rest
    Function.update q socket (Function.update (q socket) a (q socket a ++ [mr]))
  | (_, .info _) :: rest => deliver s a rest

/-- The file had no entry and has one now. -/
def Fresh (sv sv' : Server F) (f : F) : Prop := (sv.localCons f).isNone ∧ (sv'.localCons f).isSome

instance (sv sv' : Server F) (f : F) : Decidable (Fresh sv sv' f) := inferInstanceAs (Decidable (_ ∧ _))

/-- The server reads the next message of a client; a new region gets the address
`addr`, which no other has. -/
def serve (s : Net α F) (a : α) (c addr : ℕ) : Option (Net α F) :=
  match s.toServer c a with
  | [] => none
  | m :: rest =>
    if (s.servers a).pool.Unused addr then
      match handle (s.servers a) addr c m with
      | none => none
      | some r =>
        some { s with
          servers := Function.update s.servers a r.server
          toServer := Function.update s.toServer c (Function.update (s.toServer c) a rest)
          toClient := s.deliver a r.sent
          gens := if Fresh (s.servers a) r.server m.file then
              Function.update s.gens a (Function.update (s.gens a) m.file (s.gens a m.file + 1))
            else s.gens
          touched := if Fresh (s.servers a) r.server m.file then
              Function.update s.touched a (Function.update (s.touched a) m.file false)
            else s.touched }
    else none

/-- One step. -/
def step (s : Net α F) : NetEvent α F → Option (Net α F)
  | .construct c f L repFactor => if (s.clients c).isNone then some (s.setClient c (.new f L repFactor)) else none
  | .addPeer c a => s.addPeer c a
  | .getClient c f size mr => s.getClient c f size mr
  | .recvToken c a => s.recvToken c a
  | .setInUse c => s.setInUse c
  | .call c x => s.call c x
  | .copy c a => s.copy c a
  | .load c a size => s.load c a size
  | .ret c => s.ret c
  | .recycle c => s.recycle c
  | .fetch a i off len => s.fetch a i off len
  | .land a i => s.land a i
  | .serve a c addr => s.serve a c addr

/-! ### What is claimed, and when it holds -/

/-- A file's region is zero until the first write posted for it has landed. -/
def Clean (s : Net α F) : Prop := ∀ a f mr, (s.servers a).region f = some mr → s.touched a f = false →
  ∀ x, x < mr.size → (s.servers a).pool.mem mr.addr x = 0

/-- The client's file has, at the peer, the region that the client's token names. -/
def Bound (s : Net α F) (w : Writer α F) (a : α) : Prop := ∃ f ∈ w.file, (s.servers a).region f = w.token a

instance (s : Net α F) (w : Writer α F) (a : α) : Decidable (s.Bound w a) :=
  inferInstanceAs (Decidable (∃ f ∈ w.file, _))

/-- `CLOSE_FILE` is handled only when no write to the file's region is in flight,
and writes are posted only to regions that still belong to the file. -/
def Calm (s : Net α F) : NetEvent α F → Prop
  | .serve a c _ => ∀ m ∈ (s.toServer c a).head?, m = .closeFile m.file →
      ∀ o ∈ s.flight a, (s.servers a).region m.file ≠ some o.tag.mr
  | .call c _ => ∀ w ∈ s.clients c, ∀ a ∈ w.peers, s.Bound w a
  | .copy c a => ∀ w ∈ s.clients c, s.Bound w a
  | _ => True

instance (s : Net α F) : ∀ e, Decidable (Calm s e)
  | .serve a c _ => inferInstanceAs (Decidable (∀ m ∈ (s.toServer c a).head?, _))
  | .call c _ => inferInstanceAs (Decidable (∀ w ∈ s.clients c, _))
  | .copy c _ => inferInstanceAs (Decidable (∀ w ∈ s.clients c, _))
  | .construct .. | .addPeer .. | .getClient .. | .recvToken .. | .setInUse _ | .load .. | .ret _ | .recycle _
  | .fetch .. | .land .. => instDecidableTrue

/-! ### One server -/

/-- The write goes to the region of its file, for its present opening. -/
def Aimed (sv : Server F) (gens : F → ℕ) (t : Target F) : Prop :=
  ∃ f, t.file = some f ∧ sv.region f = some t.mr ∧ gens f = t.gen

/-- What holds at one server: the regions are apart, the writes in flight are
aimed, and untouched regions are zero. -/
structure Local (sv : Server F) (flight : List (Dma.Op (Target F))) (gens : F → ℕ) (touched : F → Bool) : Prop where
  owned : sv.Owned
  aimed : ∀ o ∈ flight, Aimed sv gens o.tag
  clean : ∀ f mr, sv.region f = some mr → touched f = false → sv.pool.mem mr.addr = Mem.zero

section Local

variable {sv sv' : Server F} {flight flight' : List (Dma.Op (Target F))} {gens : F → ℕ} {touched : F → Bool}

omit [DecidableEq F] in
theorem local_init : Local (Server.init : Server F) [] (fun _ => 0) fun _ => false where
  owned := Server.owned_init
  aimed := fun _ h => by cases h
  clean := fun _ _ h => by simp [Server.region, Server.init] at h

omit [DecidableEq F] in
/-- More writes may be posted as long as they are aimed. -/
theorem Local.refly (h : Local sv flight gens touched)
    (hf : ∀ o ∈ flight', (∃ o' ∈ flight, o'.tag = o.tag) ∨ Aimed sv gens o.tag) :
    Local sv flight' gens touched := by
  refine ⟨h.owned, fun o ho => ?_, h.clean⟩
  rcases hf o ho with ⟨o', ho', he⟩ | haim
  · exact he ▸ h.aimed o' ho'
  · exact haim

/-- A write that lands changes the region of its file only, which is touched by
it. -/
theorem Local.land (h : Local sv flight gens touched) {o : Dma.Op (Target F)} {f : F}
    (hr : sv.region f = some o.tag.mr) (hsub : ∀ o ∈ flight', o ∈ flight) :
    Local (landed sv o) flight' gens (Function.update touched f true) := by
  obtain ⟨hok, hkeep⟩ := h.owned.pool.write ⟨f, hr⟩ (o.land (sv.pool.mem o.tag.mr.addr))
  refine ⟨⟨hok, h.owned.inj⟩, fun o' ho' => h.aimed o' (hsub o' ho'), fun g mr hg ht => ?_⟩
  by_cases hgf : g = f
  · rw [hgf, Function.update_self] at ht
    cases ht
  · rw [Function.update_of_ne hgf] at ht
    have hne : mr ≠ o.tag.mr := fun he => hgf (h.owned.inj g f mr hg (he ▸ hr))
    calc (landed sv o).pool.mem mr.addr = sv.pool.mem mr.addr := hkeep mr ⟨g, hg⟩ hne
      _ = Mem.zero := h.clean g mr hg ht

/-- A file that is opened: no write in flight is aimed at it unless it had its
region already. -/
theorem Local.opened (h : Local sv flight gens touched) {f : F} (hown : sv'.Owned) (hop : Server.Opened sv sv' f) :
    ((sv.localCons f).isSome → Local sv' flight gens touched) ∧
      (sv.localCons f = none → Local sv' flight (Function.update gens f (gens f + 1))
        (Function.update touched f false)) := by
  rcases hop with ⟨hsome, hreg, hpool⟩ | ⟨hnone, mr, hmr, hzero, hother⟩
  · refine ⟨fun _ => ⟨hown, fun o ho => ?_, fun g mr hg ht => ?_⟩, fun hnone => ?_⟩
    · unfold Aimed
      rw [hreg]
      exact h.aimed o ho
    · rw [hreg] at hg
      rw [hpool]
      exact h.clean g mr hg ht
    · rw [hnone] at hsome
      cases hsome
  · refine ⟨fun hsome => ?_, fun _ => ⟨hown, fun o ho => ?_, fun g b hg ht => ?_⟩⟩
    · rw [hnone] at hsome
      cases hsome
    · obtain ⟨g, hfile, hreg, hgen⟩ := h.aimed o ho
      have hgf : g ≠ f := by
        rintro rfl
        rw [Server.region_of_none hnone] at hreg
        cases hreg
      exact ⟨g, hfile, (hother g hgf).1.trans hreg, (Function.update_of_ne hgf _ _).trans hgen⟩
    · by_cases hgf : g = f
      · rw [hgf, hmr, Option.some.injEq] at hg
        rw [← hg]
        exact hzero
      · rw [Function.update_of_ne hgf] at ht
        rw [(hother g hgf).1] at hg
        calc sv'.pool.mem b.addr = sv.pool.mem b.addr := (hother g hgf).2 b hg
          _ = Mem.zero := h.clean g b hg ht

/-- A file that is closed while no write to its region is in flight. -/
theorem Local.closed (h : Local sv flight gens touched) {f : F} {mr : Mr} (hf : sv.region f = some mr)
    (hfree : ∀ o ∈ flight, o.tag.mr ≠ mr) : Local (sv.finalize f mr) flight gens touched := by
  obtain ⟨-, hkeep⟩ := h.owned.pool.recycleMR ⟨f, hf⟩
  refine ⟨h.owned.finalize hf, fun o ho => ?_, fun g b hg ht => ?_⟩
  · obtain ⟨g, hfile, hreg, hgen⟩ := h.aimed o ho
    refine ⟨g, hfile, ?_, hgen⟩
    rw [Server.region_finalize, if_neg]
    · exact hreg
    · rintro rfl
      rw [hf, Option.some.injEq] at hreg
      exact hfree o ho hreg.symm
  · rw [Server.region_finalize] at hg
    split at hg
    · cases hg
    · rename_i hgf
      have hne : b ≠ mr := fun he => hgf (h.owned.inj g f mr (he ▸ hg) hf)
      calc (sv.finalize f mr).pool.mem b.addr = sv.pool.mem b.addr := hkeep b ⟨g, hg⟩ hne
        _ = Mem.zero := h.clean g b hg ht

end Local

/-! ### All servers -/

/-- `Local` at every server. -/
def Steady (s : Net α F) : Prop := ∀ a, Local (s.servers a) (s.flight a) (s.gens a) (s.touched a)

omit [DecidableEq α] [DecidableEq F] in
theorem Steady.clean {s : Net α F} (h : s.Steady) : s.Clean := by
  intro a f mr hr ht x _
  rw [(h a).clean f mr hr ht]
  rfl

variable {s t : Net α F}

/-- The servers and the network are as before. -/
def Same (s t : Net α F) : Prop :=
  t.servers = s.servers ∧ t.flight = s.flight ∧ t.gens = s.gens ∧ t.touched = s.touched

omit [DecidableEq α] [DecidableEq F] in
theorem Steady.same (h : s.Steady) (hs : Same s t) : t.Steady := by
  obtain ⟨h1, h2, h3, h4⟩ := hs
  unfold Steady
  rw [h1, h2, h3, h4]
  exact h

/-- The steps of a client that post nothing. -/
def Quiet : NetEvent α F → Prop
  | .call .. | .copy .. | .fetch .. | .land .. | .serve .. => False
  | _ => True

theorem same_of_quiet {e : NetEvent α F} (hq : Quiet e) (hs : s.step e = some t) : Same s t := by
  cases e with
  | call _ _ | copy _ _ | fetch _ _ _ _ | land _ _ | serve _ _ _ => exact hq.elim
  | _ =>
    simp only [Net.step, addPeer, getClient, recvToken, setInUse, load, ret, recycle] at hs
    repeat' split at hs
    all_goals cases hs
    all_goals exact ⟨rfl, rfl, rfl, rfl⟩

omit [DecidableEq F] in
/-- Posts of a client whose tokens are those of its file. -/
theorem Steady.post (h : s.Steady) {c : ℕ} {w : Writer α F} {call : Option ℕ} {ws : List RdmaWrite} {as : List α}
    (hb : ∀ a ∈ as, s.Bound w a) : (s.post c w call ws as).Steady := by
  intro a
  refine (h a).refly fun o ho => ?_
  unfold Net.post at ho
  dsimp only at ho
  split at ho
  · rename_i ha
    rcases List.mem_append.mp ho with ho | ho
    · exact .inl ⟨o, ho, rfl⟩
    · obtain ⟨f, hfile, hreg⟩ := hb a ha
      unfold ops at ho
      split at ho
      · cases ho
      · rename_i mr htok
        obtain ⟨x, -, rfl⟩ := List.mem_map.mp ho
        rw [Option.mem_def] at hfile
        exact .inr ⟨f, hfile, hreg.trans htok, by rw [hfile]; rfl⟩
  · exact .inl ⟨o, ho, rfl⟩

omit [DecidableEq F] in
theorem Steady.call (h : s.Steady) {c : ℕ} {x : Call} (hb : ∀ w ∈ s.clients c, ∀ a ∈ w.peers, s.Bound w a)
    (hs : s.call c x = some t) : t.Steady := by
  unfold Net.call at hs
  split at hs
  · cases hs
  · rename_i w hw
    split at hs
    · cases hs
      exact (h.post (hb w hw)).same ⟨rfl, rfl, rfl, rfl⟩
    · cases hs

omit [DecidableEq F] in
theorem Steady.copy (h : s.Steady) {c : ℕ} {a : α} (hb : ∀ w ∈ s.clients c, s.Bound w a)
    (hs : s.copy c a = some t) : t.Steady := by
  unfold Net.copy at hs
  split at hs
  · cases hs
  · rename_i w hw
    split at hs
    · cases hs
      refine h.post fun a' ha' => ?_
      rw [List.mem_singleton.mp ha']
      exact hb w hw
    · cases hs

omit [DecidableEq F] in
theorem Steady.fetch (h : s.Steady) {a : α} {i off len : ℕ} (hs : s.fetch a i off len = some t) : t.Steady := by
  unfold Net.fetch at hs
  split at hs
  · cases hs
  · rename_i o ho
    split at hs
    · cases hs
    · cases hs
      intro a'
      refine (h a').refly fun o' ho' => .inl ?_
      dsimp only at ho'
      by_cases ha : a' = a
      · rw [ha, Function.update_self] at ho'
        rw [ha]
        rcases List.mem_or_eq_of_mem_set ho' with ho' | rfl
        · exact ⟨o', ho', rfl⟩
        · exact ⟨o, List.mem_of_getElem? ho, rfl⟩
      · rw [Function.update_of_ne ha] at ho'
        exact ⟨o', ho', rfl⟩

theorem Steady.land (h : s.Steady) {a : α} {i : ℕ} (hs : s.land a i = some t) : t.Steady := by
  unfold Net.land at hs
  split at hs
  · cases hs
  · rename_i o ho
    split at hs
    · cases hs
      intro a'
      by_cases ha : a' = a
      · subst ha
        obtain ⟨f, hfile, hreg, hgen⟩ := (h a').aimed o (List.mem_of_getElem? ho)
        have htouch : s.touch a' o.tag = Function.update (s.touched a') f true := by
          unfold touch
          rw [hfile]
          exact if_pos ⟨hreg, hgen⟩
        simp only [Function.update_self, htouch]
        exact (h a').land hreg fun o' ho' => List.mem_of_mem_eraseIdx ho'
      · simp only [Function.update_of_ne ha]
        exact h a'
    · cases hs

/-- Opening a file keeps what holds at the server. -/
theorem Local.openedFresh {sv sv' : Server F} {flight : List (Dma.Op (Target F))} {gens : F → ℕ}
    {touched : F → Bool} (h : Local sv flight gens touched) {f : F} (hown : sv'.Owned)
    (hop : Server.Opened sv sv' f) :
    Local sv' flight (if Fresh sv sv' f then Function.update gens f (gens f + 1) else gens)
      (if Fresh sv sv' f then Function.update touched f false else touched) := by
  obtain ⟨hold, hnew⟩ := h.opened hown hop
  rcases hop with ⟨hsome, -⟩ | ⟨hnone, mr, hmr, -⟩
  · have hno : ¬ Fresh sv sv' f := fun hf => by simp [Fresh, Option.isSome_iff_ne_none.mp hsome] at hf
    rw [if_neg hno, if_neg hno]
    exact hold hsome
  · have hyes : Fresh sv sv' f := by
      refine ⟨by rw [hnone]; rfl, ?_⟩
      by_contra hno
      rw [Server.region_of_none (by simpa using hno)] at hmr
      cases hmr
    rw [if_pos hyes, if_pos hyes]
    exact hnew hnone

/-- So does every message that a server reads, a `CLOSE_FILE` only in calm. -/
theorem Local.handle {sv : Server F} {flight : List (Dma.Op (Target F))} {gens : F → ℕ} {touched : F → Bool}
    (h : Local sv flight gens touched) {addr socket : ℕ} (hfresh : sv.pool.Unused addr) {m : Msg F}
    (hcalm : m = .closeFile m.file → ∀ o ∈ flight, sv.region m.file ≠ some o.tag.mr) {r : Handled F}
    (hr : handle sv addr socket m = some r) :
    Local r.server flight
      (if Fresh sv r.server m.file then Function.update gens m.file (gens m.file + 1) else gens)
      (if Fresh sv r.server m.file then Function.update touched m.file false else touched) := by
  unfold Net.handle at hr
  cases m with
  | connect f size =>
    obtain ⟨hown, hop⟩ := h.owned.incoming hfresh hr
    exact h.openedFresh hown hop
  | openFile f size =>
    dsimp only at hr
    split at hr
    · rename_i hqp
      obtain ⟨hown, hop⟩ := h.owned.openFile hfresh hr hqp
      exact h.openedFresh hown hop
    · cases hr
  | closeFile f =>
    dsimp only at hr
    split at hr
    · rcases Server.closeFile_cases hr with ⟨hnone, hsv⟩ | ⟨mr, hreg, hsv⟩
      · have hno : ¬ Fresh sv r.server (Msg.closeFile f).file := by
          rintro ⟨-, hsome⟩
          rw [hsv] at hsome
          exact absurd hnone (Option.isSome_iff_ne_none.mp hsome)
        rw [if_neg hno, if_neg hno, hsv]
        exact h
      · have hno : ¬ Fresh sv r.server (Msg.closeFile f).file := by
          rintro ⟨-, hsome⟩
          rw [hsv] at hsome
          simp [Server.finalize, Msg.file] at hsome
        rw [if_neg hno, if_neg hno, hsv]
        refine h.closed hreg fun o ho he => hcalm rfl o ho ?_
        rw [he]
        exact hreg
    · cases hr

theorem Steady.serve (h : s.Steady) {a : α} {c addr : ℕ} (hcalm : Calm s (.serve a c addr))
    (hs : s.serve a c addr = some t) : t.Steady := by
  unfold Net.serve at hs
  split at hs
  · cases hs
  · rename_i m rest hq
    split at hs
    · rename_i hfresh
      split at hs
      · cases hs
      · rename_i r hr
        cases hs
        have hloc := (h a).handle hfresh (hcalm m (by rw [hq]; rfl)) hr
        intro a'
        by_cases ha : a' = a
        · subst ha
          by_cases hf : Fresh (s.servers a') r.server m.file
          · simp only [hf, if_true, Function.update_self] at hloc ⊢
            exact hloc
          · simp only [hf, if_false, Function.update_self] at hloc ⊢
            exact hloc
        · by_cases hf : Fresh (s.servers a) r.server m.file
          · simp only [hf, if_true, Function.update_of_ne ha]
            exact h a'
          · simp only [hf, if_false, Function.update_of_ne ha]
            exact h a'
    · cases hs

/-- A calm step keeps what holds at the servers. -/
theorem Steady.step (h : s.Steady) {e : NetEvent α F} (hcalm : Calm s e) (hs : s.step e = some t) : t.Steady := by
  cases e with
  | call c x => exact h.call hcalm hs
  | copy c a => exact h.copy hcalm hs
  | fetch a i off len => exact h.fetch hs
  | land a i => exact h.land hs
  | serve a c addr => exact h.serve hcalm hs
  | _ =>
    refine h.same (same_of_quiet ?_ hs)
    trivial

/-- **A newly opened file's region is zero.** In every run in which a server
handles `CLOSE_FILE` only when no write to the file's region is in flight, and
clients post only to regions that belong to their file, the region of a file
is zero until the first write posted for it has landed. -/
theorem new_file_clean (h : Trace.Reach (Trace.restrict (Calm (α := α) (F := F)) step) init s) : s.Clean := by
  refine Steady.clean (h.inv_restrict (fun _ => local_init) fun _ e _ hs hcalm he => ?_)
  exact hs.step hcalm he

/-- A client connects to servers 0, 1 and 2 for the file "a" and writes one byte;
the network card reads the bytes of all six posted writes. -/
def written : List (NetEvent ℕ String) :=
  [.construct 0 "a" tiny 3, .addPeer 0 0, .serve 0 0 1, .recvToken 0 0, .addPeer 0 1, .serve 1 0 1, .recvToken 0 1,
    .addPeer 0 2, .serve 2 0 1, .recvToken 0 2, .setInUse 0, .call 0 (.append [7]), .fetch 0 0 0 16,
    .fetch 0 1 0 16, .fetch 1 0 0 16, .fetch 1 1 0 16, .fetch 2 0 0 16, .fetch 2 1 0 16]

/-- All writes land before the client is recycled and taken for the file "b",
which gets the region of "a" at server 2. -/
theorem new_file_clean_landed :
    ∃ s : Net ℕ String, Trace.Reach (Trace.restrict Calm step) init s ∧
      ((s.servers 2).region "b" = some ⟨1, 16⟩ ∧ s.touched 2 "b" = false) ∧ s.Clean := by
  obtain ⟨s, hs, hr⟩ : ∃ s : Net ℕ String, Trace.Reach (Trace.restrict Calm step) init s ∧
      ((s.servers 2).region "b" = some ⟨1, 16⟩ ∧ s.touched 2 "b" = false) :=
    Trace.exists_reach_of_exec
      (written ++ [.land 0 0, .land 0 0, .land 1 0, .land 1 0, .ret 0, .land 2 0, .land 2 0, .recycle 0,
        .serve 2 0 2, .getClient 0 "b" 16 (tiny.region Mem.zero), .serve 2 0 2]) (by decide)
  exact ⟨s, hs, hr, new_file_clean hs⟩

/-- The writes land at servers 0 and 1, the call returns, and the client is
recycled and taken for the file "b"; server 2 closes "a" and opens "b" before
the writes land there. -/
theorem late_write : ¬ ∀ s : Net ℕ String, Trace.Reach step init s → s.Clean := by
  intro h
  obtain ⟨s, hs, hr, ht, hm⟩ : ∃ s : Net ℕ String, Trace.Reach step init s ∧
      ((s.servers 2).region "b" = some ⟨1, 16⟩ ∧ s.touched 2 "b" = false ∧ (s.servers 2).pool.mem 1 0 = 7) :=
    Trace.exists_reach_of_exec
      (written ++ [.land 0 0, .land 0 0, .land 1 0, .land 1 0, .ret 0, .recycle 0, .serve 2 0 2,
        .getClient 0 "b" 16 (tiny.region Mem.zero), .serve 2 0 2, .land 2 0]) (by decide)
  have hzero := h s hs 2 "b" _ hr ht 0 (by decide)
  rw [hm] at hzero
  cases hzero

end Net
end ComputeSideLog
