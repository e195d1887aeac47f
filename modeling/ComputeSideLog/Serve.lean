/-
# The replication server

`CSLServer` (`src/rdma/server.cc`) keeps an entry of `local_cons` for each file
it backs up: the queue pair of the client, the region with its token and,
between `SYNC_PEER` and `SYNC_PEER_DONE`, a second region. This file models
`handleIncomingConnection` and `handleClientRequest` with all its request
types. A queue pair stands for its remote socket. Where the source
dereferences the end of a map or a null pointer there is no result.

`Owned` says that the regions of different files are different and not in the
pool, `Opened` what the two ways to open a file have in common.

Key definitions: `Server`, `Server.handleIncomingConnection`,
`Server.handleClientRequest`, `Server.Owned`, `Server.Opened`.
Key theorems: `Server.Owned.openFile`, `Server.Owned.incoming`,
`Server.Owned.finalize`.
-/
import ComputeSideLog.MrPool
import ComputeSideLog.Server

namespace ComputeSideLog

/-- The region as a buffer of the server's memory. -/
def Mr.buffer (mr : Mr) (m : Mem) : Buffer := ⟨mr.size % 2 ^ 64, Nat.mod_lt _ (by norm_num), m⟩

/-- `LocalConData`: pointers may be null, and a token names its region. The epoch
is never read. -/
structure LocalConData where
  qp : ℕ
  buffer : Option Mr
  bufferToken : Option Mr
  tmpBuffer : Option Mr
  tmpBufferToken : Option Mr
  socket : ℕ
  deriving DecidableEq, Repr

/-- The type of a request. -/
inductive ReqType where
  | openFile
  | closeFile
  | exitProc
  | getInfo
  | syncPeer
  | syncPeerDone
  | unknown
  deriving DecidableEq, Repr

/-- `ClientReq`. -/
structure ClientReq (F : Type*) where
  type : ReqType
  fileId : F
  size : ℕ

/-- What the server sends back. -/
inductive Reply where
  | token (mr : Mr)
  | info (resp : ServerResp)
  deriving DecidableEq, Repr

/-- The fields of `CSLServer`. -/
structure Server (F : Type*) where
  existingQps : List ℕ
  pool : MrPool
  localCons : F → Option LocalConData

/-- The server after a request, the replies with the sockets they are sent on, and
whether the return value is 0, so that `Run` drops the connection. -/
structure Handled (F : Type*) where
  server : Server F
  sent : List (ℕ × Reply)
  dropped : Bool

namespace Server

variable {F : Type*} [DecidableEq F]

/-- A server that backs up nothing. -/
def init : Server F := ⟨[], .empty, fun _ => none⟩

/-- An entry of `local_cons` set. -/
def setCon (s : Server F) (fileId : F) (con : LocalConData) : Server F :=
  { s with localCons := Function.update s.localCons fileId (some con) }

/-- A new entry of `local_cons`. -/
def bind (s : Server F) (fileId : F) (socket : ℕ) (pool : MrPool) (mr : Mr) : Server F :=
  { s with pool }.setCon fileId ⟨socket, some mr, some mr, none, none, socket⟩

/-- `handleIncomingConnection`: the connection is on `socket`, a new region gets
the address `addr`. -/
def handleIncomingConnection (s : Server F) (addr socket : ℕ) (fileId : F) (size : ℕ) : Option (Handled F) :=
  match s.localCons fileId with
  | none =>
    match s.pool.getMRofSize size addr with
    | none => none
    | some (pool, mr) =>
      let s := { s with existingQps := s.existingQps.insert socket }
      some ⟨s.bind fileId socket (pool.write mr Mem.zero) mr, [(socket, .token mr)], false⟩
  | some con =>
    match con.bufferToken with
    | none => none
    | some token =>
      let s := { s with existingQps := (s.existingQps.erase con.qp).insert socket }
      some ⟨s.setCon fileId { con with qp := socket, socket }, [(socket, .token token)], false⟩

/-- The `OPEN_FILE` branch; `send` of a null pointer fails. -/
def openFile (s : Server F) (addr socket : ℕ) (fileId : F) (size : ℕ) : Option (Handled F) :=
  match s.localCons fileId with
  | some con => some ⟨s, con.bufferToken.toList.map fun token => (con.qp, .token token), false⟩
  | none =>
    if socket ∈ s.existingQps then
      match s.pool.getMRofSize size addr with
      | none => none
      | some (pool, mr) => some ⟨s.bind fileId socket pool mr, [(socket, .token mr)], false⟩
    else some ⟨s, [], false⟩

/-- The entry of a file leaves `local_cons` and its region goes back
(`finalizeConData`). -/
def finalize (s : Server F) (fileId : F) (mr : Mr) : Server F :=
  { s with pool := s.pool.recycleMR mr, localCons := Function.update s.localCons fileId none }

/-- The `CLOSE_FILE` branch. -/
def closeFile (s : Server F) (fileId : F) : Option (Handled F) :=
  match s.localCons fileId with
  | none => some ⟨s, [], false⟩
  | some con =>
    match con.buffer with
    | none => none
    | some mr => some ⟨s.finalize fileId mr, [], false⟩

/-- The `GET_INFO` branch. -/
def answerInfo (s : Server F) (fileId : F) : Option (Handled F) :=
  match s.localCons fileId with
  | none => none
  | some con =>
    match con.buffer with
    | none => none
    | some mr => some ⟨s, [(con.qp, .info (getInfo (mr.buffer (s.pool.mem mr.addr))))], false⟩

/-- The `SYNC_PEER` branch. -/
def syncPeer (s : Server F) (addr : ℕ) (fileId : F) : Option (Handled F) :=
  match s.localCons fileId with
  | none => some ⟨s, [], false⟩
  | some con =>
    match con.buffer with
    | none => none
    | some mr =>
      match s.pool.getMRofSize mr.size addr with
      | none => none
      | some (pool, tmp) =>
        let con' := { con with tmpBuffer := some tmp, tmpBufferToken := some tmp }
        some ⟨{ s with pool }.setCon fileId con', [(con.socket, .token tmp)], false⟩

/-- The `SYNC_PEER_DONE` branch: the two regions change places, and the old one
goes back while the entry keeps its pointer to it. -/
def syncPeerDone (s : Server F) (fileId : F) : Option (Handled F) :=
  match s.localCons fileId with
  | none => some ⟨s, [], false⟩
  | some con =>
    match con.buffer with
    | none => none
    | some mr =>
      let con' := ⟨con.qp, con.tmpBuffer, con.tmpBufferToken, some mr, con.bufferToken, con.socket⟩
      some ⟨{ s with pool := s.pool.recycleMR mr }.setCon fileId con', [], false⟩

/-- `handleClientRequest` for a request received on `socket`. -/
def handleClientRequest (s : Server F) (addr socket : ℕ) (req : ClientReq F) : Option (Handled F) :=
  match req.type with
  | .openFile => s.openFile addr socket req.fileId req.size
  | .closeFile => s.closeFile req.fileId
  | .exitProc => some ⟨s, [], decide (socket ∈ s.existingQps)⟩
  | .getInfo => s.answerInfo req.fileId
  | .syncPeer => s.syncPeer addr req.fileId
  | .syncPeerDone => s.syncPeerDone req.fileId
  | .unknown => some ⟨s, [], false⟩

/-! ### Which regions the files have -/

/-- The region that backs up a file. -/
def region (s : Server F) (fileId : F) : Option Mr := (s.localCons fileId).bind LocalConData.buffer

/-- Files have different regions, none of them free. -/
structure Owned (s : Server F) : Prop where
  pool : s.pool.Ok fun mr => ∃ f, s.region f = some mr
  inj : ∀ f g mr, s.region f = some mr → s.region g = some mr → f = g

omit [DecidableEq F] in
theorem owned_init : (init : Server F).Owned where
  pool := MrPool.ok_empty.congr fun _ => ⟨fun ⟨_, h⟩ => by simp [region, init] at h, False.elim⟩
  inj := fun _ _ _ h => by simp [region, init] at h

variable {s : Server F} {fileId : F}

omit [DecidableEq F] in
theorem region_of_none (h : s.localCons fileId = none) : s.region fileId = none := by
  unfold region
  rw [h]
  rfl

theorem region_bind (socket : ℕ) (pool : MrPool) (mr : Mr) (g : F) :
    (s.bind fileId socket pool mr).region g = if g = fileId then some mr else s.region g := by
  unfold region Server.bind setCon
  by_cases hg : g = fileId
  · simp [hg]
  · simp [hg]

theorem region_finalize (mr : Mr) (g : F) :
    (s.finalize fileId mr).region g = if g = fileId then none else s.region g := by
  unfold region Server.finalize
  by_cases hg : g = fileId
  · simp [hg]
  · simp [hg]

/-- A new entry for a file that has none, with a region from the pool. -/
theorem Owned.bind (h : s.Owned) (hf : s.region fileId = none) {pool : MrPool} {mr : Mr} (socket : ℕ)
    (hpool : pool.Ok fun b => (∃ f, s.region f = some b) ∨ b = mr) (hmr : ¬ ∃ f, s.region f = some mr) :
    (s.bind fileId socket pool mr).Owned := by
  have hcases : ∀ {g b}, (s.bind fileId socket pool mr).region g = some b →
      (g = fileId ∧ b = mr) ∨ s.region g = some b := by
    intro g b hg
    rw [region_bind] at hg
    split at hg
    · rename_i hgf
      exact .inl ⟨hgf, (Option.some.inj hg).symm⟩
    · exact .inr hg
  constructor
  · refine hpool.congr fun b => ⟨?_, ?_⟩
    · rintro ⟨g, hg⟩
      rcases hcases hg with ⟨-, hb⟩ | hg
      · exact .inr hb
      · exact .inl ⟨g, hg⟩
    · rintro (⟨g, hg⟩ | rfl)
      · refine ⟨g, ?_⟩
        rw [region_bind, if_neg fun he => by rw [he, hf] at hg; cases hg]
        exact hg
      · exact ⟨fileId, by rw [region_bind, if_pos rfl]⟩
  · intro g g' b hg hg'
    rcases hcases hg with ⟨he, hb⟩ | hold
    · rcases hcases hg' with ⟨he', -⟩ | hold'
      · rw [he, he']
      · exact absurd ⟨g', hb ▸ hold'⟩ hmr
    · rcases hcases hg' with ⟨-, hb⟩ | hold'
      · exact absurd ⟨g, hb ▸ hold⟩ hmr
      · exact h.inj g g' b hold hold'

/-- Closing a file frees its region only. -/
theorem Owned.finalize (h : s.Owned) {mr : Mr} (hf : s.region fileId = some mr) :
    (s.finalize fileId mr).Owned := by
  have hcases : ∀ {g b}, (s.finalize fileId mr).region g = some b → g ≠ fileId ∧ s.region g = some b := by
    intro g b hg
    rw [region_finalize] at hg
    split at hg
    · cases hg
    · rename_i hne
      exact ⟨hne, hg⟩
  constructor
  · refine (h.pool.recycleMR ⟨fileId, hf⟩).1.congr fun b => ⟨?_, ?_⟩
    · rintro ⟨g, hg⟩
      obtain ⟨hne, hg⟩ := hcases hg
      refine ⟨⟨g, hg⟩, fun he => hne ?_⟩
      exact h.inj g fileId mr (he ▸ hg) hf
    · rintro ⟨⟨g, hg⟩, hne⟩
      refine ⟨g, ?_⟩
      rw [region_finalize, if_neg]
      · exact hg
      · rintro rfl
        rw [hf, Option.some.injEq] at hg
        exact hne hg.symm
  · intro g g' b hg hg'
    exact h.inj g g' b (hcases hg).2 (hcases hg').2

/-! ### Opening and closing a file -/

/-- What opening a file does: it had an entry and every region stays, or it had
none and gets a zero region of its own, apart from those of the other files. -/
def Opened (s t : Server F) (fileId : F) : Prop :=
  ((s.localCons fileId).isSome ∧ t.region = s.region ∧ t.pool = s.pool) ∨
    (s.localCons fileId = none ∧ ∃ mr, t.region fileId = some mr ∧ t.pool.mem mr.addr = Mem.zero ∧
      ∀ g, g ≠ fileId → t.region g = s.region g ∧
        ∀ b, s.region g = some b → t.pool.mem b.addr = s.pool.mem b.addr)

theorem Owned.opened_bind (h : s.Owned) (hf : s.localCons fileId = none) {pool : MrPool} {mr : Mr} (socket : ℕ)
    (hpool : pool.Ok fun b => (∃ f, s.region f = some b) ∨ b = mr) (hmr : ¬ ∃ f, s.region f = some mr)
    (hzero : pool.mem mr.addr = Mem.zero)
    (hkeep : ∀ b, (∃ f, s.region f = some b) → pool.mem b.addr = s.pool.mem b.addr) :
    (s.bind fileId socket pool mr).Owned ∧ Opened s (s.bind fileId socket pool mr) fileId := by
  refine ⟨h.bind (region_of_none hf) socket hpool hmr, .inr ⟨hf, mr, ?_, hzero, fun g hg => ⟨?_, fun b hb => ?_⟩⟩⟩
  · rw [region_bind, if_pos rfl]
  · rw [region_bind, if_neg hg]
  · exact hkeep b ⟨g, hb⟩

theorem Owned.openFile (h : s.Owned) {addr socket size : ℕ} (hfresh : s.pool.Unused addr) {r : Handled F}
    (hr : s.openFile addr socket fileId size = some r) (hqp : socket ∈ s.existingQps) :
    r.server.Owned ∧ Opened s r.server fileId := by
  unfold Server.openFile at hr
  split at hr
  · rename_i con hf
    cases hr
    exact ⟨h, .inl ⟨by rw [hf]; rfl, rfl, rfl⟩⟩
  · rename_i hf
    rw [if_pos hqp] at hr
    split at hr
    · cases hr
    · rename_i pool mr hget
      cases hr
      obtain ⟨hok, hmr, hzero, hkeep⟩ := h.pool.getMRofSize hfresh hget
      exact h.opened_bind hf socket hok hmr hzero hkeep

/-- An entry that keeps its region. -/
theorem region_setCon {con con' : LocalConData} (hf : s.localCons fileId = some con)
    (hb : con'.buffer = con.buffer) : (s.setCon fileId con').region = s.region := by
  funext g
  unfold region setCon
  by_cases hg : g = fileId
  · rw [hg, hf]
    simp only [Function.update_self, Option.bind_some]
    exact hb
  · simp only [Function.update_of_ne hg]

theorem Owned.incoming (h : s.Owned) {addr socket size : ℕ} (hfresh : s.pool.Unused addr) {r : Handled F}
    (hr : s.handleIncomingConnection addr socket fileId size = some r) :
    r.server.Owned ∧ Opened s r.server fileId := by
  unfold handleIncomingConnection at hr
  split at hr
  · rename_i hf
    split at hr
    · cases hr
    · rename_i pool mr hget
      cases hr
      obtain ⟨hok, hmr, -, hkeep⟩ := h.pool.getMRofSize hfresh hget
      obtain ⟨hok', hkeep'⟩ := hok.write (.inr rfl) Mem.zero
      -- the socket joins `existing_qps`, which no region depends on
      refine Owned.opened_bind (s := { s with existingQps := s.existingQps.insert socket }) ⟨h.pool, h.inj⟩ hf socket
        hok' hmr (Function.update_self _ _ _) fun b hb => ?_
      have hne : b ≠ mr := fun he => hmr (he ▸ hb)
      calc (pool.write mr Mem.zero).mem b.addr = pool.mem b.addr := hkeep' b (.inl hb) hne
        _ = s.pool.mem b.addr := hkeep b hb
  · rename_i con hf
    split at hr
    · cases hr
    · cases hr
      have heq : (setCon { s with existingQps := (s.existingQps.erase con.qp).insert socket } fileId
          { con with qp := socket, socket }).region = s.region := region_setCon hf rfl
      refine ⟨⟨?_, ?_⟩, .inl ⟨by rw [hf]; rfl, heq, rfl⟩⟩
      · rw [heq]
        exact h.pool
      · rw [heq]
        exact h.inj

/-- Closing: nothing happens, or the file's region goes back. -/
theorem closeFile_cases {r : Handled F} (hr : s.closeFile fileId = some r) :
    (s.localCons fileId = none ∧ r.server = s) ∨
      ∃ mr, s.region fileId = some mr ∧ r.server = s.finalize fileId mr := by
  unfold Server.closeFile at hr
  split at hr
  · rename_i hf
    cases hr
    exact .inl ⟨hf, rfl⟩
  · rename_i con hf
    split at hr
    · cases hr
    · rename_i mr hb
      cases hr
      exact .inr ⟨mr, by unfold region; rw [hf]; exact hb, rfl⟩

end Server
end ComputeSideLog
