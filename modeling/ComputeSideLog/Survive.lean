/-
# What the server survives

`handleClientRequest` looks the file up in `local_cons` and the socket in
`existing_qps` before it looks at the type of the request, and each branch
then uses the two iterators and the pointers of the entry in its own way
(`src/rdma/server.cc`). In `Serve.lean` a branch that goes wrong has no
result. Here each dereference is a step of its own that can fail
(`Checked.need`), and a reply that is sent may be an object that was never
assigned; where nothing fails, the two models do the same
(`Checked.handleClientRequest_refines`). Handing a null token to `send` or to
`replyIncomingConnection` counts as a use of it.

Two branches are at fault. `GET_INFO` for a file without an entry fills
nothing in, logs the error and goes on to `it->second`; every other branch
breaks out there. `SYNC_PEER_DONE` swaps the region with `tmp_buffer`
without a look whether `SYNC_PEER` has set it, and so leaves an entry with
null pointers, on which the next `OPEN_FILE`, `GET_INFO`, `CLOSE_FILE`,
`SYNC_PEER` or reconnection fails. A region is taken from the pool, whose
own search can run past its end (`MrPool.Adequate`).

`Welcome` is the condition on an event in the state before it: in every run
of such events the server survives, and it survives no other event
(`Checked.survives_requests`).
-/
import ComputeSideLog.Lib.Trace
import ComputeSideLog.Serve

namespace ComputeSideLog

/-- What the server must not do: dereference the end of one of its maps or of the
pool's set, or use a null pointer of an entry. -/
inductive Fault where
  | consEnd
  | qpsEnd
  | freeEnd
  | nullBuffer
  | nullToken
  deriving DecidableEq, Repr

/-- The server after a request, what it sends, where `none` is an object that was
never assigned, and whether `Run` drops the connection. -/
structure Answered (F : Type*) where
  server : Server F
  sent : List (ℕ × Option Reply)
  dropped : Bool

/-- The same with every reply assigned. -/
def Handled.answered {F : Type*} (r : Handled F) : Answered F :=
  ⟨r.server, r.sent.map fun p => (p.1, some p.2), r.dropped⟩

theorem Handled.assigned {F : Type*} (r : Handled F) : ∀ p ∈ r.answered.sent, p.2.isSome = true := by
  intro p hp
  obtain ⟨q, -, rfl⟩ := List.mem_map.mp hp
  rfl

namespace LocalConData

/-- The entry has a region and its token. -/
def Whole (con : LocalConData) : Prop := con.buffer.isSome = true ∧ con.bufferToken.isSome = true

/-- The second region and its token are set together. -/
def Paired (con : LocalConData) : Prop := con.tmpBuffer.isSome = con.tmpBufferToken.isSome

end LocalConData

namespace Server

variable {F : Type*}

/-- No entry has a null region or token; its queue pair is never null. -/
def NoNull (s : Server F) : Prop := ∀ f con, s.localCons f = some con → con.Whole

/-- `NoNull`, and no entry has one half of a second region. -/
def Sound (s : Server F) : Prop := ∀ f con, s.localCons f = some con → con.Whole ∧ con.Paired

theorem Sound.noNull {s : Server F} (h : s.Sound) : s.NoNull := fun f con hf => (h f con hf).1

/-- `existing_qps.erase(socket)` in `Run`. -/
def drop (s : Server F) (socket : ℕ) : Server F := { s with existingQps := s.existingQps.erase socket }

end Server

namespace Checked

/-- Dereference what a lookup or a pointer gives, and go on. -/
def need {β γ : Type*} (f : Fault) (x : Option β) (next : β → Except Fault γ) : Except Fault γ :=
  x.elim (.error f) next

theorem need_eq_ok {β γ : Type*} {f : Fault} {x : Option β} {next : β → Except Fault γ} {r : γ} :
    need f x next = .ok r ↔ ∃ a, x = some a ∧ next a = .ok r := by
  cases x with
  | none => exact ⟨fun h => (nomatch h), fun ⟨_, h, _⟩ => (nomatch h)⟩
  | some a => exact ⟨fun h => ⟨a, rfl, h⟩, fun ⟨b, hb, h⟩ => Option.some.inj hb ▸ h⟩

variable {F : Type*} [DecidableEq F]

/-- `handleIncomingConnection`. -/
def handleIncomingConnection (s : Server F) (addr socket : ℕ) (fileId : F) (size : ℕ) :
    Except Fault (Answered F) :=
  if s.localCons fileId = none then
    need .freeEnd (s.pool.getMRofSize size addr) fun (pool, mr) =>
    let s := { s with existingQps := s.existingQps.insert socket }
    .ok ⟨s.bind fileId socket (pool.write mr Mem.zero) mr, [(socket, some (.token mr))], false⟩
  else
    need .consEnd (s.localCons fileId) fun con =>
    need .nullToken con.bufferToken fun token =>
    let s := { s with existingQps := (s.existingQps.erase con.qp).insert socket }
    .ok ⟨s.setCon fileId { con with qp := socket, socket }, [(socket, some (.token token))], false⟩

/-- The `OPEN_FILE` branch. -/
def openFile (s : Server F) (addr socket : ℕ) (fileId : F) (size : ℕ) : Except Fault (Answered F) :=
  if s.localCons fileId ≠ none then
    need .consEnd (s.localCons fileId) fun con =>
    need .nullToken con.bufferToken fun token =>
    .ok ⟨s, [(con.qp, some (.token token))], false⟩
  else if socket ∉ s.existingQps then .ok ⟨s, [], false⟩
  else
    need .qpsEnd (s.existingQps.find? fun q => q = socket) fun qp =>
    need .freeEnd (s.pool.getMRofSize size addr) fun (pool, mr) =>
    .ok ⟨s.bind fileId qp pool mr, [(socket, some (.token mr))], false⟩

/-- The `CLOSE_FILE` branch. -/
def closeFile (s : Server F) (fileId : F) : Except Fault (Answered F) :=
  if s.localCons fileId = none then .ok ⟨s, [], false⟩
  else
    need .consEnd (s.localCons fileId) fun con =>
    need .nullBuffer con.buffer fun mr =>
    .ok ⟨s.finalize fileId mr, [], false⟩

/-- The end of the `GET_INFO` branch, `none` for a `resp` that was not assigned. -/
def sendInfo (s : Server F) (fileId : F) (resp : Option ServerResp) : Except Fault (Answered F) :=
  need .consEnd (s.localCons fileId) fun con => .ok ⟨s, [(con.qp, resp.map Reply.info)], false⟩

/-- The `GET_INFO` branch. -/
def answerInfo (s : Server F) (fileId : F) : Except Fault (Answered F) :=
  if s.localCons fileId ≠ none then
    need .consEnd (s.localCons fileId) fun con =>
    need .nullBuffer con.buffer fun mr =>
    sendInfo s fileId (some (getInfo (mr.buffer (s.pool.mem mr.addr))))
  else sendInfo s fileId none

/-- The `SYNC_PEER` branch. -/
def syncPeer (s : Server F) (addr : ℕ) (fileId : F) : Except Fault (Answered F) :=
  if s.localCons fileId = none then .ok ⟨s, [], false⟩
  else
    need .consEnd (s.localCons fileId) fun con =>
    need .nullBuffer con.buffer fun mr =>
    need .freeEnd (s.pool.getMRofSize mr.size addr) fun (pool, tmp) =>
    let con' := { con with tmpBuffer := some tmp, tmpBufferToken := some tmp }
    .ok ⟨{ s with pool }.setCon fileId con', [(con.socket, some (.token tmp))], false⟩

/-- The `SYNC_PEER_DONE` branch: after the two swaps `tmp_buffer`, which is the
old region, goes to `RecycleMR`. -/
def syncPeerDone (s : Server F) (fileId : F) : Except Fault (Answered F) :=
  if s.localCons fileId = none then .ok ⟨s, [], false⟩
  else
    need .consEnd (s.localCons fileId) fun con =>
    let con' := ⟨con.qp, con.tmpBuffer, con.tmpBufferToken, con.buffer, con.bufferToken, con.socket⟩
    need .nullBuffer con'.tmpBuffer fun mr =>
    .ok ⟨{ s with pool := s.pool.recycleMR mr }.setCon fileId con', [], false⟩

/-- `handleClientRequest` for a request received on `socket`. -/
def handleClientRequest (s : Server F) (addr socket : ℕ) (req : ClientReq F) : Except Fault (Answered F) :=
  match req.type with
  | .openFile => openFile s addr socket req.fileId req.size
  | .closeFile => closeFile s req.fileId
  | .exitProc => .ok ⟨s, [], decide (socket ∈ s.existingQps)⟩
  | .getInfo => answerInfo s req.fileId
  | .syncPeer => syncPeer s addr req.fileId
  | .syncPeerDone => syncPeerDone s req.fileId
  | .unknown => .ok ⟨s, [], false⟩

/-! ### What each branch does -/

variable {s : Server F} {addr socket : ℕ} {fileId : F} {size : ℕ} {r : Answered F}

theorem incoming_eq_ok : handleIncomingConnection s addr socket fileId size = .ok r ↔
    (s.localCons fileId = none ∧ ∃ pool mr, s.pool.getMRofSize size addr = some (pool, mr) ∧
      r = ⟨{ s with existingQps := s.existingQps.insert socket }.bind fileId socket (pool.write mr Mem.zero) mr,
        [(socket, some (.token mr))], false⟩) ∨
    ∃ con token, s.localCons fileId = some con ∧ con.bufferToken = some token ∧
      r = ⟨{ s with existingQps := (s.existingQps.erase con.qp).insert socket }.setCon fileId
        { con with qp := socket, socket }, [(socket, some (.token token))], false⟩ := by
  unfold handleIncomingConnection
  cases hcon : s.localCons fileId with
  | none => simp [need_eq_ok, eq_comm (a := r)]
  | some con => simp [need_eq_ok, eq_comm (a := r)]

theorem openFile_eq_ok : openFile s addr socket fileId size = .ok r ↔
    (∃ con token, s.localCons fileId = some con ∧ con.bufferToken = some token ∧
      r = ⟨s, [(con.qp, some (.token token))], false⟩) ∨
    (s.localCons fileId = none ∧ socket ∉ s.existingQps ∧ r = ⟨s, [], false⟩) ∨
    (s.localCons fileId = none ∧ socket ∈ s.existingQps ∧ ∃ pool mr,
      s.pool.getMRofSize size addr = some (pool, mr) ∧
      r = ⟨s.bind fileId socket pool mr, [(socket, some (.token mr))], false⟩) := by
  unfold openFile
  cases hcon : s.localCons fileId with
  | some con => simp [need_eq_ok, eq_comm (a := r)]
  | none =>
    by_cases hqp : socket ∈ s.existingQps
    · obtain ⟨q, hfind⟩ := Option.isSome_iff_exists.mp
        (List.find?_isSome (p := fun q => q = socket).mpr ⟨socket, hqp, by simp⟩)
      obtain rfl : q = socket := by simpa using List.find?_some hfind
      simp [need_eq_ok, hqp, hfind, eq_comm (a := r)]
    · simp [hqp, eq_comm (a := r)]

theorem closeFile_eq_ok : closeFile s fileId = .ok r ↔
    (s.localCons fileId = none ∧ r = ⟨s, [], false⟩) ∨
    ∃ con mr, s.localCons fileId = some con ∧ con.buffer = some mr ∧ r = ⟨s.finalize fileId mr, [], false⟩ := by
  unfold closeFile
  cases hcon : s.localCons fileId with
  | none => simp [eq_comm (a := r)]
  | some con => simp [need_eq_ok, eq_comm (a := r)]

omit [DecidableEq F] in
/-- Without an entry nothing is assigned, and then the end is dereferenced. -/
theorem answerInfo_eq_ok : answerInfo s fileId = .ok r ↔ ∃ con mr, s.localCons fileId = some con ∧
    con.buffer = some mr ∧ r = ⟨s, [(con.qp, some (.info (getInfo (mr.buffer (s.pool.mem mr.addr)))))], false⟩ := by
  unfold answerInfo sendInfo
  cases hcon : s.localCons fileId with
  | none => simp [need_eq_ok]
  | some con => simp [need_eq_ok, eq_comm (a := r)]

theorem syncPeer_eq_ok : syncPeer s addr fileId = .ok r ↔
    (s.localCons fileId = none ∧ r = ⟨s, [], false⟩) ∨
    ∃ con mr pool tmp, s.localCons fileId = some con ∧ con.buffer = some mr ∧
      s.pool.getMRofSize mr.size addr = some (pool, tmp) ∧
      r = ⟨{ s with pool }.setCon fileId { con with tmpBuffer := some tmp, tmpBufferToken := some tmp },
        [(con.socket, some (.token tmp))], false⟩ := by
  unfold syncPeer
  cases hcon : s.localCons fileId with
  | none => simp [eq_comm (a := r)]
  | some con => simp [need_eq_ok, eq_comm (a := r)]

theorem syncPeerDone_eq_ok : syncPeerDone s fileId = .ok r ↔
    (s.localCons fileId = none ∧ r = ⟨s, [], false⟩) ∨
    ∃ con mr, s.localCons fileId = some con ∧ con.buffer = some mr ∧
      r = ⟨{ s with pool := s.pool.recycleMR mr }.setCon fileId
        ⟨con.qp, con.tmpBuffer, con.tmpBufferToken, con.buffer, con.bufferToken, con.socket⟩, [], false⟩ := by
  unfold syncPeerDone
  cases hcon : s.localCons fileId with
  | none => simp [eq_comm (a := r)]
  | some con => simp [need_eq_ok, eq_comm (a := r)]

/-! ### The two models -/

theorem incoming_refines (h : handleIncomingConnection s addr socket fileId size = .ok r) :
    ∃ t, s.handleIncomingConnection addr socket fileId size = some t ∧ r = t.answered := by
  unfold Server.handleIncomingConnection
  rcases incoming_eq_ok.mp h with ⟨hcon, pool, mr, hget, rfl⟩ | ⟨con, token, hcon, htoken, rfl⟩
  · exact ⟨_, by rw [hcon, hget], rfl⟩
  · exact ⟨_, by rw [hcon]; simp only [htoken]; rfl, by simp only [htoken]; rfl⟩

theorem openFile_refines (h : openFile s addr socket fileId size = .ok r) :
    ∃ t, s.openFile addr socket fileId size = some t ∧ r = t.answered := by
  unfold Server.openFile
  rcases openFile_eq_ok.mp h with ⟨con, token, hcon, htoken, rfl⟩ | ⟨hcon, hqp, rfl⟩ | ⟨hcon, hqp, pool, mr, hget, rfl⟩
  · exact ⟨_, by rw [hcon], by simp [Handled.answered, htoken]⟩
  · exact ⟨_, by rw [hcon]; exact if_neg hqp, rfl⟩
  · exact ⟨_, by rw [hcon, hget]; exact if_pos hqp, rfl⟩

theorem closeFile_refines (h : closeFile s fileId = .ok r) :
    ∃ t, s.closeFile fileId = some t ∧ r = t.answered := by
  unfold Server.closeFile
  rcases closeFile_eq_ok.mp h with ⟨hcon, rfl⟩ | ⟨con, mr, hcon, hmr, rfl⟩
  · exact ⟨_, by rw [hcon], rfl⟩
  · exact ⟨_, by rw [hcon]; simp only [hmr]; rfl, rfl⟩

omit [DecidableEq F] in
theorem answerInfo_refines (h : answerInfo s fileId = .ok r) :
    ∃ t, s.answerInfo fileId = some t ∧ r = t.answered := by
  unfold Server.answerInfo
  obtain ⟨con, mr, hcon, hmr, rfl⟩ := answerInfo_eq_ok.mp h
  exact ⟨_, by rw [hcon]; simp only [hmr]; rfl, rfl⟩

theorem syncPeer_refines (h : syncPeer s addr fileId = .ok r) :
    ∃ t, s.syncPeer addr fileId = some t ∧ r = t.answered := by
  unfold Server.syncPeer
  rcases syncPeer_eq_ok.mp h with ⟨hcon, rfl⟩ | ⟨con, mr, pool, tmp, hcon, hmr, hget, rfl⟩
  · exact ⟨_, by rw [hcon], rfl⟩
  · exact ⟨_, by rw [hcon]; simp only [hmr, hget]; rfl, by simp only [hmr]; rfl⟩

theorem syncPeerDone_refines (h : syncPeerDone s fileId = .ok r) :
    ∃ t, s.syncPeerDone fileId = some t ∧ r = t.answered := by
  unfold Server.syncPeerDone
  rcases syncPeerDone_eq_ok.mp h with ⟨hcon, rfl⟩ | ⟨con, mr, hcon, hmr, rfl⟩
  · exact ⟨_, by rw [hcon], rfl⟩
  · exact ⟨_, by rw [hcon]; simp only [hmr]; rfl, by simp only [hmr]; rfl⟩

/-- **Where nothing fails** the server does what `Serve.lean` says, and every
reply was assigned. -/
theorem handleClientRequest_refines {req : ClientReq F} (h : handleClientRequest s addr socket req = .ok r) :
    ∃ t, s.handleClientRequest addr socket req = some t ∧ r = t.answered := by
  unfold handleClientRequest at h
  unfold Server.handleClientRequest
  cases hty : req.type with
  | openFile => exact openFile_refines (by simpa only [hty] using h)
  | closeFile => exact closeFile_refines (by simpa only [hty] using h)
  | getInfo => exact answerInfo_refines (by simpa only [hty] using h)
  | syncPeer => exact syncPeer_refines (by simpa only [hty] using h)
  | syncPeerDone => exact syncPeerDone_refines (by simpa only [hty] using h)
  | exitProc =>
    simp only [hty] at h
    cases h
    exact ⟨_, rfl, rfl⟩
  | unknown =>
    simp only [hty] at h
    cases h
    exact ⟨_, rfl, rfl⟩

/-! ### Entries -/

theorem sound_setCon (h : s.Sound) {con : LocalConData} (hw : con.Whole) (hp : con.Paired) :
    (s.setCon fileId con).Sound := by
  intro f con' hf
  by_cases hff : f = fileId
  · have hself : (s.setCon fileId con).localCons f = some con := hff ▸ Function.update_self fileId _ _
    obtain rfl := Option.some.inj (hself.symm.trans hf)
    exact ⟨hw, hp⟩
  · have hother : (s.setCon fileId con).localCons f = s.localCons f := Function.update_of_ne hff _ _
    exact h f con' (hother ▸ hf)

theorem sound_bind (h : s.Sound) (pool : MrPool) (mr : Mr) : (s.bind fileId socket pool mr).Sound :=
  sound_setCon (s := { s with pool }) h ⟨rfl, rfl⟩ rfl

theorem sound_finalize (h : s.Sound) (mr : Mr) : (s.finalize fileId mr).Sound := by
  intro f con hf
  by_cases hff : f = fileId
  · have hself : (s.finalize fileId mr).localCons f = none := hff ▸ Function.update_self fileId _ _
    exact absurd (hself.symm.trans hf) (by simp)
  · have hother : (s.finalize fileId mr).localCons f = s.localCons f := Function.update_of_ne hff _ _
    exact h f con (hother ▸ hf)

/-- A region is handed out exactly by an adequate pool. -/
theorem adequate_iff {p : MrPool} : p.Adequate size ↔ ∃ pool mr, p.getMRofSize size addr = some (pool, mr) := by
  refine ⟨fun h => h.getMRofSize addr, fun ⟨pool, mr, hget⟩ => ?_⟩
  rcases MrPool.getMRofSize_cases hget with ⟨hnil, -, -⟩ | ⟨hmem, hle, -⟩
  · exact .inl hnil
  · exact .inr ⟨mr, hmem, hle⟩

/-- The server gets through the event without a fault, and afterwards `P` holds. -/
def Ends (P : Server F → Prop) (x : Except Fault (Answered F)) : Prop := ∃ r, x = .ok r ∧ P r.server

/-! ### Which requests each branch survives -/

theorem incoming_ends (h : s.Sound) (hw : s.localCons fileId ≠ none ∨ s.pool.Adequate size) :
    Ends Server.Sound (handleIncomingConnection s addr socket fileId size) := by
  cases hcon : s.localCons fileId with
  | none =>
    obtain ⟨pool, mr, hget⟩ := adequate_iff.mp (hw.resolve_left (not_not.mpr hcon))
    exact ⟨_, incoming_eq_ok.mpr (.inl ⟨hcon, pool, mr, hget, rfl⟩),
      sound_bind (s := { s with existingQps := _ }) h (pool.write mr Mem.zero) mr⟩
  | some con =>
    obtain ⟨hwhole, hpair⟩ := h fileId con hcon
    obtain ⟨token, htoken⟩ := Option.isSome_iff_exists.mp hwhole.2
    exact ⟨_, incoming_eq_ok.mpr (.inr ⟨con, token, hcon, htoken, rfl⟩),
      sound_setCon (s := { s with existingQps := _ }) h hwhole hpair⟩

theorem openFile_ends (h : s.Sound)
    (hw : s.localCons fileId ≠ none ∨ socket ∉ s.existingQps ∨ s.pool.Adequate size) :
    Ends Server.Sound (openFile s addr socket fileId size) := by
  cases hcon : s.localCons fileId with
  | none =>
    by_cases hqp : socket ∈ s.existingQps
    · have ha := (hw.resolve_left (not_not.mpr hcon)).resolve_left (not_not.mpr hqp)
      obtain ⟨pool, mr, hget⟩ := adequate_iff.mp ha
      exact ⟨_, openFile_eq_ok.mpr (.inr (.inr ⟨hcon, hqp, pool, mr, hget, rfl⟩)), sound_bind h pool mr⟩
    · exact ⟨_, openFile_eq_ok.mpr (.inr (.inl ⟨hcon, hqp, rfl⟩)), h⟩
  | some con =>
    obtain ⟨token, htoken⟩ := Option.isSome_iff_exists.mp (h fileId con hcon).1.2
    exact ⟨_, openFile_eq_ok.mpr (.inl ⟨con, token, hcon, htoken, rfl⟩), h⟩

theorem closeFile_ends (h : s.Sound) : Ends Server.Sound (closeFile s fileId) := by
  cases hcon : s.localCons fileId with
  | none => exact ⟨_, closeFile_eq_ok.mpr (.inl ⟨hcon, rfl⟩), h⟩
  | some con =>
    obtain ⟨mr, hmr⟩ := Option.isSome_iff_exists.mp (h fileId con hcon).1.1
    exact ⟨_, closeFile_eq_ok.mpr (.inr ⟨con, mr, hcon, hmr, rfl⟩), sound_finalize h mr⟩

omit [DecidableEq F] in
theorem answerInfo_ends (h : s.Sound) (hw : s.localCons fileId ≠ none) :
    Ends Server.Sound (answerInfo s fileId) := by
  obtain ⟨con, hcon⟩ := Option.ne_none_iff_exists'.mp hw
  obtain ⟨mr, hmr⟩ := Option.isSome_iff_exists.mp (h fileId con hcon).1.1
  exact ⟨_, answerInfo_eq_ok.mpr ⟨con, mr, hcon, hmr, rfl⟩, h⟩

theorem syncPeer_ends (h : s.Sound) (hw : ∀ mr ∈ s.region fileId, s.pool.Adequate mr.size) :
    Ends Server.Sound (syncPeer s addr fileId) := by
  cases hcon : s.localCons fileId with
  | none => exact ⟨_, syncPeer_eq_ok.mpr (.inl ⟨hcon, rfl⟩), h⟩
  | some con =>
    obtain ⟨hwhole, -⟩ := h fileId con hcon
    obtain ⟨mr, hmr⟩ := Option.isSome_iff_exists.mp hwhole.1
    obtain ⟨pool, tmp, hget⟩ := adequate_iff.mp (hw mr (by rw [Server.region, hcon]; exact hmr))
    exact ⟨_, syncPeer_eq_ok.mpr (.inr ⟨con, mr, pool, tmp, hcon, hmr, hget, rfl⟩),
      sound_setCon (s := { s with pool := _ }) h hwhole rfl⟩

/-- The second region must be there before it takes the place of the first. -/
theorem syncPeerDone_ends (h : s.Sound) (hw : ∀ con ∈ s.localCons fileId, con.tmpBuffer.isSome = true) :
    Ends Server.Sound (syncPeerDone s fileId) := by
  cases hcon : s.localCons fileId with
  | none => exact ⟨_, syncPeerDone_eq_ok.mpr (.inl ⟨hcon, rfl⟩), h⟩
  | some con =>
    obtain ⟨hwhole, hpair⟩ := h fileId con hcon
    obtain ⟨mr, hmr⟩ := Option.isSome_iff_exists.mp hwhole.1
    have htmp := hw con hcon
    exact ⟨_, syncPeerDone_eq_ok.mpr (.inr ⟨con, mr, hcon, hmr, rfl⟩),
      sound_setCon (s := { s with pool := _ }) h ⟨htmp, hpair ▸ htmp⟩ (hwhole.1.trans hwhole.2.symm)⟩

/-- Otherwise the entry is left with null pointers. -/
theorem tmp_of_syncPeerDone_ends (hx : Ends Server.NoNull (syncPeerDone s fileId)) :
    ∀ con ∈ s.localCons fileId, con.tmpBuffer.isSome = true := by
  intro con hcon
  obtain ⟨r, hr, hnull⟩ := hx
  rcases syncPeerDone_eq_ok.mp hr with ⟨hnone, -⟩ | ⟨con', mr, hcon', -, rfl⟩
  · exact absurd (hnone.symm.trans hcon) (by simp)
  · obtain rfl := Option.some.inj (hcon'.symm.trans hcon)
    exact (hnull fileId _ (Function.update_self fileId _ _)).1

/-! ### Runs -/

/-- What reaches the server: a connection for a file, a request on a connection,
and the end of a connection. `addr` is the address of a region if one is
created. -/
inductive Event (F : Type*) where
  | connect (addr socket : ℕ) (fileId : F) (size : ℕ)
  | request (addr socket : ℕ) (req : ClientReq F)
  | hangUp (socket : ℕ)

/-- A server with this pool and no files. -/
def start (p : MrPool) : Server F := ⟨[], p, fun _ => none⟩

/-- One event in `Run`. -/
def handle (s : Server F) : Event F → Except Fault (Answered F)
  | .connect addr socket fileId size => handleIncomingConnection s addr socket fileId size
  | .request addr socket req =>
    (handleClientRequest s addr socket req).map fun r =>
      { r with server := if r.dropped then r.server.drop socket else r.server }
  | .hangUp socket => .ok ⟨s.drop socket, [], true⟩

/-- The server after the event; a fault is the end of it. -/
def step (s : Server F) (e : Event F) : Option (Server F) := (handle s e).toOption.map Answered.server

/-- The server survives the event: no fault, no entry left with a null pointer,
and every reply assigned. -/
def Survives (s : Server F) (e : Event F) : Prop :=
  ∃ r, handle s e = .ok r ∧ r.server.NoNull ∧ ∀ p ∈ r.sent, p.2.isSome = true

/-- The request can be served: a new file finds a region, `GET_INFO` is for a
file with an entry, `SYNC_PEER` finds a second region of the same size, and
`SYNC_PEER_DONE` is for a file whose `tmp_buffer` is set. -/
def WelcomeRequest (s : Server F) (socket : ℕ) (req : ClientReq F) : Prop :=
  match req.type with
  | .openFile => s.localCons req.fileId ≠ none ∨ socket ∉ s.existingQps ∨ s.pool.Adequate req.size
  | .getInfo => s.localCons req.fileId ≠ none
  | .syncPeer => ∀ mr ∈ s.region req.fileId, s.pool.Adequate mr.size
  | .syncPeerDone => ∀ con ∈ s.localCons req.fileId, con.tmpBuffer.isSome = true
  | _ => True

/-- The same for an event. -/
def Welcome (s : Server F) : Event F → Prop
  | .connect _ _ fileId size => s.localCons fileId ≠ none ∨ s.pool.Adequate size
  | .request _ socket req => WelcomeRequest s socket req
  | .hangUp _ => True

instance (p : MrPool) (size : ℕ) : Decidable (p.Adequate size) := inferInstanceAs (Decidable (_ ∨ _))

instance (s : Server F) (socket : ℕ) : ∀ req, Decidable (WelcomeRequest s socket req)
  | ⟨.openFile, _, _⟩ => inferInstanceAs (Decidable (_ ∨ _))
  | ⟨.getInfo, _, _⟩ => inferInstanceAs (Decidable (_ ≠ _))
  | ⟨.syncPeer, _, _⟩ => inferInstanceAs (Decidable (∀ mr ∈ _, _))
  | ⟨.syncPeerDone, _, _⟩ => inferInstanceAs (Decidable (∀ con ∈ _, _))
  | ⟨.closeFile, _, _⟩ => instDecidableTrue
  | ⟨.exitProc, _, _⟩ => instDecidableTrue
  | ⟨.unknown, _, _⟩ => instDecidableTrue

instance (s : Server F) : ∀ e, Decidable (Welcome s e)
  | .connect .. => inferInstanceAs (Decidable (_ ∨ _))
  | .request _ socket req => inferInstanceAs (Decidable (WelcomeRequest s socket req))
  | .hangUp _ => instDecidableTrue

/-- A welcome request is served, and the entries stay sound. -/
theorem request_ends (h : s.Sound) {req : ClientReq F} (hw : WelcomeRequest s socket req) :
    Ends Server.Sound (handleClientRequest s addr socket req) := by
  obtain ⟨type, fileId, size⟩ := req
  cases type with
  | openFile => exact openFile_ends h hw
  | closeFile => exact closeFile_ends h
  | exitProc => exact ⟨_, rfl, h⟩
  | getInfo => exact answerInfo_ends h hw
  | syncPeer => exact syncPeer_ends h hw
  | syncPeerDone => exact syncPeerDone_ends h hw
  | unknown => exact ⟨_, rfl, h⟩

/-- A request that is served without leaving a null pointer was welcome. -/
theorem welcome_of_request_ends {req : ClientReq F}
    (hx : Ends Server.NoNull (handleClientRequest s addr socket req)) : WelcomeRequest s socket req := by
  obtain ⟨type, fileId, size⟩ := req
  cases type with
  | openFile =>
    obtain ⟨r, hr, -⟩ := hx
    rcases openFile_eq_ok.mp hr with ⟨con, -, hcon, -⟩ | ⟨-, hqp, -⟩ | ⟨-, -, pool, mr, hget, -⟩
    · exact .inl (by rw [hcon]; simp)
    · exact .inr (.inl hqp)
    · exact .inr (.inr (adequate_iff.mpr ⟨pool, mr, hget⟩))
  | getInfo =>
    obtain ⟨r, hr, -⟩ := hx
    obtain ⟨con, -, hcon, -⟩ := answerInfo_eq_ok.mp hr
    exact Option.ne_none_iff_exists'.mpr ⟨con, hcon⟩
  | syncPeer =>
    obtain ⟨r, hr, -⟩ := hx
    rintro mr hmr
    rcases syncPeer_eq_ok.mp hr with ⟨hcon, -⟩ | ⟨con, mr', pool, tmp, hcon, hmr', hget, -⟩
    · exact absurd ((Server.region_of_none hcon).symm.trans hmr) (by simp)
    · have hregion : s.region fileId = some mr' := by rw [Server.region, hcon]; exact hmr'
      obtain rfl := Option.some.inj (hregion.symm.trans hmr)
      exact adequate_iff.mpr ⟨pool, tmp, hget⟩
  | syncPeerDone => exact tmp_of_syncPeerDone_ends hx
  | closeFile => trivial
  | exitProc => trivial
  | unknown => trivial

/-- A welcome event is survived, and the entries stay sound. -/
theorem handle_of_welcome (h : s.Sound) {e : Event F} (hw : Welcome s e) :
    ∃ r, handle s e = .ok r ∧ r.server.Sound ∧ ∀ p ∈ r.sent, p.2.isSome = true := by
  cases e with
  | connect addr socket fileId size =>
    obtain ⟨r, hr, hs⟩ : Ends Server.Sound (handleIncomingConnection s addr socket fileId size) := incoming_ends h hw
    obtain ⟨t, -, rfl⟩ := incoming_refines hr
    exact ⟨_, hr, hs, t.assigned⟩
  | request addr socket req =>
    obtain ⟨r, hr, hs⟩ : Ends Server.Sound (handleClientRequest s addr socket req) := request_ends h hw
    obtain ⟨t, -, rfl⟩ := handleClientRequest_refines hr
    refine ⟨{ t.answered with server := if t.dropped then t.server.drop socket else t.server },
      by rw [handle, hr]; rfl, ?_, t.assigned⟩
    show Server.Sound (if t.dropped then t.server.drop socket else t.server)
    split <;> exact hs
  | hangUp socket => exact ⟨_, rfl, h, fun p hp => absurd hp List.not_mem_nil⟩

/-- An event that is survived was welcome. -/
theorem welcome_of_survives {e : Event F} (hx : Survives s e) : Welcome s e := by
  obtain ⟨r, hr, hnull, -⟩ := hx
  cases e with
  | connect addr socket fileId size =>
    rcases incoming_eq_ok.mp hr with ⟨-, pool, mr, hget, -⟩ | ⟨con, -, hcon, -⟩
    · exact .inr (adequate_iff.mpr ⟨pool, mr, hget⟩)
    · exact .inl (by rw [hcon]; simp)
  | request addr socket req =>
    cases hx : handleClientRequest s addr socket req with
    | error f =>
      rw [handle, hx] at hr
      cases hr
    | ok r' =>
      rw [handle, hx] at hr
      cases hr
      have hends : Ends Server.NoNull (handleClientRequest s addr socket req) := by
        -- dropping the socket leaves the entries alone
        change (if r'.dropped then r'.server.drop socket else r'.server).NoNull at hnull
        refine ⟨r', hx, ?_⟩
        split at hnull <;> exact hnull
      exact welcome_of_request_ends hends
  | hangUp socket => trivial

theorem sound_of_reach {p : MrPool} {s : Server F} (hs : Trace.Reach (Trace.restrict Welcome step) (start p) s) :
    s.Sound := by
  refine hs.inv_restrict (fun f con hf => absurd hf (by simp [start])) fun s e t h hw he => ?_
  obtain ⟨r, hr, hsound, -⟩ := handle_of_welcome h hw
  rw [step, hr] at he
  cases he
  exact hsound

/-- **What the server survives.** In every run of welcome events no entry has a
null pointer, and in each of its states the events that the server
survives are the welcome ones. -/
theorem survives_requests (p : MrPool) {s : Server F}
    (hs : Trace.Reach (Trace.restrict Welcome step) (start p) s) :
    s.NoNull ∧ ∀ e, Survives s e ↔ Welcome s e := by
  have hsound := sound_of_reach hs
  refine ⟨hsound.noNull, fun e => ⟨welcome_of_survives, fun hw => ?_⟩⟩
  obtain ⟨r, hr, hr', hall⟩ := handle_of_welcome hsound hw
  exact ⟨r, hr, hr'.noNull, hall⟩

/-- A file is opened, asked for, synchronised and closed. -/
theorem survives_requests_one : ∃ s : Server ℕ, Trace.Reach (Trace.restrict Welcome step) (start .empty) s ∧
    s.existingQps = [5] ∧ s.NoNull ∧ Survives s (.request 2 5 ⟨.closeFile, 7, 0⟩) := by
  have hrun : ∃ s : Server ℕ, Trace.Reach (Trace.restrict Welcome step) (start .empty) s ∧
      s.existingQps = [5] ∧ Welcome s (.request 2 5 ⟨.closeFile, 7, 0⟩) :=
    Trace.exists_reach_of_exec
      [.connect 0 5 7 16, .request 1 5 ⟨.getInfo, 7, 0⟩, .request 1 5 ⟨.syncPeer, 7, 16⟩,
        .request 2 5 ⟨.syncPeerDone, 7, 16⟩] (by decide)
  obtain ⟨s, hs, hqp, hw⟩ := hrun
  have hsurv := survives_requests .empty hs
  exact ⟨s, hs, hqp, hsurv.1, (hsurv.2 _).mpr hw⟩

/-- `GET_INFO` for a file that was never opened dereferences the end of
`local_cons`; and after a `SYNC_PEER_DONE` without a `SYNC_PEER` the entry
has null pointers, which the next `GET_INFO` uses. -/
theorem server_falls :
    ¬ Survives (start .empty : Server ℕ) (.request 0 5 ⟨.getInfo, 7, 0⟩) ∧
    handle (start .empty : Server ℕ) (.request 0 5 ⟨.getInfo, 7, 0⟩) = .error .consEnd ∧
    ∃ s : Server ℕ, Trace.Reach step (start .empty) s ∧ ¬ s.NoNull ∧
      handle s (.request 1 5 ⟨.getInfo, 7, 0⟩) = .error .nullBuffer := by
  have hrun : Trace.exec step (start .empty : Server ℕ)
      [.connect 0 5 7 16, .request 1 5 ⟨.syncPeerDone, 7, 16⟩] = some _ := rfl
  exact ⟨fun ⟨_, h, _⟩ => (nomatch h), rfl, _, Trace.reach_of_exec .init hrun,
    fun h => absurd (h 7 _ rfl).1 (by decide), rfl⟩

end Checked
end ComputeSideLog
