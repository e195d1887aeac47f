/-
# Requests on the wire

`src/rdma/common.h` lays out what client and server exchange: `ClientReq` is
an `int` and a packed `FileInfo`, a size, an array of 512 characters for the
identifier of the file, and an epoch. A client fills such a struct on its
stack, in parts only: it copies the identifier with `strcpy`, and what it does
not set stays as it was. The server receives the struct as bytes into one of
its own and takes the identifier up to the first zero byte. `getFileIdentifier`
(`src/rdma/client.h`) puts the address of the host before the name of the
file, with a colon between them.

Every function that sends a request is here, and what the server reads is
what it meant, whatever was on either stack (`Wire.Sent.WellFormed.decode_fill`).
An identifier of 512 bytes or more does not fit (`Wire.strcpy`, the buffer is
overrun). Identifiers of different files or hosts are different
(`Wire.identifier_inj`). So a stream of requests that is received in whole
structs is the sequence of requests that were sent (`Wire.stream_decoded`).

Key definitions: `Wire.strcpy`, `Wire.Sent.fill`, `Wire.Sent.req`, `Wire.decode`,
`Wire.receive`.
Key theorems: `Wire.cstr_strcpy`, `Wire.identifier_inj`, `Wire.stream_decoded`.
-/
import Mathlib.Data.List.TakeWhile
import ComputeSideLog.Serve

namespace ComputeSideLog
namespace Wire

/-- A string as bytes, without its closing zero. -/
abbrev Bytes := List UInt8

/-- `MAX_FILE_ID_LENGTH`. -/
def maxFileIdLength : ℕ := 512

/-- The offsets of `FileInfo` in a struct: `size`, `file_id`, `epoch`. `base` is 4 in a
`ClientReq` and 0 in a `FileInfo` of its own. -/
def sizeOff (base : ℕ) : ℕ := base
def fileIdOff (base : ℕ) : ℕ := base + 8
def epochOff (base : ℕ) : ℕ := base + 8 + maxFileIdLength

/-- `sizeof(ClientReq)`. -/
def reqSize : ℕ := 532

/-- The numbers of the request types. -/
def ReqType.code : ReqType → ℕ
  | .openFile => 1
  | .closeFile => 2
  | .exitProc => 3
  | .getInfo => 4
  | .syncPeer => 5
  | .syncPeerDone => 6
  | .unknown => 0

/-- The `switch` over `req.type`. -/
def typeOf : ℕ → ReqType
  | 1 => .openFile
  | 2 => .closeFile
  | 3 => .exitProc
  | 4 => .getInfo
  | 5 => .syncPeer
  | 6 => .syncPeerDone
  | _ => .unknown

/-! ### What the clients fill in -/

/-- `strcpy` into the array of a struct, `none` if it runs over its end. -/
def strcpy (m : Mem) (off : ℕ) (s : Bytes) : Option Mem :=
  if s.length < maxFileIdLength then some (m.write off (s ++ [0])) else none

/-- The request of `SendFinalization`. -/
def sendFinalization (stack : Mem) (type : ReqType) (fileId : Bytes) : Option Mem :=
  (strcpy stack (fileIdOff 4) fileId).map fun m => m.putLE 0 4 (ReqType.code type)

/-- The request of `SetFileInfo`. -/
def setFileInfo (stack : Mem) (size : ℕ) (fileId : Bytes) : Option Mem :=
  strcpy ((stack.putLE 0 4 1).putLE (sizeOff 4) 8 size) (fileIdOff 4) fileId

/-- The request of `getRecoverSrcPeer`. -/
def getInfoReq (stack : Mem) (fileId : Bytes) : Option Mem :=
  strcpy ((stack.putLE 0 4 4).putLE (sizeOff 4) 8 0) (fileIdOff 4) fileId

/-- The `FileInfo` of `AddPeer`. -/
def fileInfo (stack : Mem) (size epoch : ℕ) (fileId : Bytes) : Option Mem :=
  strcpy ((stack.putLE (sizeOff 0) 8 size).putLE (epochOff 0) 8 epoch) (fileIdOff 0) fileId

/-- The request that `GetQpTo` makes of it for an idle queue pair: the array is
copied whole. -/
def openReq (stack fi : Mem) : Mem :=
  let m := ((stack.putLE 0 4 1).putLE (sizeOff 4) 8 (fi.getLE (sizeOff 0) 8)).putLE (epochOff 4) 8
    (fi.getLE (epochOff 0) 8)
  fun x => if fileIdOff 4 ≤ x ∧ x < fileIdOff 4 + maxFileIdLength then fi (x - 4) else m x

/-! ### What the server reads -/

/-- A string that starts at `off`, `none` if it does not end in the next `n` bytes. -/
def cstr (m : Mem) (off : ℕ) : ℕ → Option Bytes
  | 0 => none
  | n + 1 => if m off = 0 then some [] else (cstr m (off + 1) n).map (m off :: ·)

/-- The request in the server's `req`, `none` if the string runs over its end. -/
def decode (m : Mem) : Option (ClientReq Bytes) :=
  (cstr m (fileIdOff 4) (reqSize - fileIdOff 4)).map fun fileId =>
    ⟨typeOf (m.getLE 0 4), fileId, m.getLE (sizeOff 4) 8⟩

/-! ### What travels -/

/-- `getFileIdentifier`: the address of the host and the name of the file, with a colon
between them. -/
def identifier (ip filename : Bytes) : Bytes := ip ++ 58 :: filename

/-- The functions that send a request, with what each one sets. -/
inductive Sender where
  | sendFinalization (type : ReqType)
  | setFileInfo (size : ℕ)
  | getRecoverSrcPeer
  | getQpTo (size epoch : ℕ)

/-- A request that is sent: by whom, of which file, and what was on the stacks of the
sender and of its caller. -/
structure Sent where
  sender : Sender
  ip : Bytes
  filename : Bytes
  stack : Mem
  stack' : Mem

namespace Sent

def fileId (s : Sent) : Bytes := identifier s.ip s.filename

/-- The struct that is sent. -/
def fill (s : Sent) : Option Mem :=
  match s.sender with
  | .sendFinalization type => Wire.sendFinalization s.stack type s.fileId
  | .setFileInfo size => Wire.setFileInfo s.stack size s.fileId
  | .getRecoverSrcPeer => getInfoReq s.stack s.fileId
  | .getQpTo size epoch => (fileInfo s.stack' size epoch s.fileId).map (openReq s.stack)

/-- What it asks for. `SendFinalization` sets no size. -/
def req (s : Sent) : ClientReq Bytes :=
  match s.sender with
  | .sendFinalization type => ⟨type, s.fileId, s.stack.getLE (sizeOff 4) 8⟩
  | .setFileInfo size => ⟨.openFile, s.fileId, size⟩
  | .getRecoverSrcPeer => ⟨.getInfo, s.fileId, 0⟩
  | .getQpTo size _ => ⟨.openFile, s.fileId, size⟩

/-- `send` of the struct. -/
def bytes (s : Sent) : Option Bytes := s.fill.map fun m => (List.range reqSize).map m

/-- Strings without a zero byte, an address without a colon, a size of 64 bits. -/
structure WellFormed (s : Sent) : Prop where
  ip_zero : (0 : UInt8) ∉ s.ip
  ip_colon : (58 : UInt8) ∉ s.ip
  filename_zero : (0 : UInt8) ∉ s.filename
  size_lt : s.req.size < 256 ^ 8

end Sent

/-- The calls of `handleClientRequest` on one socket: `recv` of a whole struct into
its `req`, which is not initialized. -/
def receive : List Mem → Bytes → List (Option (ClientReq Bytes))
  | [], _ => []
  | req :: reqs, stream => decode (req.write 0 (stream.take reqSize)) :: receive reqs (stream.drop reqSize)

/-! ### Strings -/

variable {m stack : Mem} {off : ℕ} {fileId : Bytes}

theorem cstr_congr {m' : Mem} {n : ℕ} (h : ∀ x, off ≤ x → x < off + n → m x = m' x) : cstr m off n = cstr m' off n := by
  induction n generalizing off with
  | zero => rfl
  | succ n ih =>
    have hhead : m off = m' off := h off le_rfl (by omega)
    have htail : cstr m (off + 1) n = cstr m' (off + 1) n := ih fun x h1 h2 => h x (by omega) (by omega)
    simp only [cstr, hhead, htail]

/-- A string is read back up to its zero byte. -/
theorem cstr_of_bytes {n : ℕ} (h0 : (0 : UInt8) ∉ fileId) (hlen : fileId.length < n)
    (hm : ∀ i, i < fileId.length + 1 → m (off + i) = (fileId ++ [0]).getD i 0) : cstr m off n = some fileId := by
  induction fileId generalizing off n with
  | nil =>
    obtain ⟨n, rfl⟩ := Nat.exists_eq_add_of_lt hlen
    have hz : m off = 0 := hm 0 (by simp)
    simp [cstr, hz]
  | cons b bs ih =>
    obtain ⟨n, rfl⟩ : ∃ k, n = k + 1 := ⟨n - 1, by simp at hlen; omega⟩
    have hb : m off = b := hm 0 (by simp)
    have hne : b ≠ 0 := fun he => h0 (he ▸ List.mem_cons_self)
    have htail : cstr m (off + 1) n = some bs := by
      refine ih (fun hmem => h0 (List.mem_cons_of_mem _ hmem)) (by simpa using hlen) fun i hi => ?_
      rw [Nat.add_assoc, Nat.add_comm 1 i]
      exact hm (i + 1) (by simpa using hi)
    rw [cstr, if_neg (by rw [hb]; exact hne), htail, hb]
    rfl

/-- What `strcpy` copied is read back, whatever lies behind it. -/
theorem cstr_strcpy {m' : Mem} {n : ℕ} (h0 : (0 : UInt8) ∉ fileId) (h : strcpy m off fileId = some m')
    (hn : maxFileIdLength ≤ n) : cstr m' off n = some fileId := by
  simp only [strcpy, Option.ite_none_right_eq_some, Option.some.injEq] at h
  obtain ⟨hlen, rfl⟩ := h
  refine cstr_of_bytes h0 (hlen.trans_le hn) fun i hi => ?_
  rw [Mem.write_in (by simp; omega), Nat.add_sub_cancel_left]

/-- Outside of the array nothing changes. -/
theorem strcpy_out {m' : Mem} (h : strcpy m off fileId = some m') {x : ℕ} (hx : x < off ∨ off + maxFileIdLength ≤ x) :
    m' x = m x := by
  simp only [strcpy, Option.ite_none_right_eq_some, Option.some.injEq] at h
  obtain ⟨hlen, rfl⟩ := h
  exact Mem.write_out (by simp; omega)

theorem typeOf_code (type : ReqType) : typeOf (ReqType.code type) = type := by
  cases type <;> rfl

theorem getLE_putLE_of_lt {v w : ℕ} (hv : v < 256 ^ w) : (m.putLE off w v).getLE off w = v := by
  rw [Mem.getLE_putLE, Nat.mod_eq_of_lt hv]

/-- A word that a store elsewhere leaves alone. -/
theorem getLE_putLE_other {off' w w' v : ℕ} (h : off' + w' ≤ off ∨ off + w ≤ off') :
    (m.putLE off w v).getLE off' w' = m.getLE off' w' :=
  Mem.getLE_congr fun x h1 h2 => Mem.putLE_out (by omega)

theorem getLE_strcpy {m' : Mem} (h : strcpy m off fileId = some m') {off' w : ℕ} (ho : off' + w ≤ off) :
    m'.getLE off' w = m.getLE off' w :=
  Mem.getLE_congr fun x _ h2 => strcpy_out h (.inl (by omega))

/-! ### Round trips -/

/-- What the server reads of a struct whose type and size are set and whose array
holds the identifier. -/
theorem decode_of {type : ReqType} (hid : cstr m (fileIdOff 4) (reqSize - fileIdOff 4) = some fileId)
    (htype : m.getLE 0 4 = ReqType.code type) : decode m = some ⟨type, fileId, m.getLE (sizeOff 4) 8⟩ := by
  rw [decode, hid, htype, typeOf_code]
  rfl

theorem decode_sendFinalization {type : ReqType} (h0 : (0 : UInt8) ∉ fileId)
    (h : sendFinalization stack type fileId = some m) : decode m = some ⟨type, fileId, stack.getLE (sizeOff 4) 8⟩ := by
  simp only [sendFinalization, Option.map_eq_some_iff] at h
  obtain ⟨m₁, hm₁, rfl⟩ := h
  have hid : cstr m₁ (fileIdOff 4) (reqSize - fileIdOff 4) = some fileId := cstr_strcpy h0 hm₁ (by decide)
  have hsize : (m₁.putLE 0 4 (ReqType.code type)).getLE (sizeOff 4) 8 = stack.getLE (sizeOff 4) 8 := by
    rw [getLE_putLE_other (by decide), getLE_strcpy hm₁ (by decide)]
  rw [← hsize]
  apply decode_of
  · rw [← hid]
    exact cstr_congr fun x h1 _ => Mem.putLE_out (by simp only [fileIdOff] at h1; omega)
  · exact getLE_putLE_of_lt (by cases type <;> decide)

/-- A request whose type and size are set before the identifier. -/
theorem decode_strcpy (type : ReqType) {size : ℕ} (h0 : (0 : UInt8) ∉ fileId) (hsize : size < 256 ^ 8)
    (h : strcpy ((stack.putLE 0 4 (ReqType.code type)).putLE (sizeOff 4) 8 size) (fileIdOff 4) fileId = some m) :
    decode m = some ⟨type, fileId, size⟩ := by
  have hm : m.getLE (sizeOff 4) 8 = size := by
    rw [getLE_strcpy h (by decide), getLE_putLE_of_lt hsize]
  have htype : m.getLE 0 4 = ReqType.code type := by
    rw [getLE_strcpy h (by decide), getLE_putLE_other (by decide)]
    exact getLE_putLE_of_lt (by cases type <;> decide)
  rw [decode_of (cstr_strcpy h0 h (by decide)) htype, hm]

/-- The array of a `FileInfo` at its place in a request. -/
theorem openReq_in {fi : Mem} {x : ℕ} (h : fileIdOff 4 ≤ x ∧ x < fileIdOff 4 + maxFileIdLength) :
    openReq stack fi x = fi (x - 4) :=
  if_pos h

theorem getLE_openReq {fi : Mem} {w : ℕ} (h : off + w ≤ fileIdOff 4) :
    (openReq stack fi).getLE off w =
      (((stack.putLE 0 4 1).putLE (sizeOff 4) 8 (fi.getLE (sizeOff 0) 8)).putLE (epochOff 4) 8
        (fi.getLE (epochOff 0) 8)).getLE off w :=
  Mem.getLE_congr fun x _ h2 => if_neg (by omega)

theorem decode_openReq {stack' fi : Mem} {size epoch : ℕ} (h0 : (0 : UInt8) ∉ fileId) (hsize : size < 256 ^ 8)
    (h : fileInfo stack' size epoch fileId = some fi) :
    decode (openReq stack fi) = some ⟨.openFile, fileId, size⟩ := by
  have hfi : fi.getLE (sizeOff 0) 8 = size := by
    rw [getLE_strcpy h (by decide), getLE_putLE_other (by decide), getLE_putLE_of_lt hsize]
  have hlt : fi.getLE (sizeOff 0) 8 < 256 ^ 8 := hfi ▸ hsize
  have hm : (openReq stack fi).getLE (sizeOff 4) 8 = size := by
    rw [getLE_openReq (by decide), getLE_putLE_other (by decide), getLE_putLE_of_lt hlt, hfi]
  have htype : (openReq stack fi).getLE 0 4 = ReqType.code .openFile := by
    rw [getLE_openReq (by decide), getLE_putLE_other (by decide), getLE_putLE_other (by decide)]
    exact getLE_putLE_of_lt (by decide)
  have hid : cstr (openReq stack fi) (fileIdOff 4) (reqSize - fileIdOff 4) = some fileId := by
    simp only [fileInfo, strcpy, Option.ite_none_right_eq_some, Option.some.injEq] at h
    obtain ⟨hlen, rfl⟩ := h
    refine cstr_of_bytes h0 (hlen.trans_le (by decide)) fun i hi => ?_
    have hin : fileIdOff 4 + i < fileIdOff 4 + maxFileIdLength := by omega
    have hoff : fileIdOff 4 + i - 4 = fileIdOff 0 + i := by simp only [fileIdOff]; omega
    rw [openReq_in ⟨by omega, hin⟩, hoff, Mem.write_in (by simp; omega), Nat.add_sub_cancel_left]
  rw [decode_of hid htype, hm]

/-! ### A stream of requests -/

/-- The colon separates. -/
theorem identifier_inj {ip ip' filename filename' : Bytes} (h : (58 : UInt8) ∉ ip) (h' : (58 : UInt8) ∉ ip')
    (heq : identifier ip filename = identifier ip' filename') : ip = ip' ∧ filename = filename' := by
  have htake : ∀ {a b : Bytes}, (58 : UInt8) ∉ a → (identifier a b).takeWhile (· ≠ 58) = a := by
    intro a b ha
    rw [identifier, List.takeWhile_append_of_pos fun x hx => by simpa using ne_of_mem_of_not_mem hx ha]
    simp
  have hip : ip = ip' := by
    calc ip = (identifier ip filename).takeWhile (· ≠ 58) := (htake h).symm
      _ = (identifier ip' filename').takeWhile (· ≠ 58) := by rw [heq]
      _ = ip' := htake h'
  subst hip
  exact ⟨rfl, (List.cons.inj (List.append_cancel_left heq)).2⟩

theorem Sent.WellFormed.fileId_zero {s : Sent} (h : s.WellFormed) : (0 : UInt8) ∉ s.fileId := by
  have h1 := h.ip_zero
  have h2 := h.filename_zero
  simp [Sent.fileId, identifier, h1, h2]

theorem strcpy_isSome : (strcpy m off fileId).isSome ↔ fileId.length < maxFileIdLength := by
  simp [strcpy, Option.isSome_iff_exists]

/-- A request can be made exactly if the identifier fits with its zero byte. -/
theorem Sent.fill_isSome {s : Sent} : s.fill.isSome ↔ s.fileId.length < maxFileIdLength := by
  obtain ⟨sender, ip, filename, stack, stack'⟩ := s
  cases sender <;>
    simp [Sent.fill, Wire.sendFinalization, Wire.setFileInfo, getInfoReq, fileInfo, strcpy_isSome]

/-- **One request.** The server reads what the sender meant, whatever was on the stacks. -/
theorem Sent.WellFormed.decode_fill {s : Sent} (h : s.WellFormed) (hm : s.fill = some m) : decode m = some s.req := by
  have h0 := h.fileId_zero
  have hsize := h.size_lt
  obtain ⟨sender, ip, filename, stack, stack'⟩ := s
  cases sender with
  | sendFinalization type => exact decode_sendFinalization h0 hm
  | setFileInfo size => exact decode_strcpy .openFile h0 hsize hm
  | getRecoverSrcPeer => exact decode_strcpy .getInfo h0 hsize hm
  | getQpTo size epoch =>
    simp only [Sent.fill, Option.map_eq_some_iff] at hm
    obtain ⟨fi, hfi, rfl⟩ := hm
    exact decode_openReq h0 hsize hfi

/-- A struct that is received whole is the one that was sent. -/
theorem decode_bytes {req : Mem} {stream : Bytes} :
    decode (req.write 0 (((List.range reqSize).map m ++ stream).take reqSize)) = decode m := by
  have htake : ((List.range reqSize).map m ++ stream).take reqSize = (List.range reqSize).map m := by
    rw [List.take_append_of_le_length (by simp), List.take_of_length_le (by simp)]
  have hin : ∀ x, x < reqSize → req.write 0 ((List.range reqSize).map m) x = m x := by
    intro x hx
    rw [Mem.write_in (by simpa using hx), Nat.sub_zero]
    simp [List.getD, hx]
  have hid : cstr (req.write 0 ((List.range reqSize).map m)) (fileIdOff 4) (reqSize - fileIdOff 4) =
      cstr m (fileIdOff 4) (reqSize - fileIdOff 4) := cstr_congr fun x _ h2 => hin x h2
  have htype : (req.write 0 ((List.range reqSize).map m)).getLE 0 4 = m.getLE 0 4 :=
    Mem.getLE_congr fun x _ h2 => hin x (h2.trans (by decide))
  have hsize : (req.write 0 ((List.range reqSize).map m)).getLE (sizeOff 4) 8 = m.getLE (sizeOff 4) 8 :=
    Mem.getLE_congr fun x _ h2 => hin x (h2.trans (by decide))
  rw [htake, decode, hid, htype, hsize, decode]

/-- The next struct of a stream. -/
theorem receive_cons {s : Sent} {bs : Bytes} (hs : s.WellFormed) (hb : s.bytes = some bs) (req : Mem) (reqs : List Mem)
    (stream : Bytes) : receive (req :: reqs) (bs ++ stream) = some s.req :: receive reqs stream := by
  simp only [Sent.bytes, Option.map_eq_some_iff] at hb
  obtain ⟨m, hm, rfl⟩ := hb
  have hdrop : ((List.range reqSize).map m ++ stream).drop reqSize = stream := by
    rw [List.drop_append_of_le_length (by simp), List.drop_of_length_le (by simp), List.nil_append]
  rw [receive, decode_bytes, hdrop, hs.decode_fill hm]

/-- The identifier that the server reads. -/
theorem Sent.req_fileId (s : Sent) : s.req.fileId = s.fileId := by
  obtain ⟨sender, ip, filename, stack, stack'⟩ := s
  cases sender <;> rfl

/-- A request whose identifier does not fit is not made. -/
theorem Sent.bytes_eq_none {s : Sent} (h : ¬ s.fileId.length < maxFileIdLength) : s.bytes = none := by
  rw [← Sent.fill_isSome, Option.not_isSome_iff_eq_none] at h
  rw [Sent.bytes, h]
  rfl

/-- The requests of a stream. Induction on the requests that are sent. -/
theorem receive_sents {sents : List Sent} {reqs : List Mem} (h : ∀ s ∈ sents, s.WellFormed)
    (hlen : reqs.length = sents.length) :
    (sents.mapM Sent.bytes).map (fun bss => receive reqs bss.flatten) =
      if ∀ s ∈ sents, s.fileId.length < maxFileIdLength then some (sents.map fun s => some s.req) else none := by
  induction sents generalizing reqs with
  | nil =>
    obtain rfl : reqs = [] := List.eq_nil_of_length_eq_zero hlen
    rfl
  | cons s sents ih =>
    obtain ⟨req, reqs, rfl⟩ := List.exists_cons_of_length_eq_add_one hlen
    have hs : s.WellFormed := h s List.mem_cons_self
    have hrest := ih (fun t ht => h t (List.mem_cons_of_mem _ ht)) (Nat.succ.inj hlen)
    by_cases hfit : s.fileId.length < maxFileIdLength
    · obtain ⟨bs, hbs⟩ : ∃ bs, s.bytes = some bs := by
        obtain ⟨m, hm⟩ := Option.isSome_iff_exists.mp (Sent.fill_isSome.mpr hfit)
        exact ⟨_, by rw [Sent.bytes, hm]; rfl⟩
      have hcons : ∀ bss : List Bytes,
          receive (req :: reqs) (bs :: bss).flatten = some s.req :: receive reqs bss.flatten :=
        fun bss => receive_cons hs hbs req reqs bss.flatten
      calc ((s :: sents).mapM Sent.bytes).map (fun bss => receive (req :: reqs) bss.flatten)
          = ((sents.mapM Sent.bytes).map fun bss => receive reqs bss.flatten).map (some s.req :: ·) := by
            simp only [List.mapM_cons, hbs, Option.bind_eq_bind, Option.bind_some, Option.pure_def, Option.map_map]
            cases sents.mapM Sent.bytes with
            | none => rfl
            | some bss => simpa using hcons bss
        _ = _ := by
            rw [hrest]
            by_cases hall : ∀ t ∈ sents, t.fileId.length < maxFileIdLength
            · simp [hfit, if_pos hall]
            · simp [hfit, hall]
    · have hnot : ¬ ∀ t ∈ s :: sents, t.fileId.length < maxFileIdLength := fun hall => hfit (hall s List.mem_cons_self)
      rw [if_neg hnot, List.mapM_cons, Sent.bytes_eq_none hfit]
      rfl

/-- **A stream of requests.** For any senders and any contents of the stacks of both
sides, the requests are made exactly if every identifier is shorter than 512
bytes, and the server reads from their bytes, struct by struct, the requests that
were meant. No request is read as one of another host or another file. -/
theorem stream_decoded {sents : List Sent} {reqs : List Mem} (h : ∀ s ∈ sents, s.WellFormed)
    (hlen : reqs.length = sents.length) :
    (sents.mapM Sent.bytes).map (fun bss => receive reqs bss.flatten) =
        (if ∀ s ∈ sents, s.fileId.length < maxFileIdLength then some (sents.map fun s => some s.req) else none) ∧
      ∀ s ∈ sents, ∀ t ∈ sents, s.req.fileId = t.req.fileId → s.ip = t.ip ∧ s.filename = t.filename := by
  constructor
  · exact receive_sents h hlen
  · intro s hs t ht heq
    rw [s.req_fileId, t.req_fileId] at heq
    exact identifier_inj (h s hs).ip_colon (h t ht).ip_colon heq

/-- A file that is opened, asked for and closed. -/
def session : List Sent :=
  [.getQpTo 100 3, .getRecoverSrcPeer, .sendFinalization .closeFile].map fun sender =>
    ⟨sender, [49], [97], fun _ => 7, fun _ => 9⟩

theorem session_wellFormed : ∀ s ∈ session, s.WellFormed := by
  simp only [session, List.forall_mem_map, List.forall_mem_cons, List.not_mem_nil, false_implies,
    implies_true, and_true]
  refine ⟨?_, ?_, ?_⟩ <;> exact ⟨by decide, by decide, by decide, by decide⟩

theorem stream_decoded_session :
    ((session.mapM Sent.bytes).map fun bss => receive [Mem.zero, Mem.zero, Mem.zero] bss.flatten) =
      some [some ⟨.openFile, [49, 58, 97], 100⟩, some ⟨.getInfo, [49, 58, 97], 0⟩,
        some ⟨.closeFile, [49, 58, 97], 0x0707070707070707⟩] := by
  have hfit : ∀ s ∈ session, s.fileId.length < maxFileIdLength := by decide
  have h := (stream_decoded session_wellFormed (show [Mem.zero, Mem.zero, Mem.zero].length = session.length from rfl)).1
  rw [if_pos hfit] at h
  exact h

end Wire
end ComputeSideLog
