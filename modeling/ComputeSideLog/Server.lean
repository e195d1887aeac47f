/-
# What a replication peer can tell about a file

The server keeps no metadata of a file: it answers `GET_INFO` from the bytes
of the region. `findSize` scans down from just below the trailer for the
last non-zero byte, `ReadSeqNum` loads the trailer (`src/rdma/server.cc`).

Key definitions: `findSize`, `readSeqNum`, `getInfo`.
Key theorem: `findSize_le_iff`.
-/
import ComputeSideLog.Client

namespace ComputeSideLog

/-- The reply to `GET_INFO`. -/
structure ServerResp where
  size : ℕ
  seq : ℕ
  deriving DecidableEq, Repr

/-- `CSLServer::findSize` on the region of the file. The scan is `Mem.used`; on
a region smaller than the trailer it never starts and the pointer difference
wraps. -/
def findSize (b : Buffer) : ℕ :=
  if seqWidth ≤ b.size then b.mem.used (b.size - seqWidth) else subSize b.size seqWidth

/-- `CSLServer::ReadSeqNum` on the region of the file. -/
def readSeqNum (b : Buffer) : ℕ := b.mem.getLE (b.size - seqWidth) seqWidth

/-- The `GET_INFO` branch of `handleClientRequest`, for a file that is open. -/
def getInfo (b : Buffer) : ServerResp where
  size := findSize b
  seq := readSeqNum b

namespace Layout

variable (L : Layout)

theorem findSize_region (m : Mem) : findSize (L.region m) = m.used L.seqOffset :=
  if_pos L.trailer_le

theorem readSeqNum_region (m : Mem) : readSeqNum (L.region m) = m.getLE L.seqOffset seqWidth := rfl

end Layout

section Region

variable {b : Buffer} (hb : seqWidth ≤ b.size)
include hb

/-- `findSize` is the least length after which the data region is zero. -/
theorem findSize_le_iff {k : ℕ} :
    findSize b ≤ k ↔ ∀ x, k ≤ x → x < b.size - seqWidth → b.mem x = 0 := by
  rw [findSize, if_pos hb, Mem.used_le_iff]

end Region

end ComputeSideLog
