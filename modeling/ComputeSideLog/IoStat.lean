/-
# The statistics of the I/O shim

`ncl_stat` interposes the file calls to measure how many bytes a program
writes to its log and its database files between two syncs
(`src/ncl_stat.cc`). `prepareHist` sorts a file by its path into one of two
classes, each with a histogram, when it is opened; the write calls add their
count to `fd_accumulated`, `fsync` and `fdatasync` record what has
accumulated in the histogram of the descriptor's class and start again at 0,
and the close calls forget the descriptor. A histogram is the list of the
values recorded into it.

`Stats.step` has these calls over any descriptors. Beside the shim it keeps
the path each open descriptor was opened on, and what was recorded for it
and passed to its write calls since. The two maps have the same keys, which
are the open descriptors of files in a class, and no bytes move from one
file to another (`Stats.bytes_conserved`). The sums are those of `size_t` and
`int64_t`: they agree modulo `2^64`, and as numbers as long as less than
`2^63` bytes accumulate at a time (`Stats.Small`).

What the original calls return plays no part, apart from the descriptor of
an open call. The output to `cout` and the threads are not modelled.
-/
import Mathlib.Data.Int.ModEq
import Mathlib.Algebra.BigOperators.Group.List.Basic
import ComputeSideLog.FileName
import ComputeSideLog.Lib.Trace

namespace ComputeSideLog

open Positions

/-- The classes of files: `LOG` and `DB`. -/
inductive Ext where
  | log
  | db
  deriving DecidableEq, Repr

namespace Ext

/-- `LOG` and `DB` as strings. -/
def name : Ext → Name
  | .log => "ib_logfile".toList
  | .db => "ibd".toList

/-- `exts.find`. -/
def ofName (ext : Name) : Option Ext := [Ext.log, Ext.db].find? fun c => c.name = ext

end Ext

/-- What `prepareHist` looks up in `exts`, `none` if a call on the path throws. -/
def histExt (path : Name) : Option Name :=
  (getFileName path).bind fun ext =>
  (checkFileNamePrefix ext Ext.log.name).bind fun isLog =>
  if isLog then some Ext.log.name
  else (getParentDir path).bind fun dir => if dir = "ycsb".toList then getFileExt path else some ext

/-- The class of a file, `none` if it is in neither. -/
def fileClass (path : Name) : Option Ext := (histExt path).bind Ext.ofName

/-- `IoStat`: the histogram of each class (`ext_stat`), the class whose histogram
a descriptor has, and the bytes accumulated for it. -/
structure IoStat where
  extStat : Ext → List ℤ
  fdStat : ℤ → Option Ext
  fdAccumulated : ℤ → Option ℕ

namespace IoStat

/-- `hdr_record_value` takes an `int64_t`. -/
def toInt64 (n : ℕ) : ℤ := (n : ℤ).bmod (2 ^ 64)

/-- `hdr_record_value` on the histogram of a class. -/
def record (s : IoStat) (c : Ext) (v : ℕ) : IoStat :=
  { s with extStat := Function.update s.extStat c (s.extStat c ++ [toInt64 v]) }

/-- An entry of `fd_accumulated` set. -/
def setAccumulated (s : IoStat) (fd : ℤ) (n : ℕ) : IoStat :=
  { s with fdAccumulated := Function.update s.fdAccumulated fd (some n) }

/-- `prepareHist`, `none` if it throws. -/
def prepareHist (s : IoStat) (path : Name) (fd : ℤ) : Option IoStat :=
  if fd < 0 then some s
  else (histExt path).map fun ext =>
    match Ext.ofName ext with
    | some c => { s with fdStat := Function.update s.fdStat fd (some c) }.setAccumulated fd 0
    | none => s

/-- `record_value`. -/
def recordValue (s : IoStat) (fd : ℤ) (count : ℕ) : IoStat :=
  match s.fdStat fd with
  | none => s
  | some c =>
    match s.fdAccumulated fd with
    | some n => s.setAccumulated fd ((n + count) % 2 ^ 64)
    | none => s.record c count

/-- `record_accum_value`, with the value it records; `none` if the descriptor has
no histogram. -/
def recordAccumValue (s : IoStat) (fd : ℤ) : Option (IoStat × Option ℕ) :=
  match s.fdAccumulated fd with
  | none => some (s, none)
  | some n =>
    if 0 < n then (s.fdStat fd).map fun c => ((s.record c n).setAccumulated fd 0, some n) else some (s, none)

/-- The two erasures of `close` and `fclose`. -/
def forget (s : IoStat) (fd : ℤ) : IoStat :=
  { s with fdStat := Function.update s.fdStat fd none, fdAccumulated := Function.update s.fdAccumulated fd none }

/-- `open`, `open64`, `openat` and `openat64`, for which the original call
returned `fd`. -/
def openCall (s : IoStat) (path : Name) (fd : ℤ) : Option IoStat := s.prepareHist path fd

/-- `fopen_internal`, with the descriptor of the stream unless it is null. -/
def fopenInternal (s : IoStat) (path : Name) (fp : Option ℤ) : Option IoStat :=
  match fp with
  | none => some s
  | some fd => s.prepareHist path fd

/-- `write` and `pwrite_internal`. -/
def write (s : IoStat) (fd : ℤ) (count : ℕ) : IoStat := s.recordValue fd count

/-- `fwrite` to the stream of a descriptor. -/
def fwrite (s : IoStat) (fd : ℤ) (size nmemb : ℕ) : IoStat := s.recordValue fd ((size * nmemb) % 2 ^ 64)

/-- `sync_internal`, of `fsync` and `fdatasync`. -/
def syncInternal (s : IoStat) (fd : ℤ) : Option (IoStat × Option ℕ) := s.recordAccumValue fd

/-- `close`, and `fclose` on the stream of a descriptor. -/
def close (s : IoStat) (fd : ℤ) : IoStat := s.forget fd

end IoStat

/-- The shim, and for every descriptor the path it is open on, the values recorded
for it since it was opened and the bytes passed to its write calls since. -/
structure Stats where
  io : IoStat
  path : ℤ → Option Name
  since : ℤ → List ℤ
  passed : ℤ → ℕ

namespace Stats

/-- Nothing is open. -/
def init : Stats := ⟨⟨fun _ => [], fun _ => none, fun _ => none⟩, fun _ => none, fun _ => [], fun _ => 0⟩

/-- An intercepted call. -/
inductive Event where
  | openCall (path : Name) (fd : ℤ)
  | fopen (path : Name) (fp : Option ℤ)
  | write (fd : ℤ) (count : ℕ)
  | fwrite (fd : ℤ) (size nmemb : ℕ)
  | sync (fd : ℤ)
  | close (fd : ℤ)

/-- A descriptor is now open on a path. -/
def opened (s : Stats) (path : Name) (fd : ℤ) (io : IoStat) : Stats where
  io := io
  path := Function.update s.path fd (some path)
  since := Function.update s.since fd []
  passed := Function.update s.passed fd 0

/-- The shim after a write call with so many bytes. -/
def wrote (s : Stats) (fd : ℤ) (count : ℕ) (io : IoStat) : Stats :=
  { s with io := io, passed := Function.update s.passed fd (s.passed fd + count) }

/-- The shim after a sync, which may have recorded a value. -/
def synced (s : Stats) (fd : ℤ) (io : IoStat) : Option ℕ → Stats
  | none => { s with io := io }
  | some v => { s with io := io, since := Function.update s.since fd (s.since fd ++ [IoStat.toInt64 v]) }

/-- One call. An open call returns a descriptor that is not open, or fails; counts
are of type `size_t`. -/
def step (s : Stats) : Event → Option Stats
  | .openCall path fd =>
    if fd < 0 then (s.io.openCall path fd).map fun io => { s with io := io }
    else if s.path fd = none then (s.io.openCall path fd).map (s.opened path fd) else none
  | .fopen path none => (s.io.fopenInternal path none).map fun io => { s with io := io }
  | .fopen path (some fd) =>
    if 0 ≤ fd ∧ s.path fd = none then (s.io.fopenInternal path (some fd)).map (s.opened path fd) else none
  | .write fd count => if count < 2 ^ 64 then some (s.wrote fd count (s.io.write fd count)) else none
  | .fwrite fd size nmemb =>
    if size < 2 ^ 64 ∧ nmemb < 2 ^ 64 then some (s.wrote fd (size * nmemb) (s.io.fwrite fd size nmemb)) else none
  | .sync fd => (s.io.syncInternal fd).map fun r => s.synced fd r.1 r.2
  | .close fd => some { s with io := s.io.close fd, path := Function.update s.path fd none }

/-- The bytes that an event passes to a descriptor. -/
def Event.bytes : Event → Option (ℤ × ℕ)
  | .write fd count => some (fd, count)
  | .fwrite fd size nmemb => some (fd, size * nmemb)
  | _ => none

/-- Less than `2^63` bytes have accumulated after the call. -/
def Small (s : Stats) (e : Event) : Prop :=
  ∀ b ∈ e.bytes, ∀ n ∈ s.io.fdAccumulated b.1, n + b.2 < 2 ^ 63

instance (s : Stats) (e : Event) : Decidable (s.Small e) := inferInstanceAs (Decidable (∀ b ∈ _, ∀ n ∈ _, _))

/-! ### What a call can do -/

variable {s t : Stats}

/-- The shim when a descriptor is opened: a file in a class gets its two entries. -/
def enter (io : IoStat) (path : Name) (fd : ℤ) : IoStat :=
  match fileClass path with
  | some c => { io with fdStat := Function.update io.fdStat fd (some c) }.setAccumulated fd 0
  | none => io

theorem prepareHist_eq {io io' : IoStat} {path : Name} {fd : ℤ} (hfd : ¬ fd < 0)
    (h : io.prepareHist path fd = some io') : io' = enter io path fd := by
  rw [IoStat.prepareHist, if_neg hfd, Option.map_eq_some_iff] at h
  obtain ⟨ext, hext, rfl⟩ := h
  unfold enter fileClass
  rw [hext, Option.bind_some]

/-- The two maps have the same keys. -/
def SameKeys (io : IoStat) : Prop := ∀ fd, (io.fdAccumulated fd).isSome = (io.fdStat fd).isSome

theorem SameKeys.recordValue {io : IoStat} (h : SameKeys io) (fd : ℤ) (count : ℕ) :
    (io.fdStat fd = none ∧ io.recordValue fd count = io) ∨
    ∃ c n, io.fdStat fd = some c ∧ io.fdAccumulated fd = some n ∧
      io.recordValue fd count = io.setAccumulated fd ((n + count) % 2 ^ 64) := by
  unfold IoStat.recordValue
  cases hc : io.fdStat fd with
  | none => exact .inl ⟨rfl, rfl⟩
  | some c =>
    -- with a class there is a count, so nothing is recorded at once
    have hn : (io.fdAccumulated fd).isSome = true := by rw [h fd, hc]; rfl
    obtain ⟨n, hn⟩ := Option.isSome_iff_exists.mp hn
    exact .inr ⟨c, n, rfl, hn, by simp only [hn]⟩

/-- **What a call does** while the maps have the same keys: nothing; or a
descriptor is opened; bytes go to one that has no class, or add to what has
accumulated; what has accumulated is recorded; or a descriptor is closed. -/
theorem step_cases (h : SameKeys s.io) {e : Event} (hs : s.step e = some t) :
    t = s ∨
    (∃ path fd, s.path fd = none ∧ t = s.opened path fd (enter s.io path fd)) ∨
    (∃ fd count, s.io.fdStat fd = none ∧ t = s.wrote fd count s.io) ∨
    (∃ fd count c n, e.bytes = some (fd, count) ∧ s.io.fdStat fd = some c ∧ s.io.fdAccumulated fd = some n ∧
      t = s.wrote fd count (s.io.setAccumulated fd ((n + count) % 2 ^ 64))) ∨
    (∃ fd c n, 0 < n ∧ s.io.fdStat fd = some c ∧ s.io.fdAccumulated fd = some n ∧
      t = s.synced fd ((s.io.record c n).setAccumulated fd 0) (some n)) ∨
    ∃ fd, t = { s with io := s.io.forget fd, path := Function.update s.path fd none } := by
  cases e with
  | openCall path fd =>
    rw [step] at hs
    split at hs
    · rename_i hneg
      obtain ⟨io, hio, rfl⟩ := Option.map_eq_some_iff.mp hs
      rw [IoStat.openCall, IoStat.prepareHist, if_pos hneg, Option.some.injEq] at hio
      exact .inl (hio ▸ rfl)
    · rename_i hneg
      obtain ⟨hp, hs⟩ := Option.ite_none_right_eq_some.mp hs
      obtain ⟨io, hio, rfl⟩ := Option.map_eq_some_iff.mp hs
      exact .inr (.inl ⟨path, fd, hp, by rw [prepareHist_eq hneg hio]⟩)
  | fopen path fp =>
    cases fp with
    | none => exact .inl (Option.some.inj hs).symm
    | some fd =>
      obtain ⟨⟨hfd, hp⟩, hs⟩ := Option.ite_none_right_eq_some.mp hs
      obtain ⟨io, hio, rfl⟩ := Option.map_eq_some_iff.mp hs
      exact .inr (.inl ⟨path, fd, hp, by rw [prepareHist_eq (not_lt.mpr hfd) hio]⟩)
  | write fd count =>
    obtain ⟨-, hs⟩ := Option.ite_none_right_eq_some.mp hs
    obtain rfl := Option.some.inj hs
    rcases h.recordValue fd count with ⟨hc, hw⟩ | ⟨c, n, hc, hn, hw⟩
    · exact .inr (.inr (.inl ⟨fd, count, hc, by rw [IoStat.write, hw]⟩))
    · exact .inr (.inr (.inr (.inl ⟨fd, count, c, n, rfl, hc, hn, by rw [IoStat.write, hw]⟩)))
  | fwrite fd size nmemb =>
    obtain ⟨-, hs⟩ := Option.ite_none_right_eq_some.mp hs
    obtain rfl := Option.some.inj hs
    rcases h.recordValue fd ((size * nmemb) % 2 ^ 64) with ⟨hc, hw⟩ | ⟨c, n, hc, hn, hw⟩
    · exact .inr (.inr (.inl ⟨fd, size * nmemb, hc, by rw [IoStat.fwrite, hw]⟩))
    · exact .inr (.inr (.inr (.inl ⟨fd, size * nmemb, c, n, rfl, hc, hn, by
        rw [IoStat.fwrite, hw, Nat.add_mod_mod]⟩)))
  | sync fd =>
    obtain ⟨r, hr, rfl⟩ := Option.map_eq_some_iff.mp hs
    unfold IoStat.syncInternal IoStat.recordAccumValue at hr
    split at hr
    · exact .inl (Option.some.inj hr ▸ rfl)
    · rename_i n hn
      split at hr
      · rename_i hpos
        obtain ⟨c, hc, rfl⟩ := Option.map_eq_some_iff.mp hr
        exact .inr (.inr (.inr (.inr (.inl ⟨fd, c, n, hpos, hc, hn, rfl⟩))))
      · exact .inl (Option.some.inj hr ▸ rfl)
  | close fd => exact .inr (.inr (.inr (.inr (.inr ⟨fd, (Option.some.inj hs).symm⟩))))

/-! ### What a run keeps -/

/-- What holds for one descriptor, from the path it is open on, its class, the
bytes accumulated and what was recorded and passed since its opening. -/
structure Entry (path : Option Name) (stat : Option Ext) (acc : Option ℕ) (since : List ℤ) (passed : ℕ)
    (hist : Ext → List ℤ) : Prop where
  keys : acc.isSome = stat.isSome
  cls : stat = path.bind fileClass
  lt : ∀ n, acc = some n → n < 2 ^ 64
  sum : ∀ n, acc = some n → since.sum + n ≡ passed [ZMOD 2 ^ 64]
  filed : ∀ c, stat = some c → since.Sublist (hist c)

/-- The invariant: each descriptor, and no zero in a histogram. -/
structure Inv (s : Stats) : Prop where
  entry : ∀ fd, Entry (s.path fd) (s.io.fdStat fd) (s.io.fdAccumulated fd) (s.since fd) (s.passed fd) s.io.extStat
  nonzero : ∀ c, ∀ v ∈ s.io.extStat c, v ≠ 0

theorem inv_init : init.Inv where
  entry := fun _ => ⟨rfl, rfl, fun _ h => (nomatch h), fun _ h => (nomatch h), fun _ h => (nomatch h)⟩
  nonzero := fun _ _ h => absurd h List.not_mem_nil

theorem Inv.sameKeys (h : s.Inv) : SameKeys s.io := fun fd => (h.entry fd).keys

theorem Inv.accumulated_none (h : s.Inv) {fd : ℤ} (hc : s.io.fdStat fd = none) : s.io.fdAccumulated fd = none := by
  rw [← Option.not_isSome_iff_eq_none, h.sameKeys fd, hc]
  exact Bool.false_ne_true

/-- A descriptor that is not open has no entries. -/
theorem Inv.none_of_closed (h : s.Inv) {fd : ℤ} (hp : s.path fd = none) :
    s.io.fdStat fd = none ∧ s.io.fdAccumulated fd = none := by
  have hstat : s.io.fdStat fd = none := by rw [(h.entry fd).cls, hp]; rfl
  exact ⟨hstat, h.accumulated_none hstat⟩

/-- A call that concerns one descriptor and only adds to the histograms. -/
theorem Inv.update (h : s.Inv) (fd : ℤ) (hother : ∀ f, f ≠ fd → t.path f = s.path f ∧ t.io.fdStat f = s.io.fdStat f ∧
      t.io.fdAccumulated f = s.io.fdAccumulated f ∧ t.since f = s.since f ∧ t.passed f = s.passed f)
    (hself : Entry (t.path fd) (t.io.fdStat fd) (t.io.fdAccumulated fd) (t.since fd) (t.passed fd) t.io.extStat)
    (hmore : ∀ c, (s.io.extStat c).Sublist (t.io.extStat c)) (hnonzero : ∀ c, ∀ v ∈ t.io.extStat c, v ≠ 0) : t.Inv := by
  refine ⟨fun f => ?_, hnonzero⟩
  by_cases hf : f = fd
  · exact hf ▸ hself
  · obtain ⟨h1, h2, h3, h4, h5⟩ := hother f hf
    have hold := h.entry f
    rw [h1, h2, h3, h4, h5]
    exact ⟨hold.keys, hold.cls, hold.lt, hold.sum, fun c hc => (hold.filed c hc).trans (hmore c)⟩

/-- A sum of `size_t` values is the sum modulo `2^64`. -/
theorem add_mod_modEq {a : ℤ} {n p : ℕ} (h : a + n ≡ p [ZMOD 2 ^ 64]) (count : ℕ) :
    a + ((n + count) % 2 ^ 64 : ℕ) ≡ (p + count : ℕ) [ZMOD 2 ^ 64] := by
  have hmod : (((n + count) % 2 ^ 64 : ℕ) : ℤ) ≡ n + count [ZMOD 2 ^ 64] := by
    push_cast
    exact Int.mod_modEq _ _
  calc a + ((n + count) % 2 ^ 64 : ℕ) ≡ a + (n + count) [ZMOD 2 ^ 64] := hmod.add_left a
    _ = a + n + count := (add_assoc _ _ _).symm
    _ ≡ p + count [ZMOD 2 ^ 64] := h.add_right count
    _ = (p + count : ℕ) := (Nat.cast_add p count).symm

/-- A recorded value is what accumulated, modulo `2^64`. -/
theorem toInt64_modEq (n : ℕ) : IoStat.toInt64 n ≡ n [ZMOD 2 ^ 64] := Int.bmod_emod

theorem toInt64_eq {n : ℕ} (h : n < 2 ^ 63) : IoStat.toInt64 n = n := by
  unfold IoStat.toInt64
  exact Int.bmod_eq_of_le (by omega) (by omega)

theorem toInt64_ne_zero {n : ℕ} (hpos : 0 < n) (hlt : n < 2 ^ 64) : IoStat.toInt64 n ≠ 0 := by
  intro h0
  have hmod : (0 : ℤ) ≡ n [ZMOD 2 ^ 64] := h0 ▸ toInt64_modEq n
  have hdvd : ((2 ^ 64 : ℕ) : ℤ) ∣ (n : ℕ) := by simpa using hmod.dvd
  exact absurd (Nat.le_of_dvd hpos (Int.natCast_dvd_natCast.mp hdvd)) (not_le.mpr hlt)

/-- A descriptor is opened; it had no entries. -/
theorem Inv.opened (h : s.Inv) {path : Name} {fd : ℤ} (hp : s.path fd = none) :
    (s.opened path fd (enter s.io path fd)).Inv := by
  obtain ⟨hstat, hacc⟩ := h.none_of_closed hp
  unfold enter
  cases hc : fileClass path with
  | some c =>
    refine h.update fd (fun f hf => ?_) ?_ (fun c' => .refl _) h.nonzero
    · simp [Stats.opened, IoStat.setAccumulated, hf]
    · simp only [Stats.opened, IoStat.setAccumulated, Function.update_self]
      exact ⟨rfl, hc.symm, fun n hn => by cases hn; decide, fun n hn => by cases hn; rfl,
        fun c' _ => List.nil_sublist _⟩
  | none =>
    refine h.update fd (fun f hf => ?_) ?_ (fun c' => .refl _) h.nonzero
    · simp [Stats.opened, hf]
    · simp only [Stats.opened, Function.update_self, hstat, hacc]
      exact ⟨rfl, hc.symm, fun n hn => (nomatch hn), fun n hn => (nomatch hn), fun c' hc' => (nomatch hc')⟩

/-- Bytes go to a descriptor without a class. -/
theorem Inv.wrote_none (h : s.Inv) {fd : ℤ} (hc : s.io.fdStat fd = none) (count : ℕ) : (s.wrote fd count s.io).Inv := by
  have hold := h.entry fd
  refine h.update fd (fun f hf => ?_) ?_ (fun c => .refl _) h.nonzero
  · simp [Stats.wrote, hf]
  · have hacc := h.accumulated_none hc
    exact ⟨hold.keys, hold.cls, hold.lt, fun n hn => absurd (hacc.symm.trans hn) (by simp), hold.filed⟩

/-- Bytes add to what has accumulated. -/
theorem Inv.wrote (h : s.Inv) {fd : ℤ} {c : Ext} {n : ℕ} (hc : s.io.fdStat fd = some c)
    (hn : s.io.fdAccumulated fd = some n) (count : ℕ) :
    (s.wrote fd count (s.io.setAccumulated fd ((n + count) % 2 ^ 64))).Inv := by
  have hold := h.entry fd
  refine h.update fd (fun f hf => ?_) ?_ (fun c => .refl _) h.nonzero
  · simp [Stats.wrote, IoStat.setAccumulated, hf]
  · simp only [Stats.wrote, IoStat.setAccumulated, Function.update_self]
    refine ⟨by rw [hc]; rfl, hold.cls, fun m hm => ?_, fun m hm => ?_, hold.filed⟩
    · cases hm
      exact Nat.mod_lt _ (by decide)
    · cases hm
      exact add_mod_modEq (hold.sum n hn) count

/-- What has accumulated goes to the histogram of the descriptor's class. -/
theorem Inv.synced (h : s.Inv) {fd : ℤ} {c : Ext} {n : ℕ} (hpos : 0 < n) (hc : s.io.fdStat fd = some c)
    (hn : s.io.fdAccumulated fd = some n) :
    (s.synced fd ((s.io.record c n).setAccumulated fd 0) (some n)).Inv := by
  have hold := h.entry fd
  have hrecord : ∀ c', ((s.io.record c n).setAccumulated fd 0).extStat c' =
      if c' = c then s.io.extStat c ++ [IoStat.toInt64 n] else s.io.extStat c' := by
    intro c'
    simp [IoStat.record, IoStat.setAccumulated, Function.update_apply]
  refine h.update fd (fun f hf => ?_) ?_ (fun c' => ?_) fun c' v hv => ?_
  · simp [Stats.synced, IoStat.record, IoStat.setAccumulated, hf]
  · simp only [Stats.synced, IoStat.record, IoStat.setAccumulated, Function.update_self]
    refine ⟨by rw [hc]; rfl, hold.cls, fun m hm => by cases hm; decide, fun m hm => ?_, fun c' hc' => ?_⟩
    · cases hm
      rw [List.sum_append, List.sum_singleton, Nat.cast_zero, add_zero]
      exact ((toInt64_modEq n).add_left _).trans (hold.sum n hn)
    · obtain rfl := Option.some.inj (hc.symm.trans hc')
      rw [Function.update_self]
      exact (hold.filed c hc).append (.refl _)
  · show (s.io.extStat c').Sublist (((s.io.record c n).setAccumulated fd 0).extStat c')
    rw [hrecord]
    split
    · rename_i he
      exact he ▸ List.sublist_append_left _ _
    · exact .refl _
  · change v ∈ ((s.io.record c n).setAccumulated fd 0).extStat c' at hv
    rw [hrecord] at hv
    split at hv
    · rcases List.mem_append.mp hv with hv | hv
      · exact h.nonzero c v hv
      · rw [List.mem_singleton.mp hv]
        exact toInt64_ne_zero hpos (hold.lt n hn)
    · exact h.nonzero c' v hv

/-- A descriptor is closed. -/
theorem Inv.close (h : s.Inv) (fd : ℤ) :
    ({ s with io := s.io.forget fd, path := Function.update s.path fd none } : Stats).Inv := by
  refine h.update fd (fun f hf => ?_) ?_ (fun c => .refl _) h.nonzero
  · simp [IoStat.forget, hf]
  · simp only [IoStat.forget, Function.update_self]
    exact ⟨rfl, rfl, fun n hn => (nomatch hn), fun n hn => (nomatch hn), fun c hc => (nomatch hc)⟩

/-- A call keeps the invariant. -/
theorem Inv.step (h : s.Inv) {e : Event} (hs : s.step e = some t) : t.Inv := by
  rcases step_cases h.sameKeys hs with rfl | ⟨path, fd, hp, rfl⟩ | ⟨fd, count, hc, rfl⟩ |
    ⟨fd, count, c, n, -, hc, hn, rfl⟩ |
    ⟨fd, c, n, hpos, hc, hn, rfl⟩ | ⟨fd, rfl⟩
  · exact h
  · exact h.opened hp
  · exact h.wrote_none hc count
  · exact h.wrote hc hn count
  · exact h.synced hpos hc hn
  · exact h.close fd

theorem inv_of_reach (hs : Trace.Reach step init s) : s.Inv := hs.inv inv_init fun _ _ _ h he => h.step he

/-! ### Sums that do not wrap -/

/-- The sums are equal as numbers. -/
def Exact (s : Stats) : Prop :=
  ∀ fd n, s.io.fdAccumulated fd = some n → n < 2 ^ 63 ∧ (s.since fd).sum + n = s.passed fd

/-- The same for a call that concerns one descriptor. -/
theorem Exact.update (h : s.Exact) (fd : ℤ) (hother : ∀ f, f ≠ fd →
      t.io.fdAccumulated f = s.io.fdAccumulated f ∧ t.since f = s.since f ∧ t.passed f = s.passed f)
    (hself : ∀ n, t.io.fdAccumulated fd = some n → n < 2 ^ 63 ∧ (t.since fd).sum + n = t.passed fd) : t.Exact := by
  intro f n hn
  by_cases hf : f = fd
  · subst hf
    exact hself n hn
  · obtain ⟨h1, h2, h3⟩ := hother f hf
    rw [h2, h3]
    exact h f n (h1 ▸ hn)

/-- A call that leaves less than `2^63` bytes accumulated keeps the sums equal. -/
theorem Exact.step (h : s.Exact) (hi : s.Inv) {e : Event} (hsmall : s.Small e) (hs : s.step e = some t) : t.Exact := by
  rcases step_cases hi.sameKeys hs with rfl | ⟨path, fd, hp, rfl⟩ | ⟨fd, count, hc, rfl⟩ |
    ⟨fd, count, c, n, hb, hc, hn, rfl⟩ |
    ⟨fd, c, n, hpos, hc, hn, rfl⟩ | ⟨fd, rfl⟩
  · exact h
  · have hacc := (hi.none_of_closed hp).2
    unfold enter
    cases hc : fileClass path with
    | some c =>
      refine h.update fd (fun f hf => by simp [Stats.opened, IoStat.setAccumulated, hf]) fun n hn => ?_
      simp only [Stats.opened, IoStat.setAccumulated, Function.update_self] at hn ⊢
      obtain rfl := Option.some.inj hn
      exact ⟨by decide, rfl⟩
    | none =>
      refine h.update fd (fun f hf => by simp [Stats.opened, hf]) fun n hn => ?_
      exact absurd (hacc.symm.trans hn) (by simp)
  · refine h.update fd (fun f hf => by simp [Stats.wrote, hf]) fun n hn => ?_
    exact absurd ((hi.accumulated_none hc).symm.trans hn) (by simp)
  · have hlt : n + count < 2 ^ 63 := hsmall (fd, count) hb n hn
    refine h.update fd (fun f hf => by simp [Stats.wrote, IoStat.setAccumulated, hf]) fun m hm => ?_
    simp only [Stats.wrote, IoStat.setAccumulated, Function.update_self] at hm ⊢
    rw [Nat.mod_eq_of_lt (by omega)] at hm
    obtain rfl := Option.some.inj hm
    refine ⟨hlt, ?_⟩
    rw [Nat.cast_add, Nat.cast_add, ← add_assoc, (h fd n hn).2]
  · obtain ⟨hlt, hsum⟩ := h fd n hn
    refine h.update fd (fun f hf => by simp [Stats.synced, IoStat.record, IoStat.setAccumulated, hf]) fun m hm => ?_
    simp only [Stats.synced, IoStat.record, IoStat.setAccumulated, Function.update_self] at hm ⊢
    obtain rfl := Option.some.inj hm
    rw [List.sum_append, List.sum_singleton, toInt64_eq hlt, Nat.cast_zero, add_zero]
    exact ⟨by decide, hsum⟩
  · refine h.update fd (fun f hf => by simp [IoStat.forget, hf]) fun n hn => ?_
    simp only [IoStat.forget, Function.update_self] at hn
    cases hn

theorem exact_of_reach (hs : Trace.Reach (Trace.restrict Small step) init s) : s.Exact :=
  hs.inv_restrict_of (fun _ h => inv_of_reach h) (fun _ _ h => (nomatch h))
    fun _ _ _ hi h hsmall he => h.step hi hsmall he

/-- **The shim conserves bytes.** In every reachable state the two maps have the
same keys; a descriptor has the class of the file it is open on, none if it
is not open; what was recorded for it is in the histogram of that class, and
with what has accumulated it is what was passed to the write calls, modulo
`2^64`, and as numbers in runs in which less than `2^63` bytes accumulate at a
time; no histogram has a zero. -/
theorem bytes_conserved (hs : Trace.Reach step init s) :
    (∀ fd, (s.io.fdAccumulated fd).isSome ↔ (s.io.fdStat fd).isSome) ∧
    (∀ fd, s.io.fdStat fd = (s.path fd).bind fileClass) ∧
    (∀ fd c, s.io.fdStat fd = some c → (s.since fd).Sublist (s.io.extStat c)) ∧
    (∀ fd n, s.io.fdAccumulated fd = some n → (s.since fd).sum + n ≡ s.passed fd [ZMOD 2 ^ 64]) ∧
    (Trace.Reach (Trace.restrict Small step) init s →
      ∀ fd n, s.io.fdAccumulated fd = some n → (s.since fd).sum + n = s.passed fd) ∧
    ∀ c, ∀ v ∈ s.io.extStat c, v ≠ 0 := by
  have hi := inv_of_reach hs
  exact ⟨fun fd => by rw [hi.sameKeys fd], fun fd => (hi.entry fd).cls, fun fd c hc => (hi.entry fd).filed c hc,
    fun fd n hn => (hi.entry fd).sum n hn, fun hr fd n hn => (exact_of_reach hr fd n hn).2, hi.nonzero⟩

/-- The log and a database file, with a descriptor that is used again. -/
theorem bytes_conserved_two : ∃ s : Stats, Trace.Reach step init s ∧ s.io.extStat .log = [300] ∧
    s.io.fdAccumulated 4 = some 7 ∧ (s.since 4).sum + 7 = s.passed 4 := by
  have hrun : ∃ s : Stats, Trace.Reach (Trace.restrict Small step) init s ∧ s.io.extStat .log = [300] ∧
      s.io.fdAccumulated 4 = some 7 :=
    Trace.exists_reach_of_exec
      [.openCall "/d/ib_logfile0".toList 3, .write 3 100, .fwrite 3 2 100, .sync 3, .close 3,
        .fopen "/d/ycsb/t.ibd".toList (some 3), .openCall "/d/ib_logfile1".toList 4, .write 4 7] (by decide)
  obtain ⟨s, hs, hlog, hacc⟩ := hrun
  have hall := bytes_conserved hs.of_restrict
  exact ⟨s, hs.of_restrict, hlog, hacc, hall.2.2.2.2.1 hs 4 7 hacc⟩

/-- Counts add up as `size_t`: after `2^64 - 1` and 1 nothing has accumulated. -/
theorem count_wraps : ∃ s : Stats, Trace.Reach step init s ∧ s.io.fdAccumulated 3 = some 0 ∧ s.since 3 = [] ∧
    (s.since 3).sum + (0 : ℕ) ≠ s.passed 3 :=
  Trace.exists_reach_of_exec [.openCall "ib_logfile0".toList 3, .write 3 (2 ^ 64 - 1), .write 3 1] (by decide)

end Stats
end ComputeSideLog
