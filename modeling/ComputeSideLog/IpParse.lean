/-
# The membership string by positions

`parseIpString` (`src/util.h`) walks over the string with `int` positions.
`find` returns a `size_t`, and what it returns for nothing found is -1 as an
`int`; the length passed to `substr` for the last address is a negative
`int` converted to a `size_t`, far beyond the end; and the test for a string
that ends in its slash compares an `int` with a `size_t`. This file has that
parser, an exception and a loop that has not ended as outcomes of their own,
and shows that on strings shorter than `2^31` it computes what
`IpString.lean` says in terms of lists. Reading back what
`generateIpString` wrote then gives the epoch and the peers.

Key definitions: `Positions.find`, `Positions.substr`,
`Positions.parseLoop`, `Positions.parseIpString`.
Key theorems: `Positions.parseLoop_eq`, `Positions.parseIpString_eq`,
`parseIpString_epoch`, `Positions.generated_parsed`.
-/
import Mathlib.Data.List.TakeWhile
import ComputeSideLog.IpString
import ComputeSideLog.Ops

namespace ComputeSideLog

namespace Positions

/-- Why there is no result: the loop has not ended within the rounds given, or
`substr` or `stoul` threw. -/
inductive Stop where
  | running
  | threw
  deriving DecidableEq, Repr

/-- `std::string::npos`. -/
def npos : ℕ := 2 ^ 64 - 1

/-- `std::string::find` of a character from `pos` on. -/
def find (s : Name) (c : Char) (pos : ℕ) : ℕ :=
  match (s.drop pos).findIdx? (· = c) with
  | some i => pos + i
  | none => npos

/-- `std::string::substr`, `none` if it throws. -/
def substr (s : Name) (pos count : ℕ) : Option Name :=
  if pos ≤ s.length then some ((s.drop pos).take count) else none

/-- The outcome of a computation that may throw. -/
def orThrow {β : Type*} : Option β → Except Stop β
  | some b => .ok b
  | none => .error .threw

/-- The `do` loop of `parseIpString`, with at most `fuel` rounds. -/
def parseLoop (s : Name) : ℕ → ℤ → ℤ → Finset Name → Except Stop (ℤ × Finset Name)
  | 0, _, _, _ => .error .running
  | fuel + 1, nextPos, cnt, peers => do
    let pos := toInt (nextPos + 1)
    let nextPos := toInt (find s ':' (toSize pos))
    let peer ← orThrow (substr s (toSize pos) (toSize (toInt (nextPos - pos))))
    let peers := insert peer peers
    let cnt := toInt (cnt + 1)
    if nextPos ≠ -1 then parseLoop s fuel nextPos cnt peers else .ok (cnt, peers)

/-- The number before the slash at `nextPos`, 0 if there is none. -/
def parseEpoch (s : Name) (nextPos : ℤ) : Except Stop ℕ :=
  if nextPos ≠ -1 ∧ nextPos ≠ 0 then orThrow ((substr s 0 (toSize nextPos)).bind stoul) else .ok 0

/-- `parseIpString`: the epoch, the number of addresses and the set after it. -/
def parseIpString (fuel : ℕ) (s : Name) (peers : Finset Name) : Except Stop (ℕ × ℤ × Finset Name) :=
  if s = [] then .ok (0, 0, peers)
  else do
    let nextPos := toInt (find s '/' 0)
    let epoch ← parseEpoch s nextPos
    if toSize nextPos = subSize s.length 1 then .ok (epoch, 0, peers)
    else (parseLoop s fuel nextPos 0 peers).map fun r => (epoch, r.1, r.2)

/-! ### Strings and positions -/

variable {s : Name} {c : Char} {p : ℕ}

theorem findIdx?_none {l : Name} (h : c ∉ l) : l.findIdx? (· = c) = none := by
  rw [List.findIdx?_eq_none_iff]
  intro d hd
  have hne : d ≠ c := fun he => h (he ▸ hd)
  simpa using hne

theorem findIdx?_first {a b : Name} (h : c ∉ a) : (a ++ c :: b).findIdx? (· = c) = some a.length := by
  simp [List.findIdx?_append, findIdx?_none h, List.findIdx?_cons]

theorem find_of_notMem (h : c ∉ s.drop p) : find s c p = npos := by
  simp only [find, findIdx?_none h]

theorem find_first {a b : Name} (hs : s.drop p = a ++ c :: b) (h : c ∉ a) : find s c p = p + a.length := by
  simp only [find, hs, findIdx?_first h]

theorem toInt_npos : toInt npos = -1 := by decide

theorem toInt_natCast {n : ℕ} (h : n < 2 ^ 31) : toInt n = n := toInt_of_range (by omega) (by omega)

theorem toInt_toInt_add (m n : ℤ) : toInt (toInt m + n) = toInt (m + n) := Int.bmod_add_bmod

/-- The length passed for a piece that nothing ends reaches beyond the string. -/
theorem take_to_end (hs : s.length < 2 ^ 31) (hp : p ≤ s.length) :
    (s.drop p).take (toSize (toInt (-1 - p))) = s.drop p := by
  rw [toInt_of_range (by omega) (by omega)]
  refine List.take_of_length_le ?_
  rw [List.length_drop]
  unfold toSize
  omega

/-! ### The loop -/

/-- One round, from a position in the string. -/
theorem parseLoop_round (hs : s.length < 2 ^ 31) (hp : p ≤ s.length) (fuel : ℕ) (cnt : ℤ) (peers : Finset Name) :
    parseLoop s (fuel + 1) (p - 1) cnt peers =
      if toInt (find s ':' p) ≠ -1 then
        parseLoop s fuel (toInt (find s ':' p)) (toInt (cnt + 1))
          (insert ((s.drop p).take (toSize (toInt (toInt (find s ':' p) - p)))) peers)
      else
        .ok (toInt (cnt + 1), insert ((s.drop p).take (toSize (toInt (toInt (find s ':' p) - p)))) peers) := by
  have hpos : toInt ((p : ℤ) - 1 + 1) = p := by
    rw [Int.sub_add_cancel]
    exact toInt_natCast (by omega)
  have hsize : toSize (p : ℤ) = p := toSize_natCast (by omega)
  rw [parseLoop]
  simp only [hpos, hsize, substr, if_pos hp, orThrow, bind, Except.bind]

/-- From a position in the string, the loop inserts the pieces between colons of
what is left, and counts them. -/
theorem parseLoop_eq (hs : s.length < 2 ^ 31) (fuel p : ℕ) (cnt : ℤ) (peers : Finset Name) (hp : p ≤ s.length)
    (hf : s.length - p < fuel) : parseLoop s fuel (p - 1) (toInt cnt) peers =
      .ok (toInt (cnt + ((s.drop p).splitOn ':').length), peers ∪ ((s.drop p).splitOn ':').toFinset) := by
  induction fuel generalizing p cnt peers with
  | zero => exact absurd hf (Nat.not_lt_zero _)
  | succ fuel ih =>
    rw [parseLoop_round hs hp, toInt_toInt_add]
    by_cases hc : ':' ∈ s.drop p
    · -- the piece ends at the next colon, and the loop goes on behind it
      obtain ⟨a, b, hab, ha⟩ := List.eq_append_cons_of_mem hc
      have hlen : (s.drop p).length = a.length + (b.length + 1) := by
        rw [hab, List.length_append, List.length_cons]
      rw [List.length_drop] at hlen
      have hrest : s.drop (p + a.length + 1) = b := by
        rw [Nat.add_assoc, ← List.drop_drop, hab, List.drop_append]
        simp
      have hnext : toInt (find s ':' p) = ((p + a.length + 1 : ℕ) : ℤ) - 1 := by
        rw [find_first hab ha, toInt_natCast (by omega)]
        omega
      have hpiece : (s.drop p).take (toSize (toInt (((p + a.length + 1 : ℕ) : ℤ) - 1 - p))) = a := by
        have hcount : ((p + a.length + 1 : ℕ) : ℤ) - 1 - p = a.length := by omega
        rw [hcount, toInt_natCast (by omega), toSize_natCast (by omega), hab]
        exact List.take_left
      have hcnt : cnt + 1 + (b.splitOn ':').length = cnt + ((b.splitOn ':').length + 1 : ℕ) := by
        push_cast
        ring
      rw [hnext, if_pos (by omega), hpiece, ih _ _ _ (by omega) (by omega), hrest, hab,
        List.splitOn_append_cons_self_of_not_mem ha, List.length_cons, List.toFinset_cons, hcnt,
        Finset.insert_union, Finset.union_insert]
    · -- the last piece
      rw [List.splitOn_eq_singleton hc, find_of_notMem hc, toInt_npos, if_neg (by simp), take_to_end hs hp]
      simp

theorem bind_ite {β γ δ : Type*} (x : Except Stop β) (q : Prop) [Decidable q] (f : β → δ) (g : β → γ → δ) (r : γ) :
    (x.bind fun b => if q then .ok (f b) else (Except.ok r).map (g b)) =
      x.map fun b => if q then f b else g b r := by
  cases x with
  | error e => rfl
  | ok b =>
    show (if q then Except.ok (f b) else Except.ok (g b r)) = Except.ok (if q then f b else g b r)
    split <;> rfl

/-- The parts together: the slash is at `n`, and `r` is what the loop comes to. -/
theorem parseIpString_of_find (hnil : s ≠ []) (hs : s.length < 2 ^ 31) {fuel : ℕ} {peers : Finset Name} {n : ℤ}
    {r : ℤ × Finset Name} (hn : toInt (find s '/' 0) = n) (hr : parseLoop s fuel n 0 peers = .ok r) :
    parseIpString fuel s peers =
      (parseEpoch s n).map fun epoch => if toSize n = s.length - 1 then (epoch, 0, peers) else (epoch, r) := by
  have hlast : subSize s.length 1 = s.length - 1 := subSize_of_le (List.length_pos_of_ne_nil hnil) (by omega)
  rw [parseIpString, if_neg hnil, hlast, hn]
  simp only [hr]
  exact bind_ite _ _ _ _ _

/-- **The parser by positions is the parser on lists**, on every string shorter
than `2^31` and with enough rounds. -/
theorem parseIpString_eq (hs : s.length < 2 ^ 31) {fuel : ℕ} (hf : s.length < fuel) (peers : Finset Name) :
    parseIpString fuel s peers = (orThrow (ComputeSideLog.parseIpString s)).map
      fun r => (r.1, toInt r.2.1, peers ∪ r.2.2) := by
  by_cases hnil : s = []
  · subst hnil
    simp [parseIpString, ComputeSideLog.parseIpString, orThrow, Except.map, toInt]
  have hcnt : toInt 0 = 0 := rfl
  rw [ComputeSideLog.parseIpString, if_neg hnil]
  by_cases hc : '/' ∈ s
  · obtain ⟨a, b, hab, ha⟩ := List.eq_append_cons_of_mem hc
    have hlen : s.length = a.length + (b.length + 1) := by rw [hab, List.length_append, List.length_cons]
    have hnext : toInt (find s '/' 0) = a.length := by
      rw [find_first (p := 0) hab ha, Nat.zero_add, toInt_natCast (by omega)]
    have hidx : s.findIdx? (· = '/') = some a.length := by rw [hab, findIdx?_first ha]
    have hepoch : parseEpoch s a.length = orThrow (if a.length = 0 then some 0 else stoul (s.take a.length)) := by
      by_cases h0 : a.length = 0
      · simp [parseEpoch, h0, orThrow]
      · have hfound : (a.length : ℤ) ≠ -1 ∧ (a.length : ℤ) ≠ 0 := by omega
        rw [parseEpoch, if_pos hfound, if_neg h0, toSize_natCast (by omega)]
        rfl
    have hloop := parseLoop_eq hs fuel (a.length + 1) 0 peers (by omega) (by omega)
    have hstart : ((a.length + 1 : ℕ) : ℤ) - 1 = a.length := by omega
    rw [hstart, hcnt, zero_add] at hloop
    rw [parseIpString_of_find hnil hs hnext hloop, hepoch, hidx, toSize_natCast (by omega)]
    dsimp only
    cases (if a.length = 0 then some 0 else stoul (s.take a.length)) with
    | none => rfl
    | some epoch =>
      by_cases hend : a.length = s.length - 1
      · simp [if_pos hend, orThrow, Except.map, hcnt]
      · simp [if_neg hend, orThrow, Except.map, parsePeers]
  · have hnext : toInt (find s '/' 0) = -1 := by rw [find_of_notMem (p := 0) hc, toInt_npos]
    have hloop := parseLoop_eq hs fuel 0 0 peers (Nat.zero_le _) (by omega)
    have hstart : ((0 : ℕ) : ℤ) - 1 = -1 := rfl
    have hepoch : parseEpoch s (-1) = .ok 0 := rfl
    have hmiss : toSize (-1) = 2 ^ 64 - 1 := rfl
    rw [hstart, hcnt, zero_add, List.drop_zero] at hloop
    rw [parseIpString_of_find hnil hs hnext hloop, hepoch, findIdx?_none hc, hmiss]
    show Except.ok (if _ then _ else _) = Except.ok _
    rw [if_neg (by omega)]
    rfl

end Positions

/-! ### Round trip -/

/-- A number in digits alone is read as it is. -/
theorem stoul_digits {ds : Name} (hne : ds ≠ []) (hd : ∀ c ∈ ds, c.isDigit) (hv : decimal ds < 2 ^ 64) :
    stoul ds = some (decimal ds) := by
  obtain ⟨d, tl, rfl⟩ := List.exists_cons_of_ne_nil hne
  have hdig : d.isDigit = true := hd d List.mem_cons_self
  have hblank : isSpace d = false := by
    by_contra h
    rw [Bool.not_eq_false] at h
    have hmem : d ∈ [' ', '\t', '\n', Char.ofNat 11, Char.ofNat 12, '\r'] := of_decide_eq_true h
    have hnone : ∀ c ∈ [' ', '\t', '\n', Char.ofNat 11, Char.ofNat 12, '\r'], c.isDigit = false := by
      simp only [List.forall_mem_cons]
      exact ⟨rfl, rfl, rfl, rfl, rfl, rfl, List.forall_mem_nil _⟩
    rw [hnone d hmem] at hdig
    exact absurd hdig (by decide)
  have hminus : d ≠ '-' := by
    rintro rfl
    exact absurd hdig (by decide)
  have hplus : d ≠ '+' := by
    rintro rfl
    exact absurd hdig (by decide)
  have hall : (d :: tl).takeWhile Char.isDigit = d :: tl := List.takeWhile_eq_self_iff.mpr hd
  unfold stoul
  simp only [List.dropWhile_cons, hblank, Bool.false_eq_true, if_false]
  split
  · rename_i heq
    exact absurd (List.cons.inj heq).1 hminus
  · rename_i heq
    exact absurd (List.cons.inj heq).1 hplus
  · rw [hall, if_neg (by simp only [reduceCtorEq, false_or]; omega)]
    rfl

theorem stoul_toDigits {n : ℕ} (h : n < 2 ^ 64) : stoul (Nat.toDigits 10 n) = some n := by
  have hval : decimal (Nat.toDigits 10 n) = n := Nat.ofDigitChars_ten_toDigits
  have hdigits : ∀ c ∈ Nat.toDigits 10 n, c.isDigit := fun c hc =>
    Nat.isDigit_of_mem_toDigits (by decide) (by decide) hc
  rw [stoul_digits Nat.toDigits_ne_nil hdigits (by rw [hval]; exact h), hval]

theorem length_le_intercalate {c : Char} : ∀ {ls : List Name}, (∀ l ∈ ls, l ≠ []) →
    ls.length ≤ ([c].intercalate ls).length
  | [], _ => Nat.zero_le _
  | [l], h => by
    have hpos := List.length_pos_of_ne_nil (h l List.mem_cons_self)
    simpa using Nat.succ_le_of_lt hpos
  | l :: l' :: ls, h => by
    have hrest := length_le_intercalate (c := c) fun x (hx : x ∈ l' :: ls) => h x (List.mem_cons_of_mem _ hx)
    have hpos := List.length_pos_of_ne_nil (h l List.mem_cons_self)
    rw [List.intercalate_cons_cons, List.length_append, List.length_append, List.length_cons]
    omega

section

variable {peers : Finset Name} (hv : ∀ a ∈ peers, ValidName a)
include hv

/-- The string has at least as many characters as there are addresses. -/
theorem card_le_length (epoch : ℕ) : peers.card ≤ (generateIpString peers epoch).length := by
  have hne : ∀ a ∈ inOrder peers, a ≠ [] := by
    intro a ha
    rw [inOrder_eq_sort, Finset.mem_sort] at ha
    exact (hv a ha).1
  have hcard : (inOrder peers).length = peers.card := by rw [inOrder_eq_sort, Finset.length_sort]
  rw [generateIpString, List.length_append, ← hcard]
  exact (length_le_intercalate hne).trans (Nat.le_add_left _ _)

theorem generate_zero_ne_nil (hne : peers.Nonempty) : generateIpString peers 0 ≠ [] := by
  have hcard := card_le_length hv 0
  have hpos : 0 < peers.card := hne.card_pos
  exact List.ne_nil_of_length_pos (by omega)

/-- Reading back what was written with an epoch gives the epoch and the peers. -/
theorem parseIpString_epoch {epoch : ℕ} (he : epoch < 2 ^ 64) :
    parseIpString (generateIpString peers epoch) = some (epoch, peers.card, peers) := by
  by_cases h0 : epoch = 0
  · rw [h0]
    exact parseIpString_generateIpString hv
  have hgen : generateIpString peers epoch = Nat.toDigits 10 epoch ++ '/' :: generateIpString peers 0 := by
    simp [generateIpString, h0]
  have hslash : '/' ∉ Nat.toDigits 10 epoch := by
    intro hmem
    exact absurd (Nat.isDigit_of_mem_toDigits (by decide) (by decide) hmem) (by decide)
  have hpos : 0 < (Nat.toDigits 10 epoch).length := List.length_pos_of_ne_nil Nat.toDigits_ne_nil
  rw [hgen, parseIpString, if_neg (by simp), Positions.findIdx?_first hslash]
  dsimp only
  rw [if_neg (by omega), List.take_left, stoul_toDigits he, Option.map_some]
  rcases peers.eq_empty_or_nonempty with rfl | hne
  · rw [if_pos (by simp [generateIpString, inOrder_eq_sort])]
    rfl
  · have hlen : 0 < (generateIpString peers 0).length := List.length_pos_of_ne_nil (generate_zero_ne_nil hv hne)
    have hrest : (Nat.toDigits 10 epoch ++ '/' :: generateIpString peers 0).drop ((Nat.toDigits 10 epoch).length + 1) =
        generateIpString peers 0 := by simp [List.drop_append]
    rw [if_neg (by rw [List.length_append, List.length_cons]; omega), hrest]
    simp only [parsePeers, splitOn_generate hv hne, Finset.length_sort, Finset.sort_toFinset]

end

/-- **Membership string round trip.** With enough rounds for its loop, the parser
returns the epoch and the number of peers for what `generateIpString` wrote,
and fills the empty set with exactly the peers. -/
theorem Positions.generated_parsed {peers : Finset Name} (hv : ∀ a ∈ peers, ValidName a) {epoch : ℕ}
    (he : epoch < 2 ^ 64) (hlen : (generateIpString peers epoch).length < 2 ^ 31) {fuel : ℕ}
    (hf : (generateIpString peers epoch).length < fuel) :
    Positions.parseIpString fuel (generateIpString peers epoch) ∅ = .ok (epoch, peers.card, peers) := by
  have hcard := card_le_length hv epoch
  rw [Positions.parseIpString_eq hlen hf, parseIpString_epoch hv he]
  show Except.ok (epoch, toInt peers.card, ∅ ∪ peers) = _
  rw [Positions.toInt_natCast (by omega), Finset.empty_union]

/-- Two addresses and an epoch; written in the order of the set. -/
theorem Positions.generated_parsed_two :
    generateIpString {"10.0.0.2".toList, "10.0.0.1".toList} 7 = "7/10.0.0.1:10.0.0.2".toList ∧
    Positions.parseIpString 20 (generateIpString {"10.0.0.2".toList, "10.0.0.1".toList} 7) ∅ =
      .ok (7, 2, {"10.0.0.2".toList, "10.0.0.1".toList}) :=
  ⟨by decide, Positions.generated_parsed (by decide) (by decide) (by decide) (by decide)⟩

end ComputeSideLog
