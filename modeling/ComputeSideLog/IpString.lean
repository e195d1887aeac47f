/-
# The string of the membership record

A client stores its peers in ZooKeeper as one string: an epoch and a slash,
if the epoch is not 0, and the addresses in the order of the `std::set`,
with colons between them (`src/util.h`). `generateIpString` writes it and
`parseIpString` reads it back; the latter throws if what stands before the
slash is no number.

Key definitions: `Name`, `inOrder`, `generateIpString`, `parseIpString`,
`ValidName`.
Key theorem: `parseIpString_generateIpString`.
-/
import Mathlib.Data.Char
import Mathlib.Data.Finset.Sort
import Mathlib.Data.List.Lex
import Mathlib.Data.Nat.Digits.Defs

namespace ComputeSideLog

/-- A string. -/
abbrev Name := List Char

/-- `isspace` in the C locale. -/
def isSpace (c : Char) : Bool := c ∈ [' ', '\t', '\n', Char.ofNat 11, Char.ofNat 12, '\r']

/-- The value of a string of decimal digits. -/
def decimal (ds : Name) : ℕ := ds.foldl (fun v c => 10 * v + (c.toNat - '0'.toNat)) 0

/-- `std::stoul`: leading blanks, a sign, and digits; `none` if it throws. -/
def stoul (s : Name) : Option ℕ :=
  let s := s.dropWhile isSpace
  let (neg, s) := match s with
    | '-' :: s => (true, s)
    | '+' :: s => (false, s)
    | s => (false, s)
  let ds := s.takeWhile Char.isDigit
  if ds = [] ∨ 2 ^ 64 ≤ decimal ds then none
  else some (if neg then (2 ^ 64 - decimal ds) % 2 ^ 64 else decimal ds)

/-- The order in which a `std::set` is iterated. -/
def inOrder (peers : Finset Name) : List Name :=
  Quot.liftOn peers.1 (List.insertionSort (· ≤ ·)) fun l l' h =>
    List.Perm.eq_of_sortedLE List.sortedLE_insertionSort List.sortedLE_insertionSort
      (((List.perm_insertionSort _ l).trans h).trans (List.perm_insertionSort _ l').symm)

/-- `generateIpString`. -/
def generateIpString (peers : Finset Name) (epoch : ℕ) : Name :=
  (if epoch ≠ 0 then Nat.toDigits 10 epoch ++ ['/'] else []) ++ [':'].intercalate (inOrder peers)

/-- The loop of `parseIpString`: the number of pieces between colons, and the
set they are inserted into. -/
def parsePeers (s : Name) : ℕ × Finset Name := ((s.splitOn ':').length, (s.splitOn ':').toFinset)

/-- `parseIpString` with an empty set: the epoch, the number of addresses and
the set after it; `none` if `stoul` throws. -/
def parseIpString (s : Name) : Option (ℕ × ℕ × Finset Name) :=
  if s = [] then some (0, 0, ∅)
  else
    match s.findIdx? (· = '/') with
    | none => some (0, parsePeers s)
    | some i =>
      (if i = 0 then some 0 else stoul (s.take i)).map fun epoch =>
        if i = s.length - 1 then (epoch, 0, ∅) else (epoch, parsePeers (s.drop (i + 1)))

/-- An address: not empty, and without the separators. -/
def ValidName (a : Name) : Prop := a ≠ [] ∧ ':' ∉ a ∧ '/' ∉ a

instance (a : Name) : Decidable (ValidName a) := inferInstanceAs (Decidable (_ ∧ _ ∧ _))

theorem inOrder_eq_sort (peers : Finset Name) : inOrder peers = peers.sort := by
  obtain ⟨⟨l⟩, hn⟩ := peers
  exact (List.mergeSort_eq_insertionSort (· ≤ ·) l).symm

theorem mem_intercalate {x c : Char} : ∀ {ls : List Name}, x ∈ [c].intercalate ls → x = c ∨ ∃ l ∈ ls, x ∈ l
  | [], h => by simp at h
  | [l], h => .inr ⟨l, by simp, by simpa using h⟩
  | l :: l' :: ls, h => by
    rw [List.intercalate_cons_cons, List.mem_append, List.mem_append, List.mem_singleton] at h
    rcases h with (h | h) | h
    · exact .inr ⟨l, List.mem_cons_self, h⟩
    · exact .inl h
    · exact (mem_intercalate h).imp id fun ⟨l₁, hl, hx⟩ => ⟨l₁, List.mem_cons_of_mem _ hl, hx⟩

/-- A string without a slash has no epoch, and all of it is addresses. -/
theorem parseIpString_of_noSlash {s : Name} (hs : s ≠ []) (h : '/' ∉ s) :
    parseIpString s = some (0, parsePeers s) := by
  have hfind : s.findIdx? (· = '/') = none := by
    rw [List.findIdx?_eq_none_iff]
    intro c hc
    have hne : c ≠ '/' := by
      rintro rfl
      exact h hc
    simpa using hne
  unfold parseIpString
  rw [if_neg hs, hfind]

section

variable {peers : Finset Name} (hv : ∀ a ∈ peers, ValidName a)
include hv

/-- Nothing in the string is a slash. -/
theorem slash_notMem_generate : '/' ∉ generateIpString peers 0 := by
  intro h
  simp only [generateIpString, ne_eq, not_true_eq_false, if_false, List.nil_append] at h
  rcases mem_intercalate h with h | ⟨a, ha, h⟩
  · exact absurd h (by decide)
  · rw [inOrder_eq_sort, Finset.mem_sort] at ha
    exact (hv a ha).2.2 h

theorem splitOn_generate (hne : peers.Nonempty) :
    (generateIpString peers 0).splitOn ':' = peers.sort := by
  have hsort : peers.sort ≠ [] := by
    obtain ⟨a, ha⟩ := hne
    exact List.ne_nil_of_mem ((Finset.mem_sort _).mpr ha)
  simp only [generateIpString, ne_eq, not_true_eq_false, if_false, List.nil_append, inOrder_eq_sort]
  refine List.splitOn_intercalate ':' (fun a ha => ?_) hsort
  rw [Finset.mem_sort] at ha
  exact (hv a ha).2.1

/-- Reading back what was written gives the peers. -/
theorem parseIpString_generateIpString :
    parseIpString (generateIpString peers 0) = some (0, peers.card, peers) := by
  rcases peers.eq_empty_or_nonempty with rfl | hne
  · rfl
  · have hsplit := splitOn_generate hv hne
    have hsome : generateIpString peers 0 ≠ [] := by
      intro h
      rw [h, List.splitOn_nil] at hsplit
      -- the only piece of the empty string is empty, and no address is
      have hmem : ([] : Name) ∈ peers.sort := by
        rw [← hsplit]
        exact List.mem_singleton.mpr rfl
      rw [Finset.mem_sort] at hmem
      exact (hv [] hmem).1 rfl
    rw [parseIpString_of_noSlash hsome (slash_notMem_generate hv)]
    simp only [parsePeers, hsplit, Finset.length_sort, Finset.sort_toFinset]

end

end ComputeSideLog
