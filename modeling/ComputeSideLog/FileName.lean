/-
# Names and extensions of files

`getFileName` and `getFileExt` (`src/ncl_stat.h`) take a path apart with
`rfind` and `substr`. `getFileName` looks for the last slash and the last
dot, each in the whole string. Where the dot is in a directory its length
argument is negative, which as a `size_t` reaches beyond the end, so that
`substr` gives the whole last part of the path, as it should. No call throws.
`getFileExt` looks for the dot only: with a dot in a directory and none in
the last part it returns what follows that dot, slashes included.

So the name is right for every path, and the extension exactly if the last
part has a dot or the path has none (`file_name_decomposition`). The last
part of `s` is `lastPart s`, all of it if there is no slash.

Key definitions: `rfind`, `getFileExt`, `getFileName`, `getParentDir`,
`checkFileNamePrefix`, `lastPart`, `Decomposes`.
Key theorems: `rfind_cases`, `getFileName_spec`, `getFileExt_spec`,
`file_name_decomposition`.
-/
import Mathlib.Data.List.DropRight
import ComputeSideLog.IpParse

namespace ComputeSideLog
namespace Positions

/-- `std::string::rfind` of a character at or before `pos`. -/
def rfind (s : Name) (c : Char) : ℕ → ℕ
  | 0 => if s[0]? = some c then 0 else npos
  | pos + 1 => if s[pos + 1]? = some c then pos + 1 else rfind s c pos

/-- `getFileExt`, `none` if `substr` throws. -/
def getFileExt (s : Name) : Option Name :=
  let i := rfind s '.' s.length
  if i ≠ npos then substr s ((i + 1) % 2 ^ 64) (subSize s.length i) else some []

/-- `getFileName`. -/
def getFileName (s : Name) : Option Name :=
  let l := rfind s '/' s.length
  let r := rfind s '.' s.length
  if l ≠ npos ∧ r ≠ npos then substr s ((l + 1) % 2 ^ 64) (subSize (subSize r l) 1)
  else if l ≠ npos then substr s ((l + 1) % 2 ^ 64) (subSize s.length l)
  else if r ≠ npos then substr s 0 r
  else some s

/-- `getParentDir`. -/
def getParentDir (s : Name) : Option Name :=
  let r := rfind s '/' s.length
  if r = 0 then some []
  else if r ≠ npos then
    let l := rfind s '/' (r - 1)
    if l ≠ npos then substr s ((l + 1) % 2 ^ 64) (subSize (subSize r l) 1) else substr s 0 r
  else some []

/-- `checkFileNamePrefix`. -/
def checkFileNamePrefix (s pre : Name) : Option Bool :=
  (getFileName s).map fun filename => filename.take pre.length = pre

/-- The part after the last slash. -/
def lastPart (s : Name) : Name := s.rtakeWhile (· ≠ '/')

/-- What the name and the extension of a path must be. -/
def Decomposes (s : Name) : Prop :=
  ∃ n e, getFileName s = some n ∧ getFileExt s = some e ∧
    if '.' ∈ lastPart s then lastPart s = n ++ '.' :: e ∧ '.' ∉ e else n = lastPart s ∧ e = []

/-! ### The last occurrence of a character -/

variable {s a b : Name} {x : Char}

/-- Nothing is found up to `pos`, or the last occurrence. -/
theorem rfind_cases (s : Name) (x : Char) (pos : ℕ) :
    (x ∉ s.take (pos + 1) ∧ rfind s x pos = npos) ∨
    ∃ a b, s.take (pos + 1) = a ++ x :: b ∧ x ∉ b ∧ rfind s x pos = a.length := by
  induction pos with
  | zero =>
    rw [rfind, List.take_add_one, List.take_zero, List.nil_append]
    by_cases h : s[0]? = some x
    · rw [if_pos h, h]
      exact .inr ⟨[], [], rfl, List.not_mem_nil, rfl⟩
    · rw [if_neg h]
      exact .inl ⟨fun hx => h (Option.mem_toList.mp hx), rfl⟩
  | succ pos ih =>
    rw [rfind, List.take_add_one]
    by_cases h : s[pos + 1]? = some x
    · have hlen : (s.take (pos + 1)).length = pos + 1 := by
        rw [List.length_take]
        exact min_eq_left (List.getElem?_eq_some_iff.mp h).1.le
      rw [if_pos h, h]
      exact .inr ⟨s.take (pos + 1), [], rfl, List.not_mem_nil, hlen.symm⟩
    · have hlast : x ∉ s[pos + 1]?.toList := fun hx => h (Option.mem_toList.mp hx)
      rw [if_neg h]
      rcases ih with ⟨hnot, hf⟩ | ⟨a, b, hs, hb, hf⟩
      · exact .inl ⟨fun hx => (List.mem_append.mp hx).elim hnot hlast, hf⟩
      · refine .inr ⟨a, b ++ s[pos + 1]?.toList, ?_, fun hx => (List.mem_append.mp hx).elim hb hlast, hf⟩
        rw [hs, List.append_assoc, List.cons_append]

/-- In the whole string. -/
theorem rfind_length_cases (s : Name) (x : Char) : (x ∉ s ∧ rfind s x s.length = npos) ∨
    ∃ a b, s = a ++ x :: b ∧ x ∉ b ∧ rfind s x s.length = a.length := by
  have hall : s.take (s.length + 1) = s := List.take_of_length_le (Nat.le_succ _)
  simpa only [hall] using rfind_cases s x s.length

/-- What follows the last occurrence is the longest end without one. -/
theorem rtakeWhile_split (hb : x ∉ b) : (a ++ x :: b).rtakeWhile (· ≠ x) = b := by
  have hpos : ∀ y ∈ b.reverse, (decide (y ≠ x)) = true := by
    intro y hy
    have hne : y ≠ x := fun he => hb (he ▸ List.mem_reverse.mp hy)
    simpa using hne
  rw [List.rtakeWhile, List.reverse_append, List.reverse_cons, List.append_assoc,
    List.takeWhile_append_of_pos hpos]
  simp

/-- `substr` from behind a character. -/
theorem substr_after (hs : (a ++ x :: b).length < npos) (count : ℕ) :
    substr (a ++ x :: b) ((a.length + 1) % 2 ^ 64) count = some (b.take count) := by
  simp only [List.length_append, List.length_cons, npos] at hs
  have hmod : (a.length + 1) % 2 ^ 64 = a.length + 1 := Nat.mod_eq_of_lt (by omega)
  rw [hmod, substr, if_pos (by simp), ← List.drop_drop, List.drop_left]
  rfl

theorem ne_npos (hs : (a ++ x :: b).length < npos) : a.length ≠ npos := by
  simp only [List.length_append, List.length_cons, npos] at hs ⊢
  omega

/-! ### The functions on a path -/

/-- **What `getFileExt` returns**: nothing, or what follows the last dot. -/
theorem getFileExt_spec (hs : s.length < npos) : ∃ e, getFileExt s = some e ∧
    (('.' ∉ s ∧ e = []) ∨ '.' ∉ e ∧ ∃ a, s = a ++ '.' :: e) := by
  unfold getFileExt
  rcases rfind_length_cases s '.' with ⟨hdot, hf⟩ | ⟨a, e, rfl, he, hf⟩
  · exact ⟨[], by simp only [hf]; rfl, .inl ⟨hdot, rfl⟩⟩
  · refine ⟨e, ?_, .inr ⟨he, a, rfl⟩⟩
    simp only [hf]
    rw [if_pos (ne_npos hs), substr_after hs, Option.some.injEq]
    refine List.take_of_length_le ?_
    have hlt : (a ++ '.' :: e).length < 2 ^ 64 := hs.trans (by decide)
    rw [subSize_of_le (by simp) hlt]
    simp only [List.length_append, List.length_cons]
    omega

theorem lastPart_of_slash (hb : '/' ∉ b) : lastPart (a ++ '/' :: b) = b := rtakeWhile_split hb

theorem lastPart_of_notMem (h : '/' ∉ s) : lastPart s = s := by
  refine List.rtakeWhile_eq_self_iff.mpr fun y hy => ?_
  have hne : y ≠ '/' := fun he => h (he ▸ hy)
  simpa using hne

/-- The last dot is before the last slash, and the last part has none, or it is in
the last part. -/
theorem dot_slash_cases {d c e : Name} (h : d ++ '/' :: c = a ++ '.' :: e) (he : '.' ∉ e) :
    (a.length < d.length ∧ '.' ∉ c) ∨ ∃ n, a = d ++ '/' :: n ∧ c = n ++ '.' :: e := by
  rcases List.append_eq_append_iff.mp h with ⟨t, rfl, ht⟩ | ⟨t, rfl, ht⟩
  · cases t with
    | nil => exact absurd (List.cons.inj ht).1 (by decide)
    | cons y t =>
      obtain ⟨rfl, rfl⟩ := List.cons.inj ht
      exact .inr ⟨t, rfl, rfl⟩
  · cases t with
    | nil => exact absurd (List.cons.inj ht).1 (by decide)
    | cons y t =>
      obtain ⟨-, rfl⟩ := List.cons.inj ht
      exact .inl ⟨by simp, fun hc => he (List.mem_append_right t (List.mem_cons_of_mem _ hc))⟩

/-- **What `getFileName` returns**: the last part of the path, up to its last dot. -/
theorem getFileName_spec (hs : s.length < npos) : ∃ n, getFileName s = some n ∧
    (('.' ∉ lastPart s ∧ n = lastPart s) ∨ ∃ e, '.' ∉ e ∧ lastPart s = n ++ '.' :: e) := by
  have hlt : s.length < 2 ^ 64 := hs.trans (by decide)
  unfold getFileName
  rcases rfind_length_cases s '/' with ⟨hslash, hl⟩ | ⟨d, c, hd, hc, hl⟩
  · rw [lastPart_of_notMem hslash]
    rcases rfind_length_cases s '.' with ⟨hdot, hr⟩ | ⟨a, e, ha, he, hr⟩
    · exact ⟨s, by simp [hl, hr], .inl ⟨hdot, rfl⟩⟩
    · refine ⟨a, ?_, .inr ⟨e, he, ha⟩⟩
      have hne : a.length ≠ npos := ne_npos (ha ▸ hs)
      simp only [hl, hr, ne_eq, not_true_eq_false, false_and, if_false, if_pos hne]
      rw [substr, if_pos (Nat.zero_le _), ha]
      simp
  · have hlne : d.length ≠ npos := ne_npos (hd ▸ hs)
    have hsub : ∀ count, substr s ((d.length + 1) % 2 ^ 64) count = some (c.take count) := by
      rw [hd]
      exact substr_after (hd ▸ hs)
    have hlast : lastPart s = c := hd ▸ lastPart_of_slash hc
    have hlen : d.length + (c.length + 1) = s.length := by simp [hd]
    rw [hlast]
    rcases rfind_length_cases s '.' with ⟨hdot, hr⟩ | ⟨a, e, ha, he, hr⟩
    · refine ⟨c, ?_, .inl ⟨fun h => hdot (by rw [hd]; simp [h]), rfl⟩⟩
      simp only [hl, hr, ne_eq, not_true_eq_false, and_false, if_false, hlne, not_false_eq_true, if_true, hsub]
      rw [subSize_of_le (by omega) hlt, List.take_of_length_le (by omega)]
    · have hrne : a.length ≠ npos := ne_npos (ha ▸ hs)
      have hlena : a.length + (e.length + 1) = s.length := by simp [ha]
      simp only [hl, hr, ne_eq, hlne, hrne, not_false_eq_true, and_self, if_true, hsub]
      rcases dot_slash_cases (hd.symm.trans ha) he with ⟨hbefore, hdot⟩ | ⟨n, rfl, rfl⟩
      · -- a dot in a directory: the length is negative and reaches beyond the end
        refine ⟨c, ?_, .inl ⟨hdot, rfl⟩⟩
        rw [List.take_of_length_le]
        unfold subSize
        omega
      · refine ⟨n, ?_, .inr ⟨e, he, rfl⟩⟩
        have hcount : subSize (subSize (d ++ '/' :: n).length d.length) 1 = n.length := by
          simp only [List.length_append, List.length_cons] at hlena ⊢
          unfold subSize
          omega
        rw [hcount, List.take_left]

/-- **The decomposition of a path.** No call throws, and the name and the
extension make up the last part of the path if and only if the last part
has a dot or the path has none. -/
theorem file_name_decomposition (s : Name) (hs : s.length < npos) :
    (getFileName s).isSome = true ∧ (getFileExt s).isSome = true ∧
      (Decomposes s ↔ '.' ∈ lastPart s ∨ '.' ∉ s) := by
  obtain ⟨n, hn, hname⟩ := getFileName_spec hs
  obtain ⟨e, he, hext⟩ := getFileExt_spec hs
  obtain ⟨d, hd⟩ : lastPart s <:+ s := List.rtakeWhile_suffix _ _
  refine ⟨by rw [hn]; rfl, by rw [he]; rfl, ⟨?_, ?_⟩⟩
  · rintro ⟨n', e', hn', he', hdec⟩
    obtain rfl := Option.some.inj (he.symm.trans he')
    by_cases hdot : '.' ∈ lastPart s
    · exact .inl hdot
    · rw [if_neg hdot] at hdec
      rcases hext with ⟨hno, -⟩ | ⟨-, a, ha⟩
      · exact .inr hno
      · -- nothing after the last dot: then the path, and so its last part, ends in it
        rw [hdec.2] at ha
        refine absurd ?_ hdot
        rw [lastPart, ha, List.rtakeWhile_concat_pos _ _ _ (by decide)]
        simp
  · intro h
    refine ⟨n, e, hn, he, ?_⟩
    rcases hname with ⟨hdot, rfl⟩ | ⟨e', he', hlast⟩
    · rw [if_neg hdot]
      exact ⟨rfl, (hext.resolve_right fun ⟨_, a, ha⟩ => (h.resolve_left hdot) (by rw [ha]; simp)).2⟩
    · have hmem : '.' ∈ lastPart s := by
        rw [hlast]
        simp
      rw [if_pos hmem]
      have hs' : s = (d ++ n) ++ '.' :: e' := by
        rw [List.append_assoc, ← hlast]
        exact hd.symm
      rcases hext with ⟨hno, -⟩ | ⟨hdot, a, ha⟩
      · exact absurd (by rw [hs']; simp) hno
      · obtain rfl : e = e' := by
          rw [← rtakeWhile_split (a := a) hdot, ← ha, hs', rtakeWhile_split he']
        exact ⟨hlast, hdot⟩

/-- `dir.d/archive.tar.gz` comes apart at its last dot. -/
theorem file_name_decomposition_archive : Decomposes "dir.d/archive.tar.gz".toList :=
  ((file_name_decomposition "dir.d/archive.tar.gz".toList (by decide)).2.2).mpr (.inl (by decide))

/-- `/a.b/c` has the extension `b/c`. -/
theorem dot_in_directory : getFileExt "/a.b/c".toList = some "b/c".toList ∧ getFileName "/a.b/c".toList = some ['c'] ∧
    ¬ Decomposes "/a.b/c".toList := by
  have hext : getFileExt "/a.b/c".toList = some "b/c".toList := by decide
  refine ⟨hext, by decide, ?_⟩
  rintro ⟨n, e, -, he, hdec⟩
  rw [if_neg (by decide)] at hdec
  exact absurd (hext.symm.trans (he.trans (congrArg some hdec.2))) (by decide)

end Positions
end ComputeSideLog
