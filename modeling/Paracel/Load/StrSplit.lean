import Paracel.Load.Organize
import Paracel.Misc.SplitSet

/-!
# `str_split`

The two overloads of `str_split` (`include/utils/ext_utility.hpp`) with their
positions: `find` and `find_first_of` return `npos` when they find nothing, and
the difference `en - st` is then so large that `substr` stops at the end of the
string. Every parser of the loader rests on what comes out.
-/

namespace Paracel

open SplitSet

/-- `str_type::npos`, the largest `size_t`. -/
def npos : Nat := 2 ^ 64 - 1

/-- A string that a program can hold: its size is a `size_t` other than `npos`. -/
structure HeldStr where
  str : Str
  size_lt : str.length < npos

/-- `a - b` on `size_t`. -/
def sizeSub (a b : Nat) : Nat := (a + 2 ^ 64 - b) % 2 ^ 64

/-- The first position from `pos` on with a byte that satisfies `p`. -/
def findFrom (p : UInt8 → Bool) (str : Str) (pos : Nat) : Nat :=
  match (str.drop pos).findIdx? p with
  | some i => pos + i
  | none => npos

/-- `find` of one byte. -/
def find (str : Str) (sep : UInt8) (pos : Nat) : Nat :=
  findFrom (fun c => decide (c = sep)) str pos

/-- `find_first_of`. -/
def findFirstOf (str seps : Str) (pos : Nat) : Nat :=
  findFrom (fun c => decide (c ∈ seps)) str pos

/-- `substr`, which throws `out_of_range` when `pos` is behind the end. -/
def substr (str : Str) (pos count : Nat) : Option Str :=
  if str.length < pos then none else some ((str.drop pos).take count)

/-- The loop of `str_split`; `next` is how it looks for a separator. -/
def strSplitLoop (next : Nat → Nat) (str : Str) : Nat → Nat → List Str → Option (List Str)
  | 0, _, _ => none
  | fuel + 1, st, result =>
      let en := next st
      match substr str st (sizeSub en st) with
      | none => none
      | some s =>
          let result := if s.length ≠ 0 then result ++ [s] else result
          if en = npos then some result
          else strSplitLoop next str fuel (en + 1) result

/-- `str_split` at one byte. -/
def strSplitSep (str : Str) (sep : UInt8) : Option (List Str) :=
  strSplitLoop (find str sep) str (str.length + 1) 0 []

/-- `str_split` at any of the bytes of `seps`. -/
def strSplitSeps (str seps : Str) : Option (List Str) :=
  strSplitLoop (findFirstOf str seps) str (str.length + 1) 0 []

/-! ### One turn -/

section Loop

variable {p : UInt8 → Bool} {str : Str} {st : Nat}

theorem substr_eq (hst : st ≤ str.length) (count : Nat) :
    substr str st count = some ((str.drop st).take count) :=
  if_neg (not_lt.mpr hst)

/-- Without a further separator the search says `npos`, and the rest of the string is taken
    whole. -/
theorem findFrom_of_forall (h : ∀ c ∈ str.drop st, p c = false) : findFrom p str st = npos := by
  rw [findFrom, List.findIdx?_eq_none_iff.mpr h]

/-- Where a separator stands behind a clean stretch, its position is found. -/
theorem findFrom_of_append {s tail : Str} {c : UInt8} (hdrop : str.drop st = s ++ c :: tail)
    (hs : ∀ x ∈ s, p x = false) (hc : p c = true) : findFrom p str st = st + s.length := by
  have hfind : (s ++ c :: tail).findIdx? p = some s.length := by
    rw [List.findIdx?_append, List.findIdx?_eq_none_iff.mpr hs, List.findIdx?_cons, if_pos hc]
    simp
  rw [findFrom, hdrop, hfind]

theorem sizeSub_npos (hst : st ≤ npos) : sizeSub npos st = npos - st := by
  rw [sizeSub]
  simp only [npos] at hst ⊢
  omega

theorem sizeSub_add {k : Nat} (h : st + k < npos) : sizeSub (st + k) st = k := by
  rw [sizeSub]
  simp only [npos] at h
  omega

/-- What stands before the next separator, or before the end, is split off first. -/
theorem drop_cases (p : UInt8 → Bool) (str : Str) (st : Nat) :
    (∀ c ∈ str.drop st, p c = false) ∨
      ∃ s c tail, str.drop st = s ++ c :: tail ∧ (∀ x ∈ s, p x = false) ∧ p c = true := by
  by_cases h : ∀ c ∈ str.drop st, p c = false
  · exact .inl h
  · right
    cases hfind : (str.drop st).find? p with
    | none =>
        rw [List.find?_eq_none] at hfind
        exact absurd (fun c hc => by simpa using hfind c hc) h
    | some c =>
        obtain ⟨hc, s, tail, hdrop, hs⟩ := List.find?_eq_some_iff_append.mp hfind
        exact ⟨s, c, tail, hdrop, fun x hx => by simpa using hs x hx, hc⟩

/-- A piece that may be empty, as `push_back` keeps it. -/
theorem push_eq_split {s : Str} (hs : ∀ c ∈ s, p c = false) (result : List Str) :
    (if s.length ≠ 0 then result ++ [s] else result) = result ++ SplitSet.split p s := by
  by_cases hne : s = []
  · subst hne
    simp
  · rw [split_of_forall hne hs, if_pos (by simpa using hne)]

/-- The loop reads inside of the string only, ends, and adds the pieces of the rest. -/
theorem strSplitLoop_eq (hlen : str.length < npos) (fuel : Nat) (result : List Str)
    (hst : st ≤ str.length) (hfuel : str.length - st < fuel) :
    strSplitLoop (findFrom p str) str fuel st result =
      some (result ++ SplitSet.split p (str.drop st)) := by
  induction fuel generalizing st result with
  | zero => omega
  | succ fuel ih =>
      rw [strSplitLoop]
      simp only [substr_eq hst]
      rcases drop_cases p str st with hclean | ⟨s, c, tail, hdrop, hs, hc⟩
      · have hall : (str.drop st).take (sizeSub npos st) = str.drop st := by
          rw [sizeSub_npos (by omega)]
          apply List.take_of_length_le
          rw [List.length_drop]
          omega
        rw [findFrom_of_forall hclean, if_pos rfl, hall, push_eq_split hclean]
      · have hlength := congrArg List.length hdrop
        rw [List.length_drop, List.length_append, List.length_cons] at hlength
        have hnext : str.drop (st + s.length + 1) = tail := by
          rw [Nat.add_assoc, ← List.drop_drop, hdrop, ← List.drop_drop, List.drop_left]
          rfl
        have hpiece : (str.drop st).take (sizeSub (st + s.length) st) = s := by
          rw [sizeSub_add (by omega), hdrop, List.take_left]
        rw [findFrom_of_append hdrop hs hc, hpiece, push_eq_split hs, if_neg (by omega),
          ih _ (by omega) (by omega), hnext, hdrop, split_append_cons s tail hc, List.append_assoc]

end Loop

/-! ### Both overloads -/

/-- Splitting at a set of bytes is what the parsers of the loader are modelled with. -/
theorem strSplitSeps_eq (s : HeldStr) (seps : Str) :
    strSplitSeps s.str seps = some (strSplit s.str seps) := by
  have hloop := strSplitLoop_eq (p := fun c => decide (c ∈ seps)) s.size_lt (s.str.length + 1) []
    (Nat.zero_le _) (by omega)
  rwa [List.drop_zero, List.nil_append] at hloop

/-- Splitting at one byte is splitting at the set with that byte. -/
theorem strSplitSep_eq (str : Str) (sep : UInt8) :
    strSplitSep str sep = strSplitSeps str [sep] := by
  have hnext : find str sep = findFirstOf str [sep] := by
    funext pos
    simp only [find, findFirstOf, List.mem_singleton]
  rw [strSplitSep, strSplitSeps, hnext]

/-- Both overloads end with all positions of `substr` in range, and return the longest runs
    of bytes that are no separators, in order; one separator and the set of it make no
    difference; so words joined by a separator are returned. -/
theorem str_split_runs (s : HeldStr) :
    (∀ seps : Str, ∃ pieces, strSplitSeps s.str seps = some pieces ∧
      (∀ w ∈ pieces, w ≠ [] ∧ ∀ c ∈ w, c ∉ seps) ∧
      AreRuns (fun c => decide (c ∈ seps)) s.str pieces) ∧
    (∀ sep : UInt8, strSplitSep s.str sep = strSplitSeps s.str [sep]) ∧
    ∀ (seps : Str) (sep : UInt8) (words : List Str), sep ∈ seps →
      (∀ w ∈ words, w ≠ [] ∧ ∀ c ∈ w, c ∉ seps) → s.str = List.intercalate [sep] words →
      strSplitSeps s.str seps = some words := by
  refine ⟨?_, strSplitSep_eq s.str, ?_⟩
  · intro seps
    refine ⟨strSplit s.str seps, strSplitSeps_eq s seps, ?_, split_areRuns s.str⟩
    intro w hw
    obtain ⟨hne, hclean⟩ := SplitSet.mem_split hw
    exact ⟨hne, fun c hc => by simpa using hclean c hc⟩
  · intro seps sep words hsep hwords hjoin
    rw [strSplitSeps_eq s seps, hjoin]
    refine congrArg some (split_intercalate (by simpa using hsep) ?_)
    intro w hw
    exact ⟨(hwords w hw).1, fun c hc => by simpa using (hwords w hw).2 c hc⟩

/-- The words of a line that is joined by one of two separators. -/
theorem str_split_runs_line :
    strSplitSeps (lit "ab|c") (lit "?|") = some [lit "ab", lit "c"] := by
  refine (str_split_runs ⟨lit "ab|c", by decide⟩).2.2 (lit "?|") 124 [lit "ab", lit "c"]
    (by decide) ?_ rfl
  intro w hw
  rcases List.mem_pair.mp hw with rfl | rfl
  · exact ⟨List.cons_ne_nil _ _, List.forall_iff_forall_mem.mp (by decide)⟩
  · exact ⟨List.cons_ne_nil _ _, List.forall_iff_forall_mem.mp (by decide)⟩

end Paracel
