import Mathlib.Data.List.AList
import Mathlib.Data.List.TakeWhile

/-!
# Types shared by clients and servers

`include/paracel_types.hpp` and the string helpers of
`include/utils/ext_utility.hpp`. A `str_type` is a list of bytes, so that keys,
packed values and whole messages are one type, as they are in the source. A
`dict_type` is a list of entries with pairwise distinct keys; the order of the
entries is the iteration order of the hash table, which the source leaves open.
-/

namespace Paracel

/-- `paracel::str_type`, a byte string. -/
abbrev Str := List UInt8

/-- The bytes of a literal of the source; all of them are ASCII. -/
def lit (s : String) : Str :=
  s.toList.map fun c => UInt8.ofNat c.toNat

/-- `std::to_string` on a non-negative integer. -/
def toStr (n : Nat) : Str :=
  (Nat.toDigits 10 n).map fun c => UInt8.ofNat c.toNat

/-- What `operator<<` prints for an `int`. -/
def intStr (i : Int) : Str :=
  if i < 0 then lit "-" ++ toStr i.natAbs else toStr i.natAbs

/-- `paracel::startswith`: `str.find(key) == 0`. -/
def startswith (str key : Str) : Bool :=
  key.isPrefixOf str

/-- `paracel::seperator`. -/
def seperator : Str := lit "_PARACEL_"

/-- `paracel::seperator_inner`. -/
def seperatorInner : Str := lit "_ps_"

theorem seperator_ne_nil : seperator ≠ [] :=
  List.cons_ne_nil _ _

theorem seperatorInner_ne_nil : seperatorInner ≠ [] :=
  List.cons_ne_nil _ _

/-- `paracel::triple_type`, over the weights `W`. -/
abbrev Triple (W : Type) := Str × Str × W

/-- `paracel::dict_type`. -/
abbrev Dict (K V : Type) := AList fun _ : K => V

/-- A loop whose body succeeds on every member. -/
theorem mapM_eq_some {α β : Type} {f : α → Option β} {g : α → β} {l : List α}
    (h : ∀ a ∈ l, f a = some (g a)) : l.mapM f = some (l.map g) := by
  induction l with
  | nil => rfl
  | cons a l ih =>
      have hrest := ih fun a' ha' => h a' (List.mem_cons_of_mem _ ha')
      rw [List.mapM_cons, h a List.mem_cons_self, hrest]
      rfl

/-- Where `mapM` has a result, the function has one on every element. -/
theorem exists_of_mapM_eq_some {α β : Type} {f : α → Option β} {l : List α} {bs : List β}
    (h : l.mapM f = some bs) : ∀ a ∈ l, ∃ b, f a = some b := by
  induction l generalizing bs with
  | nil =>
      intro a ha
      cases ha
  | cons a l ih =>
      rw [List.mapM_cons] at h
      obtain ⟨b, hb, hrest⟩ := Option.bind_eq_some_iff.mp h
      obtain ⟨bs', hbs', -⟩ := Option.bind_eq_some_iff.mp hrest
      intro x hx
      rcases List.mem_cons.mp hx with rfl | hx
      · exact ⟨b, hb⟩
      · exact ih hbs' x hx

private theorem digitByte_toChar {c : Char} (hc : c.isDigit) :
    Char.ofNat (UInt8.ofNat c.toNat).toNat = c := by
  have hle : c.toNat ≤ 57 := by
    simp only [Char.isDigit, Bool.and_eq_true, decide_eq_true_eq] at hc
    exact hc.2
  rw [UInt8.toNat_ofNat', Nat.mod_eq_of_lt (by omega)]
  exact Char.ofNat_toNat c

private theorem toDigits_of_toStr (n : Nat) :
    Nat.toDigits 10 n = (toStr n).map fun b => Char.ofNat b.toNat := by
  rw [toStr, List.map_map]
  refine (List.map_id _).symm.trans (List.map_congr_left ?_)
  intro c hc
  exact (digitByte_toChar (Nat.isDigit_of_mem_toDigits (by omega) (by omega) hc)).symm

/-- Distinct numbers print differently, so distinct clock slots have distinct keys. -/
theorem toStr_injective : Function.Injective toStr := by
  intro m n h
  have hdigits : Nat.toDigits 10 m = Nat.toDigits 10 n := by
    rw [toDigits_of_toStr, toDigits_of_toStr, h]
  calc
    m = Nat.ofDigitChars 10 (Nat.toDigits 10 m) 0 := Nat.ofDigitChars_ten_toDigits.symm
    _ = Nat.ofDigitChars 10 (Nat.toDigits 10 n) 0 := by rw [hdigits]
    _ = n := Nat.ofDigitChars_ten_toDigits

/-- A number is printed in digits. -/
theorem mem_toStr {n : Nat} {b : UInt8} (h : b ∈ toStr n) : 48 ≤ b.toNat ∧ b.toNat ≤ 57 := by
  rcases List.mem_map.mp h with ⟨c, hc, rfl⟩
  have hdigit := Nat.isDigit_of_mem_toDigits (by omega) (by omega) hc
  simp only [Char.isDigit, Bool.and_eq_true, decide_eq_true_eq] at hdigit
  have hlow : 48 ≤ c.toNat := hdigit.1
  have hhigh : c.toNat ≤ 57 := hdigit.2
  rw [UInt8.toNat_ofNat', Nat.mod_eq_of_lt (by omega)]
  exact ⟨hlow, hhigh⟩

/-- No text of a number starts like a negative one, so the sign can be read off. -/
private theorem intStr_nonneg_ne {i j : Int} (hi : ¬i < 0) (hj : j < 0) : intStr i ≠ intStr j := by
  intro h
  rw [intStr, intStr, if_neg hi, if_pos hj] at h
  have hmem : (45 : UInt8) ∈ toStr i.natAbs := by
    rw [h]
    exact List.mem_append_left _ (by decide)
  exact absurd (mem_toStr hmem).1 (by decide)

theorem intStr_injective : Function.Injective intStr := by
  intro i j h
  by_cases hi : i < 0
  · by_cases hj : j < 0
    · rw [intStr, intStr, if_pos hi, if_pos hj] at h
      have habs := toStr_injective (List.append_cancel_left h)
      omega
    · exact absurd h.symm (intStr_nonneg_ne hj hi)
  · by_cases hj : j < 0
    · exact absurd h (intStr_nonneg_ne hi hj)
    · rw [intStr, intStr, if_neg hi, if_neg hj] at h
      have habs := toStr_injective h
      omega

theorem toStr_ne_nil (n : Nat) : toStr n ≠ [] := by
  simp [toStr, Nat.toDigits_ne_nil]

/-- `std::isdigit`. -/
def isDigit (c : UInt8) : Bool :=
  48 ≤ c && c ≤ 57

/-- The number that digits stand for. -/
def decVal (ds : Str) : Nat :=
  ds.foldl (fun n c => 10 * n + (c.toNat - 48)) 0

theorem isDigit_iff {c : UInt8} : isDigit c = true ↔ 48 ≤ c.toNat ∧ c.toNat ≤ 57 := by
  simp [isDigit, UInt8.le_iff_toNat_le]

theorem isDigit_of_mem_toStr {n : Nat} {c : UInt8} (h : c ∈ toStr n) : isDigit c = true :=
  isDigit_iff.mpr (mem_toStr h)

theorem takeWhile_isDigit {ds : Str} (h : ∀ c ∈ ds, isDigit c = true) :
    ds.takeWhile isDigit = ds :=
  List.takeWhile_eq_self_iff.mpr h

/-- A printed number is read back. -/
theorem decVal_toStr (n : Nat) : decVal (toStr n) = n := by
  calc
    decVal (toStr n) = Nat.ofDigitChars 10 (Nat.toDigits 10 n) 0 := by
      rw [decVal, toStr, List.foldl_map, Nat.ofDigitChars_eq_foldl]
      apply List.foldl_ext
      intro m c hc
      have hdigit := Nat.isDigit_of_mem_toDigits (by omega) (by omega) hc
      have hhigh : c.toNat ≤ 57 := by
        simp only [Char.isDigit, Bool.and_eq_true, decide_eq_true_eq] at hdigit
        exact hdigit.2
      rw [UInt8.toNat_ofNat', Nat.mod_eq_of_lt (by omega)]
      rfl
    _ = n := Nat.ofDigitChars_ten_toDigits

/-- `std::isspace`. -/
def isSpace (c : UInt8) : Bool :=
  c = 32 || (9 ≤ c && c ≤ 13)

/-- What follows a sign. -/
def dropSign (s : Str) : Str :=
  if s.head? = some 45 ∨ s.head? = some 43 then s.drop 1 else s

theorem isSpace_of_isDigit {c : UInt8} (h : isDigit c = true) : isSpace c = false := by
  rw [isDigit_iff] at h
  simp only [isSpace, UInt8.le_iff_toNat_le, Bool.or_eq_false_iff, decide_eq_false_iff_not,
    Bool.and_eq_false_iff, ← UInt8.toNat_inj]
  refine ⟨?_, .inr ?_⟩
  · show ¬c.toNat = 32
    omega
  · show ¬c.toNat ≤ 13
    omega

theorem ne_of_isDigit {c d : UInt8} (h : isDigit c = true) (hd : isDigit d = false) : c ≠ d := by
  rintro rfl
  rw [h] at hd
  cases hd

theorem dropSign_of_isDigit {c : UInt8} (s : Str) (h : isDigit c = true) :
    dropSign (c :: s) = c :: s := by
  have hminus := ne_of_isDigit (d := 45) h (by decide)
  have hplus := ne_of_isDigit (d := 43) h (by decide)
  rw [dropSign, if_neg (by simp [hminus, hplus])]

/-! ### Calls that do not return -/

/-- How a call ends that does not return. -/
inductive Fault where
  /-- An element past the end of a list is read. -/
  | outOfRange
  /-- An exception is thrown. -/
  | thrown
  deriving DecidableEq

/-- `lst[i]`. -/
def elem (lst : List Str) (i : Nat) : Except Fault Str :=
  match lst[i]? with
  | some s => .ok s
  | none => .error .outOfRange

/-- A conversion that throws on what it cannot read. -/
def orThrow {α : Type} : Option α → Except Fault α
  | some a => .ok a
  | none => .error .thrown

theorem orThrow_bind_eq_ok_iff {α β : Type} {o : Option α} {f : α → Except Fault β} {b : β} :
    (orThrow o).bind f = .ok b ↔ ∃ a, o = some a ∧ f a = .ok b := by
  cases o <;> simp [orThrow, Except.bind]

/-- A conversion does not read past the end. -/
theorem orThrow_bind_eq_outOfRange_iff {α β : Type} {o : Option α} {f : α → Except Fault β} :
    (orThrow o).bind f = .error .outOfRange ↔ ∃ a, o = some a ∧ f a = .error .outOfRange := by
  cases o <;> simp [orThrow, Except.bind]

namespace Dict

variable {K V : Type}

/-- The entries in iteration order, as `for(auto & kv : dct)` meets them. -/
def pairs (d : Dict K V) : List (K × V) :=
  d.entries.map fun e => (e.1, e.2)

theorem pairs_keys (d : Dict K V) : (pairs d).map Prod.fst = d.keys := by
  simp [pairs, AList.keys, List.keys, Function.comp_def]

theorem pairs_nodup (d : Dict K V) : ((pairs d).map Prod.fst).Nodup := by
  rw [pairs_keys]
  exact d.keys_nodup

theorem mem_pairs [DecidableEq K] {d : Dict K V} {k : K} {v : V} :
    (k, v) ∈ pairs d ↔ d.lookup k = some v := by
  have hmem : (k, v) ∈ pairs d ↔ (⟨k, v⟩ : Sigma fun _ : K => V) ∈ d.entries := by
    constructor
    · intro h
      obtain ⟨e, he, heq⟩ := List.mem_map.mp h
      cases heq
      exact he
    · intro h
      exact List.mem_map.mpr ⟨_, h, rfl⟩
  rw [hmem]
  exact AList.mem_lookup_iff.symm

end Dict

end Paracel
