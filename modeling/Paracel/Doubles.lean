import Mathlib.Algebra.Order.Floor.Ring
import Mathlib.Data.Rat.Floor
import Mathlib.Tactic.Ring
import Paracel.Types

/-!
# Doubles as text

What `std::to_string` prints for a `double`, six decimals, and what `std::stod`
reads. A `double` is the rational number that it stands for: nothing is rounded
to the next machine number, and infinities, the limits of the range and
hexadecimal texts are left out. Printing rounds to a multiple of 10^-6, so these
are the numbers that are read back unchanged.
-/

namespace Paracel

/-- The nearest integer, the even one of two. -/
def roundEven (q : ℚ) : ℤ :=
  let d := q - ⌊q⌋
  if d < 1 / 2 ∨ (d = 1 / 2 ∧ ⌊q⌋ % 2 = 0) then ⌊q⌋ else ⌊q⌋ + 1

/-- The last `k` decimal digits of a number. -/
def lastDigits : Nat → Nat → Str
  | 0, _ => []
  | k + 1, n => lastDigits k (n / 10) ++ [UInt8.ofNat (48 + n % 10)]

/-- `std::to_string` on a `double`. -/
def doubleStr (w : ℚ) : Str :=
  let m := (roundEven (w * 10 ^ 6)).natAbs
  (if w < 0 then lit "-" else []) ++ (toStr (m / 10 ^ 6) ++ lit "." ++ lastDigits 6 m)

/-- The power of ten that an exponent stands for. -/
def scale (s : Str) : ℚ :=
  if s.head? = some 101 ∨ s.head? = some 69 then
    let e := s.drop 1
    let p : ℚ := 10 ^ decVal ((dropSign e).takeWhile isDigit)
    if e.head? = some 45 then p⁻¹ else p
  else 1

/-- The number that digits with a point and an exponent stand for. -/
def decimal (s : Str) : Option ℚ :=
  let whole := s.takeWhile isDigit
  let tail := s.dropWhile isDigit
  let frac := if tail.head? = some 46 then (tail.drop 1).takeWhile isDigit else []
  let rest := if tail.head? = some 46 then (tail.drop 1).dropWhile isDigit else tail
  if whole = [] ∧ frac = [] then none
  else some (decVal (whole ++ frac) / 10 ^ frac.length * scale rest)

/-- `std::stod`: white space, a sign and a decimal; what follows them is not read. -/
def stod (s : Str) : Option ℚ :=
  let t := s.dropWhile isSpace
  (decimal (dropSign t)).map fun v => if t.head? = some 45 then -v else v

/-! ### The digits -/

theorem decVal_append (ds es : Str) :
    decVal (ds ++ es) = es.foldl (fun n c => 10 * n + (c.toNat - 48)) (decVal ds) := by
  rw [decVal, List.foldl_append]
  rfl

theorem digit_toNat {d : Nat} (hd : d < 10) : (UInt8.ofNat (48 + d)).toNat = 48 + d := by
  rw [UInt8.toNat_ofNat', Nat.mod_eq_of_lt (by omega)]

theorem isDigit_of_mem_lastDigits {k n : Nat} {c : UInt8} (h : c ∈ lastDigits k n) :
    isDigit c = true := by
  induction k generalizing n with
  | zero => simp [lastDigits] at h
  | succ k ih =>
      rw [lastDigits, List.mem_append, List.mem_singleton] at h
      rcases h with h | rfl
      · exact ih h
      · have hd := digit_toNat (Nat.mod_lt n (by omega))
        rw [isDigit_iff, hd]
        omega

theorem length_lastDigits (k n : Nat) : (lastDigits k n).length = k := by
  induction k generalizing n with
  | zero => rfl
  | succ k ih => rw [lastDigits, List.length_append, ih, List.length_singleton]

/-- Digits behind others shift them. -/
theorem decVal_append_lastDigits (ds : Str) (k n : Nat) :
    decVal (ds ++ lastDigits k n) = decVal ds * 10 ^ k + n % 10 ^ k := by
  induction k generalizing n with
  | zero => simp [lastDigits, Nat.mod_one]
  | succ k ih =>
      have hd := digit_toNat (Nat.mod_lt n (y := 10) (by omega))
      calc
        decVal (ds ++ lastDigits (k + 1) n) =
            10 * decVal (ds ++ lastDigits k (n / 10)) + n % 10 := by
          rw [lastDigits, ← List.append_assoc, decVal_append, List.foldl_cons, List.foldl_nil, hd]
          omega
        _ = 10 * (decVal ds * 10 ^ k + n / 10 % 10 ^ k) + n % 10 := by rw [ih]
        _ = decVal ds * 10 ^ (k + 1) + (n % 10 + 10 * (n / 10 % 10 ^ k)) := by ring
        _ = decVal ds * 10 ^ (k + 1) + n % 10 ^ (k + 1) := by
          rw [Nat.pow_succ', Nat.mod_mul]

/-! ### Reading what was printed -/

theorem roundEven_intCast (m : ℤ) : roundEven m = m := by
  rw [roundEven, Int.floor_intCast, sub_self, if_pos (.inl (by norm_num))]

section Fixed

variable {whole frac : Str}

theorem decimal_fixed (hne : whole ≠ []) (hwhole : ∀ c ∈ whole, isDigit c = true)
    (hfrac : ∀ c ∈ frac, isDigit c = true) :
    decimal (whole ++ lit "." ++ frac) =
      some ((decVal (whole ++ frac) : ℚ) / 10 ^ frac.length) := by
  have hpoint : lit "." = [46] := by decide
  have htake : (whole ++ lit "." ++ frac).takeWhile isDigit = whole := by
    rw [List.append_assoc, List.takeWhile_append_of_pos hwhole, hpoint]
    exact List.append_nil whole
  have hdrop : (whole ++ lit "." ++ frac).dropWhile isDigit = 46 :: frac := by
    rw [List.append_assoc, List.dropWhile_append_of_pos hwhole, hpoint]
    rfl
  have hrest : frac.dropWhile isDigit = [] := List.dropWhile_eq_nil_iff.mpr hfrac
  have hscale : scale [] = 1 := rfl
  simp only [decimal, htake, hdrop, hrest, hscale, hne, takeWhile_isDigit hfrac, List.head?_cons,
    List.drop_succ_cons, List.drop_zero, if_true, false_and, if_false, mul_one]

theorem stod_fixed (hne : whole ≠ []) (hwhole : ∀ c ∈ whole, isDigit c = true)
    (hfrac : ∀ c ∈ frac, isDigit c = true) :
    stod (whole ++ lit "." ++ frac) =
      some ((decVal (whole ++ frac) : ℚ) / 10 ^ frac.length) := by
  have hval := decimal_fixed hne hwhole hfrac
  obtain ⟨d, ds, rfl⟩ := List.exists_cons_of_ne_nil hne
  have hd := hwhole d List.mem_cons_self
  have hminus := ne_of_isDigit (d := 45) hd (by decide)
  rw [List.cons_append, List.cons_append] at hval ⊢
  rw [stod, List.dropWhile_cons, isSpace_of_isDigit hd]
  simp only [Bool.false_eq_true, if_false, dropSign_of_isDigit _ hd, hval, List.head?_cons,
    Option.some_inj, hminus, Option.map_some]

theorem stod_neg_fixed (hne : whole ≠ []) (hwhole : ∀ c ∈ whole, isDigit c = true)
    (hfrac : ∀ c ∈ frac, isDigit c = true) :
    stod (lit "-" ++ (whole ++ lit "." ++ frac)) =
      some (-((decVal (whole ++ frac) : ℚ) / 10 ^ frac.length)) := by
  have hval := decimal_fixed hne hwhole hfrac
  have hminus : lit "-" = [45] := by decide
  have hspace : isSpace 45 = false := by decide
  have hdrop : dropSign (45 :: (whole ++ lit "." ++ frac)) = whole ++ lit "." ++ frac := rfl
  rw [hminus, List.singleton_append, stod, List.dropWhile_cons, hspace]
  simp only [Bool.false_eq_true, if_false, hdrop, hval, List.head?_cons, if_true, Option.map_some]

end Fixed

theorem roundEven_nonneg {q : ℚ} (hq : 0 ≤ q) : 0 ≤ roundEven q := by
  have hfloor : 0 ≤ ⌊q⌋ := Int.floor_nonneg.mpr hq
  rw [roundEven]
  split <;> omega

theorem roundEven_nonpos {q : ℚ} (hq : q < 0) : roundEven q ≤ 0 := by
  have hfloor : ⌊q⌋ < 0 := Int.floor_lt.mpr (by simpa using hq)
  rw [roundEven]
  split <;> omega

/-- The number that is left of `w` after printing, six decimals of it. -/
def printed (w : ℚ) : ℚ :=
  roundEven (w * 10 ^ 6) / 10 ^ 6

theorem printed_eq {w : ℚ} {m : ℤ} (hw : w = m / 10 ^ 6) : printed w = w := by
  rw [printed, hw, div_mul_cancel₀ _ (by norm_num), roundEven_intCast]

theorem printed_eq_self_iff {w : ℚ} : printed w = w ↔ ∃ m : ℤ, w = m / 10 ^ 6 := by
  constructor
  · intro h
    exact ⟨roundEven (w * 10 ^ 6), h.symm⟩
  · rintro ⟨m, hw⟩
    exact printed_eq hw

theorem stod_doubleStr_eq (w : ℚ) : stod (doubleStr w) = some (printed w) := by
  have hscale : (0 : ℚ) < 10 ^ 6 := by norm_num
  have hwhole : ∀ n, ∀ c ∈ toStr n, isDigit c = true := fun _ _ => isDigit_of_mem_toStr
  have hfrac : ∀ n, ∀ c ∈ lastDigits 6 n, isDigit c = true := fun _ _ => isDigit_of_mem_lastDigits
  have hval : ∀ n, decVal (toStr (n / 10 ^ 6) ++ lastDigits 6 n) = n := by
    intro n
    rw [decVal_append_lastDigits, decVal_toStr]
    omega
  unfold doubleStr printed
  by_cases hneg : w < 0
  · have hm : roundEven (w * 10 ^ 6) ≤ 0 := roundEven_nonpos (mul_neg_of_neg_of_pos hneg hscale)
    rw [if_pos hneg, stod_neg_fixed (toStr_ne_nil _) (hwhole _) (hfrac _), hval,
      length_lastDigits, Nat.cast_natAbs, abs_of_nonpos hm, Int.cast_neg, neg_div, neg_neg]
  · have hm : 0 ≤ roundEven (w * 10 ^ 6) :=
      roundEven_nonneg (mul_nonneg (not_lt.mp hneg) hscale.le)
    rw [if_neg hneg, List.nil_append, stod_fixed (toStr_ne_nil _) (hwhole _) (hfrac _), hval,
      length_lastDigits, Nat.cast_natAbs, abs_of_nonneg hm]

/-- A multiple of 10^-6 is printed exactly. -/
theorem stod_doubleStr {w : ℚ} {m : ℤ} (hw : w = m / 10 ^ 6) : stod (doubleStr w) = some w := by
  rw [stod_doubleStr_eq, printed_eq hw]

/-- A printed number is of digits, a sign and a point. -/
theorem mem_doubleStr {w : ℚ} {c : UInt8} (h : c ∈ doubleStr w) :
    isDigit c = true ∨ c ∈ lit "-." := by
  simp only [doubleStr, List.mem_append] at h
  rcases h with hsign | (hwhole | hpoint) | hfrac
  · split at hsign
    · exact .inr (List.mem_append_left (lit ".") hsign)
    · cases hsign
  · exact .inl (isDigit_of_mem_toStr hwhole)
  · exact .inr (List.mem_append_right (lit "-") hpoint)
  · exact .inl (isDigit_of_mem_lastDigits hfrac)

theorem toNat_of_mem_doubleStr {w : ℚ} {c : UInt8} (h : c ∈ doubleStr w) : c.toNat < 58 := by
  have hall : ∀ c ∈ lit "-.", c.toNat < 58 := List.forall_iff_forall_mem.mp (by decide)
  rcases mem_doubleStr h with hdigit | hother
  · exact Nat.lt_succ_of_le (isDigit_iff.mp hdigit).2
  · exact hall c hother

theorem doubleStr_ne_nil (w : ℚ) : doubleStr w ≠ [] := by
  simp [doubleStr, toStr_ne_nil]

end Paracel
