import Mathlib.Algebra.Order.Group.Unbundled.Int
import Mathlib.Order.Bounds.Basic
import Paracel.Load.Organize

/-!
# The most square process grid

`npfact2d` of `include/utils/decomp.hpp` for both values of `row_master`. The loop
goes down from the integer square root to the first divisor it meets and has no
other bound than `upbnd - 1`. It would divide by 0 if it started at 0, and it
leaves 1 to the lines behind it.
-/

namespace Paracel

/-- How `npfact2d` ends. -/
inductive NpfactEnd where
  | divisionByZero
  | grid (nx ny : Nat)

/-- `while(upbnd - 1)` and what follows it, for at most `fuel` turns. -/
def npfact2dWhile (rowMaster : Bool) (np : Nat) : Nat → Nat → Option NpfactEnd
  | 0, _ => none
  | fuel + 1, upbnd =>
      if upbnd ≠ 1 then
        if upbnd = 0 then some .divisionByZero
        else if np % upbnd = 0 then
          if rowMaster then some (.grid upbnd (np / upbnd)) else some (.grid (np / upbnd) upbnd)
        else npfact2dWhile rowMaster np fuel (upbnd - 1)
      else if rowMaster then some (.grid np 1) else some (.grid 1 np)

/-- `npfact2d`. -/
def npfact2dRun (rowMaster : Bool) (np fuel : Nat) : Option NpfactEnd :=
  npfact2dWhile rowMaster np fuel np.sqrt

/-- The grid the other way round, unless the rows are the master. -/
def orient (rowMaster : Bool) (grid : Nat × Nat) : NpfactEnd :=
  if rowMaster then .grid grid.1 grid.2 else .grid grid.2 grid.1

/-- From 1 on the loop ends, with the grid of `npfact2dLoop`. -/
theorem npfact2dWhile_eq (rowMaster : Bool) (np : Nat) {fuel upbnd : Nat} (hpos : 1 ≤ upbnd)
    (hfuel : upbnd ≤ fuel) :
    npfact2dWhile rowMaster np fuel upbnd = some (orient rowMaster (npfact2dLoop np upbnd)) := by
  induction fuel generalizing upbnd with
  | zero => omega
  | succ fuel ih =>
      rcases upbnd with _ | _ | upbnd
      · omega
      · cases rowMaster <;> rfl
      · rw [npfact2dWhile, if_pos (by omega), if_neg (by omega), npfact2dLoop]
        split
        · cases rowMaster <;> rfl
        · exact ih (by omega) (by omega)

/-- The first divisor that is met is the largest one; if it is 1, it stands second. -/
theorem npfact2dLoop_spec {np upbnd : Nat} (hpos : 1 ≤ upbnd) :
    ∃ d, IsGreatest {d | d ∣ np ∧ d ≤ upbnd} d ∧
      (npfact2dLoop np upbnd = (d, np / d) ∨ npfact2dLoop np upbnd = (np / d, d)) := by
  fun_induction npfact2dLoop np upbnd with
  | case1 => omega
  | case2 =>
      refine ⟨1, ⟨⟨one_dvd np, le_rfl⟩, fun d hd => hd.2⟩, .inr ?_⟩
      rw [Nat.div_one]
  | case3 upbnd hmod =>
      exact ⟨upbnd + 2, ⟨⟨Nat.dvd_of_mod_eq_zero hmod, le_rfl⟩, fun d hd => hd.2⟩, .inl rfl⟩
  | case4 upbnd hmod ih =>
      rcases ih (by omega) with ⟨d, ⟨⟨hdvd, hle⟩, hmax⟩, hloop⟩
      refine ⟨d, ⟨⟨hdvd, by omega⟩, ?_⟩, hloop⟩
      rintro d' ⟨hdvd', hle'⟩
      refine hmax ⟨hdvd', ?_⟩
      have hne : d' ≠ upbnd + 2 := fun h => hmod (Nat.mod_eq_zero_of_dvd (h ▸ hdvd'))
      omega

/-- Of two factorisations the one with the larger small factor is the more square one. -/
theorem sub_le_sub_of_mul_eq {a b d e : Nat} (hmul : d * e = a * b) (hpos : 0 < a) (had : a ≤ d) :
    e - d ≤ b - a := by
  have heb : e ≤ b := by
    have hle : a * e ≤ a * b := hmul ▸ Nat.mul_le_mul_right e had
    exact Nat.le_of_mul_le_mul_left hle hpos
  omega

section Square

variable {np d : Nat}

/-- The largest divisor up to the square root is the small factor of the most square grid. -/
theorem isGreatest_min (hnp : 1 ≤ np) (hd : IsGreatest {d | d ∣ np ∧ d ≤ np.sqrt} d) :
    d * (np / d) = np ∧ d ≤ np / d ∧ IsGreatest {d | d ∣ np ∧ d * d ≤ np} d := by
  have hsqrt : ∀ d, d ≤ np.sqrt ↔ d * d ≤ np := fun d => Nat.le_sqrt
  simp only [hsqrt] at hd
  have hpos : 0 < d := Nat.pos_of_dvd_of_pos hd.1.1 hnp
  exact ⟨Nat.mul_div_cancel' hd.1.1, (Nat.le_div_iff_mul_le hpos).mpr hd.1.2, hd⟩

theorem natAbs_sub_le (hnp : 1 ≤ np) (hd : IsGreatest {d | d ∣ np ∧ d * d ≤ np} d) {e : Nat}
    (hmul : d * e = np) (hde : d ≤ e) {a b : Nat} (hab : a * b = np) :
    ((e : Int) - d).natAbs ≤ ((a : Int) - b).natAbs := by
  have hsmall : ∀ {a b : Nat}, a * b = np → a ≤ b → e - d ≤ b - a := by
    intro a b hab hle
    have hpos : 0 < a := Nat.pos_of_dvd_of_pos (Dvd.intro b hab) hnp
    have had : a ≤ d := hd.2 ⟨Dvd.intro b hab, hab ▸ Nat.mul_le_mul_left a hle⟩
    exact sub_le_sub_of_mul_eq (hmul.trans hab.symm) hpos had
  rcases Nat.le_total a b with hle | hle
  · have hsub := hsmall hab hle
    omega
  · have hsub := hsmall ((Nat.mul_comm b a).trans hab) hle
    omega

end Square

/-- On every number of processes `npfact2d` returns the most square grid. -/
theorem npfact2dRun_spec (rowMaster : Bool) {np : Nat} (hnp : 1 ≤ np) :
    ∃ nx ny, (∀ fuel, np.sqrt ≤ fuel → npfact2dRun rowMaster np fuel = some (.grid nx ny)) ∧
      nx * ny = np ∧ IsGreatest {d | d ∣ np ∧ d * d ≤ np} (min nx ny) ∧
        ∀ a b : Nat, a * b = np → ((nx : Int) - ny).natAbs ≤ ((a : Int) - b).natAbs := by
  have hsqrt : 1 ≤ np.sqrt := Nat.le_sqrt.mpr hnp
  have hspec : ∃ d, IsGreatest {d | d ∣ np ∧ d ≤ np.sqrt} d ∧ _ := npfact2dLoop_spec hsqrt
  obtain ⟨d, hd, hloop⟩ := hspec
  obtain ⟨hmul, hle, hgreatest⟩ := isGreatest_min hnp hd
  have hsquare := fun a b hab => natAbs_sub_le hnp hgreatest hmul hle (a := a) (b := b) hab
  have hflip : ∀ x y : Nat, ((x : Int) - y).natAbs = ((y : Int) - x).natAbs := fun x y => by omega
  have hgrid : ∃ nx ny, orient rowMaster (npfact2dLoop np np.sqrt) = .grid nx ny ∧
      ((nx, ny) = (d, np / d) ∨ (nx, ny) = (np / d, d)) := by
    rcases hloop with h | h <;> rw [h] <;> cases rowMaster
    · exact ⟨np / d, d, rfl, .inr rfl⟩
    · exact ⟨d, np / d, rfl, .inl rfl⟩
    · exact ⟨d, np / d, rfl, .inl rfl⟩
    · exact ⟨np / d, d, rfl, .inr rfl⟩
  obtain ⟨nx, ny, horient, hends⟩ := hgrid
  refine ⟨nx, ny, ?_, ?_⟩
  · intro fuel hfuel
    rw [npfact2dRun, npfact2dWhile_eq rowMaster np hsqrt hfuel, horient]
  · rcases hends with h | h <;> cases h
    · rw [min_eq_left hle]
      exact ⟨hmul, hgreatest, fun a b hab => hflip d (np / d) ▸ hsquare a b hab⟩
    · rw [min_eq_right hle, Nat.mul_comm]
      exact ⟨hmul, hgreatest, hsquare⟩

theorem npfact2dRun_spec_twelve :
    ∃ nx ny, (∀ fuel, Nat.sqrt 12 ≤ fuel → npfact2dRun true 12 fuel = some (.grid nx ny)) ∧
      nx * ny = 12 ∧ IsGreatest {d | d ∣ 12 ∧ d * d ≤ 12} (min nx ny) ∧
        ∀ a b : Nat, a * b = 12 → ((nx : Int) - ny).natAbs ≤ ((a : Int) - b).natAbs :=
  npfact2dRun_spec true (by decide)

end Paracel
