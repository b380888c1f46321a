import Mathlib.Algebra.BigOperators.Group.Finset.Piecewise
import Mathlib.Algebra.BigOperators.Ring.List
import Mathlib.Algebra.Order.BigOperators.Group.Finset
import Mathlib.Algebra.Order.BigOperators.Group.List
import Mathlib.Algebra.Order.Field.Basic
import Mathlib.Data.List.FinRange
import Mathlib.Data.List.MinMax
import Mathlib.Tactic.FieldSimp
import Mathlib.Tactic.Linarith
import Mathlib.Tactic.Ring

/-!
# Lloyd's step

Points are assigned to the nearest of `k` centers, and every center moves to the
mean of the points assigned to it. Where no center is left without points this
does not raise the cost, the sum of the squared distances to the nearest center:
the mean is where the sum of squared distances to some points is least.
-/

namespace Lloyd

variable {K : Type} {k d : Nat}

theorem sum_apply [AddCommMonoid K] (xs : List (Fin d → K)) (i : Fin d) :
    xs.sum i = (xs.map fun x => x i).sum := by
  induction xs with
  | nil => rfl
  | cons x xs ih => rw [List.sum_cons, Pi.add_apply, ih, List.map_cons, List.sum_cons]

/-! ### The mean -/

section Mean

variable [Field K]

/-- The squared distance of a point from a center. -/
def sqDist (x c : Fin d → K) : K := ∑ i, (c i - x i) ^ 2

/-- The mean of some points. -/
def mean (xs : List (Fin d → K)) : Fin d → K :=
  fun i => xs.sum i * (1 / (xs.length : K))

/-- The sum of the squares of the distances of some numbers from `a`. -/
theorem sum_sq_sub (a : K) (xs : List K) :
    (xs.map fun x => (a - x) ^ 2).sum =
      (xs.map fun x => x ^ 2).sum - 2 * a * xs.sum + xs.length * a ^ 2 := by
  induction xs with
  | nil => simp
  | cons x xs ih =>
      rw [List.map_cons, List.sum_cons, ih, List.map_cons, List.sum_cons, List.sum_cons,
        List.length_cons]
      push_cast
      ring

/-- A sum of squared distances, coordinate by coordinate. -/
theorem sum_sqDist (c : Fin d → K) (xs : List (Fin d → K)) :
    (xs.map fun x => sqDist x c).sum =
      ∑ i, ((xs.map fun x => x i).map fun y => (c i - y) ^ 2).sum := by
  induction xs with
  | nil => simp
  | cons x xs ih =>
      rw [List.map_cons, List.sum_cons, ih, sqDist]
      simp only [List.map_cons, List.sum_cons, Finset.sum_add_distrib]

variable [LinearOrder K] [IsStrictOrderedRing K]

/-- It is least at their mean. -/
theorem sum_sq_sub_mean_le {xs : List K} (hne : xs ≠ []) (a : K) :
    (xs.map fun x => (xs.sum * (1 / (xs.length : K)) - x) ^ 2).sum ≤
      (xs.map fun x => (a - x) ^ 2).sum := by
  have hlen : (0 : K) < xs.length := Nat.cast_pos.mpr (List.length_pos_of_ne_nil hne)
  rw [sum_sq_sub, sum_sq_sub]
  have hgap : xs.length * a ^ 2 - 2 * a * xs.sum -
      (xs.length * (xs.sum * (1 / (xs.length : K))) ^ 2 -
        2 * (xs.sum * (1 / (xs.length : K))) * xs.sum) =
      xs.length * (a - xs.sum * (1 / (xs.length : K))) ^ 2 := by
    field_simp
    ring
  have hnonneg := mul_nonneg hlen.le (sq_nonneg (a - xs.sum * (1 / (xs.length : K))))
  linarith

/-- No center is nearer to some points, all in all, than their mean. -/
theorem sum_sqDist_mean_le {xs : List (Fin d → K)} (hne : xs ≠ []) (c : Fin d → K) :
    (xs.map fun x => sqDist x (mean xs)).sum ≤ (xs.map fun x => sqDist x c).sum := by
  rw [sum_sqDist, sum_sqDist]
  apply Finset.sum_le_sum
  intro i _
  have hcoord : xs.map (fun x => x i) ≠ [] := by simpa using hne
  have hle := sum_sq_sub_mean_le hcoord (c i)
  rwa [List.length_map, ← sum_apply] at hle

end Mean

/-! ### The step -/

section Step

variable [Field K] [LinearOrder K]

/-- The first of the nearest centers; there is one unless there are no centers. -/
def owner (centers : Fin k → Fin d → K) (x : Fin d → K) : Option (Fin k) :=
  (List.finRange k).argmin fun j => sqDist x (centers j)

/-- The points that belong to center `j`. -/
def members (centers : Fin k → Fin d → K) (j : Fin k) (xs : List (Fin d → K)) :
    List (Fin d → K) :=
  xs.filter fun x => owner centers x = some j

/-- Every center moves to the mean of its points. -/
def step (xs : List (Fin d → K)) (centers : Fin k → Fin d → K) : Fin k → Fin d → K :=
  fun j => mean (members centers j xs)

/-- What a point costs: its squared distance from the center that it is assigned to. -/
def costOf (owners centers : Fin k → Fin d → K) (x : Fin d → K) : K :=
  match owner owners x with
  | some j => sqDist x (centers j)
  | none => 0

/-- The sum of the squared distances of the points from their centers. -/
def cost (xs : List (Fin d → K)) (centers : Fin k → Fin d → K) : K :=
  (xs.map (costOf centers centers)).sum

/-- A point is as near to its own center as to any other. -/
theorem sqDist_le_of_owner {centers : Fin k → Fin d → K} {x : Fin d → K} {j : Fin k}
    (h : owner centers x = some j) (j' : Fin k) :
    sqDist x (centers j) ≤ sqDist x (centers j') :=
  List.le_of_mem_argmin (f := fun j => sqDist x (centers j)) (List.mem_finRange j') h

/-- Where there are centers, every point belongs to one. -/
theorem exists_owner (hk : 0 < k) (centers : Fin k → Fin d → K) (x : Fin d → K) :
    ∃ j, owner centers x = some j := by
  rw [← Option.ne_none_iff_exists', owner, Ne, List.argmin_eq_none]
  exact List.ne_nil_of_mem (List.mem_finRange ⟨0, hk⟩)

/-- What the points cost is the sum, over the centers, of what their points cost. -/
theorem sum_costOf (owners centers : Fin k → Fin d → K) (xs : List (Fin d → K)) :
    (xs.map (costOf owners centers)).sum =
      ∑ j, ((members owners j xs).map fun x => sqDist x (centers j)).sum := by
  induction xs with
  | nil => simp [members]
  | cons x xs ih =>
      rw [List.map_cons, List.sum_cons, ih, costOf]
      cases hx : owner owners x with
      | none => simp [members, hx]
      | some j =>
          have hmembers : ∀ j', ((members owners j' (x :: xs)).map
              fun x => sqDist x (centers j')).sum =
              (if j' = j then sqDist x (centers j) else 0) +
                ((members owners j' xs).map fun x => sqDist x (centers j')).sum := by
            intro j'
            by_cases hj : j' = j
            · subst hj
              simp [members, hx]
            · simp [members, hx, hj, Ne.symm hj]
          simp only [hmembers, Finset.sum_add_distrib, Finset.sum_ite_eq', Finset.mem_univ, if_true]

/-- A point costs least with the centers that it is assigned by. -/
theorem costOf_le (owners centers : Fin k → Fin d → K) (x : Fin d → K) :
    costOf centers centers x ≤ costOf owners centers x := by
  have hpos : ∀ j : Fin k, 0 < k := fun j => Nat.lt_of_le_of_lt (Nat.zero_le _) j.isLt
  unfold costOf
  cases hc : owner centers x with
  | none =>
      cases ho : owner owners x with
      | none => exact le_rfl
      | some j =>
          obtain ⟨j', hj'⟩ := exists_owner (hpos j) centers x
          rw [hc] at hj'
          cases hj'
  | some j =>
      cases ho : owner owners x with
      | none =>
          obtain ⟨j', hj'⟩ := exists_owner (hpos j) owners x
          rw [ho] at hj'
          cases hj'
      | some j' => exact sqDist_le_of_owner hc j'

/-- A step in which every center has points does not raise the cost. -/
theorem cost_step_le [IsStrictOrderedRing K] {xs : List (Fin d → K)}
    {centers : Fin k → Fin d → K} (hne : ∀ j, members centers j xs ≠ []) :
    cost xs (step xs centers) ≤ cost xs centers := by
  calc cost xs (step xs centers)
      ≤ (xs.map (costOf centers (step xs centers))).sum :=
        List.sum_le_sum fun x _ => costOf_le centers (step xs centers) x
    _ = ∑ j, ((members centers j xs).map fun x => sqDist x (step xs centers j)).sum :=
        sum_costOf centers (step xs centers) xs
    _ ≤ ∑ j, ((members centers j xs).map fun x => sqDist x (centers j)).sum :=
        Finset.sum_le_sum fun j _ => sum_sqDist_mean_le (hne j) (centers j)
    _ = cost xs centers := (sum_costOf centers centers xs).symm

end Step

end Lloyd
