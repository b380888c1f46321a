import Mathlib.Algebra.BigOperators.Group.Finset.Piecewise
import Mathlib.Data.Fintype.Card

/-!
# Counting the members of a family

How many members of a finite family `f : ι → α` satisfy a predicate, and what
changing one member does to that number, or to a sum over all of them. Processes
indexed by `ι` are counted this way: a step of one process changes one member.
-/

variable {ι α : Type} [Fintype ι] [DecidableEq ι]

/-- The number of members of `f` that satisfy `p`. -/
def tally (p : α → Prop) [DecidablePred p] (f : ι → α) : Nat :=
  (Finset.univ.filter fun i => p (f i)).card

namespace Tally

variable (p q : α → Prop) [DecidablePred p] [DecidablePred q]

omit [DecidableEq ι] in
theorem eq_sum (f : ι → α) : tally p f = ∑ i, if p (f i) then 1 else 0 :=
  Finset.card_filter _ _

omit [DecidableEq ι] in
theorem le_card (f : ι → α) : tally p f ≤ Fintype.card ι :=
  (Finset.card_filter_le _ _).trans_eq Finset.card_univ

omit [DecidableEq ι] in
theorem eq_zero_iff (f : ι → α) : tally p f = 0 ↔ ∀ i, ¬p (f i) := by
  simp [tally, Finset.filter_eq_empty_iff]

omit [DecidableEq ι] in
theorem eq_card_iff (f : ι → α) : tally p f = Fintype.card ι ↔ ∀ i, p (f i) := by
  rw [tally, ← Finset.card_univ, Finset.card_filter_eq_iff]
  simp

omit [DecidableEq ι] in
theorem mono {f : ι → α} (h : ∀ i, p (f i) → q (f i)) : tally p f ≤ tally q f :=
  Finset.card_le_card fun i hi => by
    simp only [Finset.mem_filter, Finset.mem_univ, true_and] at hi ⊢
    exact h i hi

omit [DecidableEq ι] in
theorem congr {f : ι → α} (h : ∀ i, p (f i) ↔ q (f i)) : tally p f = tally q f :=
  le_antisymm (mono p q fun i => (h i).mp) (mono q p fun i => (h i).mpr)

/-- Replacing a member takes its old value out of a sum and puts the new one in. -/
theorem sum_update {M : Type} [AddCommMonoid M] (g : α → M) (f : ι → α) (i : ι) (a : α) :
    ∑ j, g (Function.update f i a j) + g (f i) = ∑ j, g (f j) + g a := by
  have hrest : ∑ j ∈ Finset.univ.erase i, g (Function.update f i a j) =
      ∑ j ∈ Finset.univ.erase i, g (f j) := by
    apply Finset.sum_congr rfl
    intro j hj
    rw [Function.update_of_ne (Finset.ne_of_mem_erase hj)]
  rw [← Finset.add_sum_erase _ _ (Finset.mem_univ i), hrest,
    ← Finset.add_sum_erase _ (fun j => g (f j)) (Finset.mem_univ i), Function.update_self]
  rw [add_assoc, add_comm, add_comm (g (f i))]

theorem update (f : ι → α) (i : ι) (a : α) :
    tally p (Function.update f i a) + (if p (f i) then 1 else 0) =
      tally p f + (if p a then 1 else 0) := by
  rw [eq_sum, eq_sum]
  exact sum_update (fun x => if p x then 1 else 0) f i a

/-- A replacement by a value of the same kind leaves the count as it is. -/
theorem update_of_iff {f : ι → α} {i : ι} {a : α} (h : p a ↔ p (f i)) :
    tally p (Function.update f i a) = tally p f := by
  have hupd := update p f i a
  simp only [h] at hupd
  omega

end Tally
