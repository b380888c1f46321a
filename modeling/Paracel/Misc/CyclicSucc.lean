import Mathlib.Data.Set.Finite.Basic
import Mathlib.Order.Preorder.Finite

/-!
# Cyclic successors

The points of a set lie on a circle. The point responsible for a place is the
first one at or after it, or the least one when all points come before it. What
consistent hashing rests on is that this point stays responsible in every smaller
set that has it.
-/

namespace CyclicSucc

variable {H : Type} [LinearOrder H] {A B : Set H} {h p q : H}

/-- `p` is the first point of `A` at or after `h`, or the least point when all come before. -/
def IsSucc (A : Set H) (h p : H) : Prop :=
  p ∈ A ∧ ((h ≤ p ∧ ∀ q ∈ A, h ≤ q → p ≤ q) ∨ ((∀ q ∈ A, q < h) ∧ ∀ q ∈ A, p ≤ q))

theorem IsSucc.mem (hp : IsSucc A h p) : p ∈ A := hp.1

theorem IsSucc.unique (hp : IsSucc A h p) (hq : IsSucc A h q) : p = q := by
  rcases hp with ⟨hpA, ⟨hhp, hpmin⟩ | ⟨hbefore, hpmin⟩⟩
  · rcases hq with ⟨hqA, ⟨hhq, hqmin⟩ | ⟨hbefore, -⟩⟩
    · exact le_antisymm (hpmin q hqA hhq) (hqmin p hpA hhp)
    · exact absurd (hbefore p hpA) (not_lt.mpr hhp)
  · rcases hq with ⟨hqA, ⟨hhq, -⟩ | ⟨-, hqmin⟩⟩
    · exact absurd (hbefore q hqA) (not_lt.mpr hhq)
    · exact le_antisymm (hpmin q hqA) (hqmin p hpA)

/-- A point that is responsible stays so when other points go. -/
theorem IsSucc.subset (hp : IsSucc B h p) (hAB : A ⊆ B) (hpA : p ∈ A) : IsSucc A h p := by
  refine ⟨hpA, ?_⟩
  rcases hp.2 with ⟨hhp, hmin⟩ | ⟨hbefore, hmin⟩
  · left
    exact ⟨hhp, fun q hq => hmin q (hAB hq)⟩
  · right
    exact ⟨fun q hq => hbefore q (hAB hq), fun q hq => hmin q (hAB hq)⟩

/-- A point of the set is responsible for its own place. -/
theorem isSucc_self (hp : p ∈ A) : IsSucc A p p :=
  ⟨hp, .inl ⟨le_refl p, fun _ _ hq => hq⟩⟩

end CyclicSucc
