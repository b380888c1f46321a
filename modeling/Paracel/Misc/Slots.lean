import Mathlib.Data.List.FinRange
import Mathlib.Data.List.Flatten
import Mathlib.Data.List.Perm.Basic

/-!
# Items in numbered slots

Items are put behind one another into the slots that they belong to. A slot ends
up with the items for it in their order, and the slots together have all items.
-/

namespace Slots

variable {α : Type} (slot : α → Nat)

/-- Puts an item at the end of its slot. -/
def put (slots : List (List α)) (a : α) : List (List α) :=
  slots.modify (slot a) (· ++ [a])

theorem length_foldl_put (as : List α) (slots : List (List α)) :
    (as.foldl (put slot) slots).length = slots.length := by
  induction as generalizing slots with
  | nil => rfl
  | cons a as ih =>
      rw [List.foldl_cons, ih]
      exact List.length_modify _ _ _

/-- Slot `k` gets the items for `k`, in order. -/
theorem getD_foldl_put (as : List α) (slots : List (List α)) {k : Nat} (hk : k < slots.length) :
    (as.foldl (put slot) slots).getD k [] =
      slots.getD k [] ++ as.filter fun a => slot a = k := by
  induction as generalizing slots with
  | nil => simp
  | cons a as ih =>
      rw [List.foldl_cons, ih _ (by simpa [put] using hk), List.filter_cons]
      simp only [List.getD_eq_getElem?_getD, put, List.getElem?_modify]
      rw [List.getElem?_eq_getElem hk]
      by_cases h : slot a = k <;> simp [h]

/-- In empty slots there are only the items. -/
theorem getD_foldl_put_replicate (as : List α) {n k : Nat} (hk : k < n) :
    (as.foldl (put slot) (List.replicate n [])).getD k [] = as.filter fun a => slot a = k := by
  rw [getD_foldl_put slot as _ (by simpa using hk), List.getD_eq_getElem?_getD,
    List.getElem?_replicate_of_lt hk]
  rfl

private theorem flatMap_single {β : Type} [DecidableEq β] (a : α) {l : List β} {b : β}
    (hnodup : l.Nodup) (hb : b ∈ l) : (l.flatMap fun c => if c = b then [a] else []) = [a] := by
  induction l with
  | nil => cases hb
  | cons c l ih =>
      rw [List.nodup_cons] at hnodup
      rw [List.flatMap_cons]
      by_cases hc : c = b
      · subst hc
        have hnil : (l.flatMap fun d => if d = c then [a] else []) = [] := by
          apply List.flatMap_eq_nil_iff.mpr
          intro d hd
          exact if_neg (ne_of_mem_of_not_mem hd hnodup.1)
        rw [if_pos rfl, hnil, List.append_nil]
      · rw [if_neg hc, List.nil_append]
        exact ih hnodup.2 ((List.mem_cons.mp hb).resolve_left (Ne.symm hc))

/-- Items that were split up by their slots make up the list again. -/
theorem flatMap_filter_perm {n : Nat} (l : List α) (h : ∀ a ∈ l, slot a < n) :
    ((List.finRange n).flatMap fun r : Fin n => l.filter fun a => slot a = (r : Nat)).Perm l := by
  induction l with
  | nil => simp
  | cons a l ih =>
      have ha : slot a < n := h a List.mem_cons_self
      have hone : ((List.finRange n).flatMap fun r : Fin n =>
          if slot a = (r : Nat) then [a] else []) = [a] := by
        have hfin : (fun r : Fin n => if slot a = (r : Nat) then [a] else []) =
            fun r => if r = ⟨slot a, ha⟩ then [a] else [] := by
          funext r
          simp only [Fin.ext_iff, eq_comm]
        rw [hfin]
        exact flatMap_single a (List.nodup_finRange n) (List.mem_finRange _)
      have hcons : (fun r : Fin n => (a :: l).filter fun a => slot a = (r : Nat)) =
          fun r : Fin n => (if slot a = (r : Nat) then [a] else []) ++
            l.filter fun a => slot a = (r : Nat) := by
        funext r
        by_cases hr : slot a = (r : Nat) <;> simp [hr]
      rw [hcons]
      have hsplit := (List.flatMap_append_perm (List.finRange n)
        (fun r : Fin n => if slot a = (r : Nat) then [a] else [])
        (fun r : Fin n => l.filter fun a => slot a = (r : Nat))).symm
      rw [hone] at hsplit
      exact hsplit.trans ((ih fun b hb => h b (List.mem_cons_of_mem a hb)).cons a)

theorem flatten_put_perm {slots : List (List α)} {a : α} (h : slot a < slots.length) :
    (put slot slots a).flatten.Perm (a :: slots.flatten) := by
  rw [put]
  generalize slot a = k at h
  induction slots generalizing k with
  | nil => simp at h
  | cons s slots ih =>
      cases k with
      | zero =>
          rw [List.modify_zero_cons, List.flatten_cons, List.flatten_cons, List.append_assoc]
          exact List.perm_middle
      | succ k =>
          rw [List.modify_succ_cons, List.flatten_cons, List.flatten_cons]
          have hrest := ih k (by simpa using h)
          exact (hrest.append_left s).trans List.perm_middle

/-- Nothing is lost in the slots, and nothing else is in them. -/
theorem flatten_foldl_put_perm {n : Nat} {as : List α} (h : ∀ a ∈ as, slot a < n) :
    (as.foldl (put slot) (List.replicate n [])).flatten.Perm as := by
  have hloop : ∀ slots : List (List α), slots.length = n →
      (as.foldl (put slot) slots).flatten.Perm (slots.flatten ++ as) := by
    induction as with
    | nil => simp
    | cons a as ih =>
        rw [List.forall_mem_cons] at h
        intro slots hlen
        have hlen' : (put slot slots a).length = n := (List.length_modify _ _ _).trans hlen
        have hput : (put slot slots a).flatten.Perm (a :: slots.flatten) :=
          flatten_put_perm slot (by rw [hlen]; exact h.1)
        exact (ih h.2 _ hlen').trans ((hput.append_right as).trans List.perm_middle.symm)
  simpa using hloop (List.replicate n []) (List.length_replicate)

/-- The slots tell which items were put into them. -/
theorem perm_of_slots_eq {n : Nat} {as bs : List α} (has : ∀ a ∈ as, slot a < n)
    (hbs : ∀ b ∈ bs, slot b < n)
    (h : as.foldl (put slot) (List.replicate n []) = bs.foldl (put slot) (List.replicate n [])) :
    as.Perm bs := by
  have hslot : ∀ r : Fin n, (as.filter fun a => slot a = (r : Nat)) =
      bs.filter fun b => slot b = (r : Nat) := by
    intro r
    rw [← getD_foldl_put_replicate slot as r.isLt, h, getD_foldl_put_replicate slot bs r.isLt]
  have hperm := (flatMap_filter_perm slot as has).symm
  rw [List.flatMap_congr fun r _ => hslot r] at hperm
  exact hperm.trans (flatMap_filter_perm slot bs hbs)

end Slots
