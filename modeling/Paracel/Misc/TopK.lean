import Mathlib.Data.List.MinMax
import Mathlib.Data.Multiset.Sort

/-!
# The largest elements through a priority queue

A priority queue is known by what its documentation promises: which elements it
has, and that none of them is before the one on top. Which of several equal
elements is on top is left open. A queue that is offered all elements and drops
its top as soon as it has more than `k` of them ends with `k` largest ones.
-/

namespace TopK

/-- A priority queue whose top no element is before. -/
structure PriorityQueue {α : Type} (before : α → α → Bool) where
  Carrier : Type
  empty : Carrier
  push : Carrier → α → Carrier
  top : Carrier → Option α
  pop : Carrier → Carrier
  size : Carrier → Nat
  elems : Carrier → Multiset α
  elems_empty : elems empty = 0
  elems_push : ∀ q a, elems (push q a) = a ::ₘ elems q
  size_eq : ∀ q, size q = (elems q).card
  top_eq_none : ∀ q, top q = none ↔ elems q = 0
  top_mem : ∀ q a, top q = some a → a ∈ elems q
  top_first : ∀ q a, top q = some a → ∀ b ∈ elems q, before a b = false
  elems_pop : ∀ q a, top q = some a → a ::ₘ elems (pop q) = elems q

section Queue

variable {α : Type} {before : α → α → Bool} (pq : PriorityQueue before)

namespace PriorityQueue

theorem size_pop {q : pq.Carrier} {a : α} (h : pq.top q = some a) :
    pq.size (pq.pop q) < pq.size q := by
  rw [pq.size_eq, pq.size_eq, ← pq.elems_pop q a h, Multiset.card_cons]
  exact Nat.lt_succ_self _

/-- All elements, in the order in which they come to the top. -/
def drain (q : pq.Carrier) : List α :=
  match _h : pq.top q with
  | none => []
  | some a => a :: drain (pq.pop q)
termination_by pq.size q
decreasing_by exact pq.size_pop _h

theorem drain_of_none {q : pq.Carrier} (h : pq.top q = none) : pq.drain q = [] := by
  rw [drain]
  split
  · rfl
  · rename_i a h'
    rw [h] at h'
    cases h'

theorem drain_of_some {q : pq.Carrier} {a : α} (h : pq.top q = some a) :
    pq.drain q = a :: pq.drain (pq.pop q) := by
  rw [drain]
  split
  · rename_i h'
    rw [h] at h'
    cases h'
  · rename_i b h'
    rw [h, Option.some_inj] at h'
    rw [h']

/-- Draining takes the elements out one by one. -/
theorem coe_drain (q : pq.Carrier) : (pq.drain q : Multiset α) = pq.elems q := by
  induction hn : pq.size q using Nat.strongRecOn generalizing q with
  | ind n ih =>
      cases h : pq.top q with
      | none =>
          rw [pq.drain_of_none h, (pq.top_eq_none q).mp h]
          rfl
      | some a =>
          rw [pq.drain_of_some h, ← Multiset.cons_coe, ih _ (hn ▸ pq.size_pop h) _ rfl,
            pq.elems_pop q a h]

/-- What comes to the top first is not behind what comes later. -/
theorem pairwise_drain (q : pq.Carrier) :
    (pq.drain q).Pairwise fun a b => before a b = false := by
  induction hn : pq.size q using Nat.strongRecOn generalizing q with
  | ind n ih =>
      cases h : pq.top q with
      | none =>
          rw [pq.drain_of_none h]
          exact List.Pairwise.nil
      | some a =>
          rw [pq.drain_of_some h, List.pairwise_cons]
          refine ⟨?_, ih _ (hn ▸ pq.size_pop h) _ rfl⟩
          intro b hb
          have hmem : b ∈ pq.elems (pq.pop q) := by
            rw [← pq.coe_drain]
            exact hb
          apply pq.top_first q a h
          rw [← pq.elems_pop q a h]
          exact Multiset.mem_cons_of_mem hmem

/-- Pushes an element and drops the top if there are more than `k`. -/
def offer (k : Nat) (q : pq.Carrier) (a : α) : pq.Carrier :=
  if k < pq.size (pq.push q a) then pq.pop (pq.push q a) else pq.push q a

end PriorityQueue

end Queue

section Largest

variable {α β : Type} {val : α → β}

/-- `kept` are `k` largest of `all`, or all of them if there are fewer. -/
def Largest [LE β] (val : α → β) (k : Nat) (all kept : Multiset α) : Prop :=
  kept.card = min k all.card ∧
    ∃ rest, all = kept + rest ∧ ∀ x ∈ rest, ∀ y ∈ kept, val x ≤ val y

theorem largest_zero [LE β] (val : α → β) (k : Nat) : Largest val k 0 0 :=
  ⟨by simp, 0, by simp, by simp⟩

/-- The first `k` of a list in descending order. -/
theorem largest_take [LE β] {l : List α} (hdesc : l.Pairwise fun a b => val b ≤ val a) (k : Nat) :
    Largest val k (l : Multiset α) (l.take k : List α) := by
  refine ⟨List.length_take .., (l.drop k : List α), ?_, ?_⟩
  · rw [Multiset.coe_add, List.take_append_drop]
  · rw [← List.take_append_drop k l, List.pairwise_append] at hdesc
    exact fun x hx y hy => hdesc.2.2 y hy x hx

variable [LinearOrder β] {before : α → α → Bool} {pq : PriorityQueue before} {k : Nat}
  {all : Multiset α}

/-- One element more, for which the least one goes. -/
theorem Largest.exchange {kept kept' : Multiset α} (h : Largest val k all kept)
    (hfull : kept.card = k) {a t : α} (ht : t ::ₘ kept' = a ::ₘ kept)
    (hleast : ∀ y ∈ a ::ₘ kept, val t ≤ val y) : Largest val k (a ::ₘ all) kept' := by
  rcases h with ⟨-, rest, hall, hle⟩
  have hcard := congrArg Multiset.card ht
  rw [Multiset.card_cons, Multiset.card_cons] at hcard
  have hkept : ∀ y ∈ kept', y ∈ a ::ₘ kept := by
    intro y hy
    rw [← ht]
    exact Multiset.mem_cons_of_mem hy
  refine ⟨?_, t ::ₘ rest, ?_, ?_⟩
  · rw [hall, Multiset.card_cons, Multiset.card_add]
    omega
  · rw [hall, ← Multiset.cons_add, ← ht, Multiset.cons_add, Multiset.add_cons]
  · intro x hx y hy
    rcases Multiset.mem_cons.mp hx with rfl | hx
    · exact hleast y (hkept y hy)
    · rcases Multiset.mem_cons.mp (hkept y hy) with rfl | hmem
      · -- the new element stays, so the one that goes is an old one, and not above it
        have ht' : t ∈ y ::ₘ kept := by
          rw [← ht]
          exact Multiset.mem_cons_self _ _
        rcases Multiset.mem_cons.mp ht' with rfl | hold
        · rw [(Multiset.cons_inj_right t).mp ht] at hy
          exact hle x hx t hy
        · exact (hle x hx t hold).trans (hleast y (hkept y hy))
      · exact hle x hx y hmem

/-- One element more, with room for it. -/
theorem Largest.insert {kept : Multiset α} (h : Largest val k all kept) (hroom : kept.card < k)
    (a : α) : Largest val k (a ::ₘ all) (a ::ₘ kept) := by
  rcases h with ⟨hcard, rest, hall, -⟩
  have hrest : rest = 0 := by
    rw [hall, Multiset.card_add] at hcard
    rw [← Multiset.card_eq_zero]
    omega
  rw [hrest, Multiset.add_zero] at hall
  refine ⟨?_, 0, ?_, by simp⟩
  · rw [hall, Multiset.card_cons]
    omega
  · rw [hall, Multiset.add_zero]

/-- With one element more the queue holds the largest again. -/
theorem Largest.offer (hbefore : ∀ a b, before a b = decide (val b < val a)) {q : pq.Carrier}
    (h : Largest val k all (pq.elems q)) (a : α) :
    Largest val k (a ::ₘ all) (pq.elems (pq.offer k q a)) := by
  have hsize : pq.size (pq.push q a) = (pq.elems q).card + 1 := by
    rw [pq.size_eq, pq.elems_push, Multiset.card_cons]
  have hcard := h.1
  rw [PriorityQueue.offer]
  split
  · rename_i hfull
    rw [hsize] at hfull
    obtain ⟨t, ht⟩ : ∃ t, pq.top (pq.push q a) = some t := by
      apply Option.ne_none_iff_exists'.mp
      rw [ne_eq, pq.top_eq_none, pq.elems_push]
      exact Multiset.cons_ne_zero
    have hpop := pq.elems_pop _ t ht
    rw [pq.elems_push] at hpop
    apply h.exchange (by omega) hpop
    intro y hy
    have hfirst := pq.top_first _ t ht y (by rw [pq.elems_push]; exact hy)
    rw [hbefore, decide_eq_false_iff_not, not_lt] at hfirst
    exact hfirst
  · rename_i hroom
    rw [pq.elems_push]
    exact h.insert (by omega) a

theorem Largest.foldl_offer (hbefore : ∀ a b, before a b = decide (val b < val a))
    {q : pq.Carrier} (h : Largest val k all (pq.elems q)) (as : List α) :
    Largest val k (all + as) (pq.elems (as.foldl (pq.offer k) q)) := by
  induction as generalizing q all with
  | nil => simpa using h
  | cons a as ih =>
      have hnext := ih (h.offer hbefore a)
      rw [← Multiset.cons_coe, Multiset.add_cons, ← Multiset.cons_add]
      exact hnext

/-- The values of the largest elements are the first ones of all values in descending order. -/
theorem Largest.map_val_eq_take {kept : Multiset α} (h : Largest val k all kept) {l : List α}
    (hl : (l : Multiset α) = kept) (hsort : l.Pairwise fun a b => val b ≤ val a) {vs : List β}
    (hvs : (vs : Multiset β) = all.map val) (hdesc : vs.Pairwise fun a b => b ≤ a) :
    l.map val = vs.take k := by
  rcases h with ⟨hcard, rest, hall, hle⟩
  subst hl
  have hsplit : vs = l.map val ++ (rest.map val).sort fun a b => b ≤ a := by
    apply List.Perm.eq_of_pairwise
    · exact fun a b _ _ hab hba => le_antisymm hba hab
    · exact hdesc
    · rw [List.pairwise_append, List.pairwise_map]
      refine ⟨hsort, Multiset.pairwise_sort _ _, ?_⟩
      intro a ha b hb
      rcases List.mem_map.mp ha with ⟨y, hy, rfl⟩
      rcases Multiset.mem_map.mp ((Multiset.mem_sort _).mp hb) with ⟨x, hx, rfl⟩
      exact hle x hx y hy
    · rw [← Multiset.coe_eq_coe, hvs, hall, ← Multiset.coe_add, Multiset.sort_eq,
        Multiset.map_add, Multiset.map_coe]
  have hlen : l.length = min k (l.length + rest.card) := by
    rwa [hall, Multiset.card_add, Multiset.coe_card] at hcard
  by_cases hk : k ≤ l.length
  · have heq : (l.map val).length = k := by
      rw [List.length_map]
      omega
    rw [hsplit, ← heq, List.take_left]
  · have hrest : rest = 0 := by
      rw [← Multiset.card_eq_zero]
      omega
    rw [hsplit, hrest, Multiset.map_zero, Multiset.sort_zero, List.append_nil,
      List.take_of_length_le (by rw [List.length_map]; omega)]

end Largest

/-! ### A queue in an unordered list -/

section ListQueue

variable {α β : Type} [LinearOrder β] [DecidableEq α]

/-- The elements in a list; the top is the first one of least value. -/
def listQueue (val : α → β) : PriorityQueue fun a b => decide (val b < val a) where
  Carrier := List α
  empty := []
  push q a := a :: q
  top q := q.argmin val
  pop q := (q.argmin val).elim [] q.erase
  size := List.length
  elems q := q
  elems_empty := rfl
  elems_push _ _ := rfl
  size_eq _ := rfl
  top_eq_none q := by simp
  top_mem q a h := List.argmin_mem h
  top_first q a h b hb := decide_eq_false (List.not_lt_of_mem_argmin hb h)
  elems_pop q a h := by
    rw [h, Option.elim_some, Multiset.cons_coe, Multiset.coe_eq_coe]
    exact (List.perm_cons_erase (List.argmin_mem h)).symm

end ListQueue

end TopK
