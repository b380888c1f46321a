import Mathlib.Data.Finset.Insert
import Mathlib.Data.List.AList
import Mathlib.Data.List.Nodup

/-!
# Numbering the items of a list

Lists are collected in a set, and the items of a list without repetitions are
numbered in their order: one map takes a number to its item and one takes an item
back to its number. The numbers are those below the number of items.
-/

namespace Numbering

variable {α : Type} [DecidableEq α]

/-- The items of all lists. -/
def insertAll (lists : List (List α)) : Finset α :=
  lists.foldl (fun set tmp => tmp.foldl (fun set item => insert item set) set) ∅

theorem mem_insertAll {lists : List (List α)} {s : α} :
    s ∈ insertAll lists ↔ ∃ tmp ∈ lists, s ∈ tmp := by
  have hinner : ∀ (tmp : List α) (set : Finset α),
      s ∈ tmp.foldl (fun set item => insert item set) set ↔ s ∈ set ∨ s ∈ tmp := by
    intro tmp
    induction tmp with
    | nil => simp
    | cons item tmp ih =>
        intro set
        rw [List.foldl_cons, ih, Finset.mem_insert, List.mem_cons]
        tauto
  have houter : ∀ (lists : List (List α)) (set : Finset α),
      s ∈ lists.foldl (fun set tmp => tmp.foldl (fun set item => insert item set) set) set ↔
        s ∈ set ∨ ∃ tmp ∈ lists, s ∈ tmp := by
    intro lists
    induction lists with
    | nil => simp
    | cons tmp lists ih =>
        intro set
        rw [List.foldl_cons, ih, hinner]
        simp only [List.mem_cons, exists_eq_or_imp, or_assoc]
  simp [insertAll, houter]

/-- The maps from the numbers to the items and back. -/
def number (items : List α) : (AList fun _ : Nat => α) × (AList fun _ : α => Nat) :=
  items.zipIdx.foldl (fun maps item =>
    (maps.1.insert item.2 item.1, maps.2.insert item.1 item.2)) (∅, ∅)

/-- Position `i` of the items is in both maps. -/
theorem number_spec {items : List α} (hnodup : items.Nodup) :
    (∀ i, (number items).1.lookup i = items[i]?) ∧
      ∀ s i, (number items).2.lookup s = some i ↔ items[i]? = some s := by
  induction items using List.reverseRecOn with
  | nil => simp [number]
  | append_singleton items item ih =>
      rw [List.nodup_append] at hnodup
      have hnew : item ∉ items := fun h => hnodup.2.2 item h item (by simp) rfl
      rcases ih hnodup.1 with ⟨hmap, hrev⟩
      have hstep : number (items ++ [item]) =
          ((number items).1.insert items.length item,
            (number items).2.insert item items.length) := by
        simp [number, List.zipIdx_append]
      rw [hstep]
      constructor
      · intro i
        rcases Nat.lt_trichotomy i items.length with h | rfl | h
        · rw [AList.lookup_insert_ne (Nat.ne_of_lt h), hmap, List.getElem?_append_left h]
        · simp
        · rw [AList.lookup_insert_ne (Nat.ne_of_gt h), hmap, List.getElem?_eq_none (by omega),
            List.getElem?_eq_none (by simp; omega)]
      · intro s i
        by_cases hs : s = item
        · subst hs
          rw [AList.lookup_insert, Option.some.injEq]
          constructor
          · rintro rfl
            simp
          · intro h
            rcases Nat.lt_trichotomy i items.length with hi | hi | hi
            · rw [List.getElem?_append_left hi] at h
              exact absurd (List.mem_of_getElem? h) hnew
            · exact hi.symm
            · rw [List.getElem?_eq_none (by simp; omega)] at h
              cases h
        · rw [AList.lookup_insert_ne hs, hrev]
          rcases Nat.lt_trichotomy i items.length with hi | rfl | hi
          · rw [List.getElem?_append_left hi]
          · simp [Ne.symm hs]
          · rw [List.getElem?_eq_none (by omega), List.getElem?_eq_none (by simp; omega)]

section Maps

variable {items : List α}

/-- As many numbers as items. -/
theorem length_keys_number (hnodup : items.Nodup) :
    (number items).1.keys.length = items.length := by
  have hmap := (number_spec hnodup).1
  have hkeys : (number items).1.keys.Perm (List.range items.length) := by
    apply (List.perm_ext_iff_of_nodup (number items).1.keys_nodup List.nodup_range).mpr
    intro i
    rw [← AList.mem_keys, ← AList.lookup_isSome, hmap]
    simp
  rw [hkeys.length_eq, List.length_range]

/-- The numbers are those below the size of the map. -/
theorem isSome_lookup_number (hnodup : items.Nodup) (i : Nat) :
    ((number items).1.lookup i).isSome = true ↔ i < (number items).1.keys.length := by
  rw [length_keys_number hnodup, (number_spec hnodup).1]
  simp

/-- An item has one number. -/
theorem number_inj (hnodup : items.Nodup) {i j : Nat} {s : α}
    (hi : (number items).1.lookup i = some s) (hj : (number items).1.lookup j = some s) :
    i = j := by
  have hmap := (number_spec hnodup).1
  rw [hmap] at hi hj
  rcases List.getElem?_eq_some_iff.mp hi with ⟨hil, his⟩
  rcases List.getElem?_eq_some_iff.mp hj with ⟨hjl, hjs⟩
  exact (List.Nodup.getElem_inj_iff hnodup).mp (his.trans hjs.symm)

/-- What has a number is an item. -/
theorem mem_of_lookup_number (hnodup : items.Nodup) {i : Nat} {s : α}
    (h : (number items).1.lookup i = some s) : s ∈ items := by
  rw [(number_spec hnodup).1] at h
  exact List.mem_of_getElem? h

/-- The number of an item leads back to it. -/
theorem lookup_number_rev (hnodup : items.Nodup) {s : α} (h : s ∈ items) :
    (number items).1.lookup (((number items).2.lookup s).getD 0) = some s := by
  rcases number_spec hnodup with ⟨hmap, hrev⟩
  rcases List.mem_iff_getElem?.mp h with ⟨i, hi⟩
  rw [(hrev s i).mpr hi, Option.getD_some, hmap, hi]

end Maps

end Numbering
