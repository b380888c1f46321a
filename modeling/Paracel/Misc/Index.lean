import Mathlib.Algebra.BigOperators.Group.List.Basic
import Mathlib.Data.List.AList

/-!
# A dictionary with an index

A table of records by key, each with a place and an amount, and beside it the
amounts by place. While no two records have one place, the index can be kept
without looking at the table: entering a record enters its place, dropping it
drops the place.
-/

namespace Index

variable {K H V : Type} [DecidableEq K] [DecidableEq H]

/-- The sum of the values of a dictionary. -/
def sumValues [AddCommMonoid V] (d : AList fun _ : K => V) : V :=
  (d.entries.map Sigma.snd).sum

section Sum

variable [AddCommMonoid V] {d : AList fun _ : K => V} {k : K} {v : V}

omit [DecidableEq K] in
@[simp] theorem sumValues_empty : sumValues (∅ : AList fun _ : K => V) = 0 := rfl

theorem sumValues_insert (h : k ∉ d) : sumValues (d.insert k v) = v + sumValues d := by
  rw [sumValues, AList.entries_insert_of_notMem h, List.map_cons, List.sum_cons, sumValues]

/-- What a dictionary loses with an entry. -/
theorem sumValues_erase (h : d.lookup k = some v) : v + sumValues (d.erase k) = sumValues d := by
  have hmem : k ∈ d.keys := AList.mem_keys.mp (AList.lookup_isSome.mp (by rw [h]; rfl))
  obtain ⟨v', l₁, l₂, -, hsplit, herase⟩ := List.exists_of_kerase hmem
  have hv : v' = v := by
    have hin : (⟨k, v'⟩ : Sigma fun _ : K => V) ∈ d.entries := by
      rw [hsplit]
      exact List.mem_append_right l₁ List.mem_cons_self
    rw [← AList.mem_lookup_iff, h] at hin
    exact (Option.mem_some_iff.mp hin).symm
  have hd : (d.erase k).entries = l₁ ++ l₂ := herase
  rw [sumValues, sumValues, hd, hsplit, hv]
  simp only [List.map_append, List.map_cons, List.sum_append, List.sum_cons]
  exact add_left_comm v _ _

end Sum

/-- `idx` is the index of `d`: it has the amount of every record under the record's place, no
    other places, and no two records have one place. -/
structure IndexOf (d : AList fun _ : K => H × V) (idx : AList fun _ : H => V) : Prop where
  lookup_iff : ∀ h v, idx.lookup h = some v ↔ ∃ k, d.lookup k = some (h, v)
  inj : ∀ k k' h v v', d.lookup k = some (h, v) → d.lookup k' = some (h, v') → k = k'

namespace IndexOf

variable {d : AList fun _ : K => H × V} {idx : AList fun _ : H => V} {k : K} {h : H} {v : V}

theorem empty : IndexOf (∅ : AList fun _ : K => H × V) (∅ : AList fun _ : H => V) where
  lookup_iff h v := by simp
  inj k k' h v v' hk := by simp at hk

theorem lookup_place (hidx : IndexOf d idx) (hk : d.lookup k = some (h, v)) :
    idx.lookup h = some v :=
  (hidx.lookup_iff h v).mpr ⟨k, hk⟩

/-- A new record at a new place. -/
theorem insert (hidx : IndexOf d idx) (hk : k ∉ d) (hh : h ∉ idx) :
    IndexOf (d.insert k (h, v)) (idx.insert h v) where
  lookup_iff h' v' := by
    by_cases heq : h' = h
    · subst heq
      rw [AList.lookup_insert]
      constructor
      · intro hv
        cases hv
        exact ⟨k, AList.lookup_insert d⟩
      · rintro ⟨k', hk'⟩
        by_cases hkk : k' = k
        · subst hkk
          rw [AList.lookup_insert] at hk'
          cases hk'
          rfl
        · rw [AList.lookup_insert_ne hkk] at hk'
          have hin := hidx.lookup_place hk'
          rw [AList.lookup_eq_none.mpr hh] at hin
          cases hin
    · rw [AList.lookup_insert_ne heq, hidx.lookup_iff]
      constructor
      · rintro ⟨k', hk'⟩
        have hkk : k' ≠ k := by
          rintro rfl
          rw [AList.lookup_eq_none.mpr hk] at hk'
          cases hk'
        exact ⟨k', by rwa [AList.lookup_insert_ne hkk]⟩
      · rintro ⟨k', hk'⟩
        by_cases hkk : k' = k
        · subst hkk
          rw [AList.lookup_insert] at hk'
          cases hk'
          exact absurd rfl heq
        · exact ⟨k', by rwa [AList.lookup_insert_ne hkk] at hk'⟩
  inj k₁ k₂ h' v₁ v₂ h₁ h₂ := by
    have hnew : ∀ {k' v'}, k' ≠ k → d.lookup k' = some (h', v') → h' ≠ h := by
      rintro k' v' - hk' rfl
      have hin := hidx.lookup_place hk'
      rw [AList.lookup_eq_none.mpr hh] at hin
      cases hin
    by_cases hk₁ : k₁ = k
    · by_cases hk₂ : k₂ = k
      · rw [hk₁, hk₂]
      · subst hk₁
        rw [AList.lookup_insert] at h₁
        rw [AList.lookup_insert_ne hk₂] at h₂
        cases h₁
        exact absurd rfl (hnew hk₂ h₂)
    · rw [AList.lookup_insert_ne hk₁] at h₁
      by_cases hk₂ : k₂ = k
      · subst hk₂
        rw [AList.lookup_insert] at h₂
        cases h₂
        exact absurd rfl (hnew hk₁ h₁)
      · rw [AList.lookup_insert_ne hk₂] at h₂
        exact hidx.inj k₁ k₂ h' v₁ v₂ h₁ h₂

/-- A record is dropped with its place. -/
theorem erase (hidx : IndexOf d idx) (hk : d.lookup k = some (h, v)) :
    IndexOf (d.erase k) (idx.erase h) where
  lookup_iff h' v' := by
    by_cases heq : h' = h
    · subst heq
      rw [AList.lookup_erase]
      constructor
      · intro hv
        cases hv
      · rintro ⟨k', hk'⟩
        by_cases hkk : k' = k
        · subst hkk
          rw [AList.lookup_erase] at hk'
          cases hk'
        · rw [AList.lookup_erase_ne hkk] at hk'
          exact absurd (hidx.inj _ _ _ _ _ hk' hk) hkk
    · rw [AList.lookup_erase_ne heq, hidx.lookup_iff]
      constructor
      · rintro ⟨k', hk'⟩
        have hkk : k' ≠ k := by
          rintro rfl
          rw [hk] at hk'
          cases hk'
          exact heq rfl
        exact ⟨k', by rwa [AList.lookup_erase_ne hkk]⟩
      · rintro ⟨k', hk'⟩
        by_cases hkk : k' = k
        · subst hkk
          rw [AList.lookup_erase] at hk'
          cases hk'
        · exact ⟨k', by rwa [AList.lookup_erase_ne hkk] at hk'⟩
  inj k₁ k₂ h' v₁ v₂ h₁ h₂ := by
    have hold : ∀ {k' p}, (d.erase k).lookup k' = some p → d.lookup k' = some p := by
      intro k' p hk'
      by_cases hkk : k' = k
      · subst hkk
        rw [AList.lookup_erase] at hk'
        cases hk'
      · rwa [AList.lookup_erase_ne hkk] at hk'
    exact hidx.inj k₁ k₂ h' v₁ v₂ (hold h₁) (hold h₂)

end IndexOf

end Index
