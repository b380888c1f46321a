import Paracel.Types

/-!
# The key-value store

`paracel::kvs` of `include/kv.hpp`. The two overloads of `get` are one
function: `boost::none` and the `false` of the reference overload are `none`.
`kvdct.at` throws on an absent key, so `getMulti` is `none` when one key of the
list is absent.
-/

namespace Paracel

/-- `paracel::kvs`. -/
structure Kvs (K V : Type) where
  kvdct : Dict K V := ∅

namespace Kvs

variable {K V : Type} [DecidableEq K]

/-- `kvs::get`. -/
def get (s : Kvs K V) (k : K) : Option V :=
  s.kvdct.lookup k

/-- `kvs::contains`. -/
def contains (s : Kvs K V) (k : K) : Bool :=
  (s.get k).isSome

/-- `kvs::set`. -/
def set (s : Kvs K V) (k : K) (v : V) : Kvs K V :=
  { kvdct := s.kvdct.insert k v }

/-- `kvs::set_multi`, which sets the pairs in iteration order. -/
def setMulti (s : Kvs K V) (kvdict : Dict K V) : Kvs K V :=
  (Dict.pairs kvdict).foldl (fun s kv => s.set kv.1 kv.2) s

/-- `kvs::get_multi`; `none` stands for the `std::out_of_range` of `at`. -/
def getMulti (s : Kvs K V) (keylst : List K) : Option (List V) :=
  keylst.mapM s.get

/-- `kvs::incr` on an atomic type. -/
def incr [Add V] (s : Kvs K V) (k : K) (delta : V) : Bool × Kvs K V :=
  match s.get k with
  | none => (false, s)
  | some v => (true, s.set k (v + delta))

/-- `kvs::del`. -/
def del (s : Kvs K V) (k : K) : Bool × Kvs K V :=
  if s.contains k then (true, { kvdct := s.kvdct.erase k }) else (false, s)

/-- `kvs::clean`. -/
def clean (_ : Kvs K V) : Kvs K V := {}

/-- `kvs::getall`. -/
def getall (s : Kvs K V) : Dict K V :=
  s.kvdct

@[simp] theorem get_set (s : Kvs K V) (k k' : K) (v : V) :
    (s.set k v).get k' = if k' = k then some v else s.get k' := by
  by_cases h : k' = k
  · subst h
    simp [get, set]
  · simp [get, set, h]

@[simp] theorem get_incr [Add V] (s : Kvs K V) (k k' : K) (delta : V) :
    (s.incr k delta).2.get k' = if k' = k then (s.get k).map (· + delta) else s.get k' := by
  cases h : s.get k with
  | none =>
      by_cases hk : k' = k
      · subst hk
        simp [incr, h]
      · simp [incr, h, hk]
  | some v => simp [incr, h]

@[simp] theorem get_del (s : Kvs K V) (k k' : K) :
    (s.del k).2.get k' = if k' = k then none else s.get k' := by
  unfold del
  by_cases hc : s.contains k = true
  · by_cases hk : k' = k
    · subst hk
      simp [hc, get]
    · simp [hc, hk, get]
  · by_cases hk : k' = k
    · subst hk
      have hnone : s.get k' = none := by simpa [contains] using hc
      simp [hc, hnone]
    · simp [hc, hk]

theorem del_fst (s : Kvs K V) (k : K) : (s.del k).1 = s.contains k := by
  unfold del
  split <;> simp_all

/-- Deleting an absent key leaves the store as it is. -/
theorem del_of_get_none {s : Kvs K V} {k : K} (h : s.get k = none) : (s.del k).2 = s := by
  simp [del, contains, h]

/-- Incrementing an absent key leaves the store as it is. -/
theorem incr_of_get_none [Add V] {s : Kvs K V} {k : K} (h : s.get k = none) (delta : V) :
    (s.incr k delta).2 = s := by
  simp [incr, h]

theorem getMulti_eq_none {s : Kvs K V} {keylst : List K} :
    s.getMulti keylst = none ↔ ∃ k ∈ keylst, s.get k = none := by
  induction keylst with
  | nil => simp [getMulti]
  | cons k keylst ih =>
      have htail : keylst.mapM s.get = none ↔ ∃ k ∈ keylst, s.get k = none := ih
      cases h : s.get k with
      | none => simp [getMulti, List.mapM_cons, h]
      | some v =>
          cases hrest : keylst.mapM s.get with
          | none =>
              have hex := htail.mp hrest
              simp [getMulti, List.mapM_cons, h, hrest, hex]
          | some vs =>
              have hex : ¬∃ k ∈ keylst, s.get k = none := by
                rw [← htail, hrest]
                simp
              simp only [getMulti, List.mapM_cons, h, hrest]
              simpa [h] using hex

/-- Setting pairs with distinct keys: a listed key gets its value, the others keep theirs. -/
theorem get_foldl_set (kvs : List (K × V)) (hnodup : (kvs.map Prod.fst).Nodup)
    (s : Kvs K V) (k : K) :
    (kvs.foldl (fun s kv => s.set kv.1 kv.2) s).get k =
      ((kvs.find? fun kv => kv.1 = k).map Prod.snd).or (s.get k) := by
  induction kvs generalizing s with
  | nil => simp
  | cons kv kvs ih =>
      have hd := List.nodup_cons.mp hnodup
      rw [List.foldl_cons, ih hd.2]
      by_cases hk : kv.1 = k
      · have hnone : (kvs.find? fun kv => kv.1 = k) = none := by
          rw [List.find?_eq_none]
          intro kv' hmem heq
          refine hd.1 (List.mem_map.mpr ⟨kv', hmem, ?_⟩)
          simpa [hk] using heq
        simp [hnone, hk]
      · simp [hk, Ne.symm hk]

theorem find?_pairs (d : Dict K V) (k : K) :
    ((Dict.pairs d).find? fun kv => kv.1 = k).map Prod.snd = d.lookup k := by
  cases h : (Dict.pairs d).find? fun kv => kv.1 = k with
  | none =>
      rw [List.find?_eq_none] at h
      cases hl : d.lookup k with
      | none => rfl
      | some v => simpa using h (k, v) (Dict.mem_pairs.mpr hl)
  | some kv =>
      have hk : kv.1 = k := by simpa using List.find?_some h
      have hmem := List.mem_of_find?_eq_some h
      subst hk
      simpa using (Dict.mem_pairs.mp hmem).symm

/-- The order in which `set_multi` iterates makes no difference. -/
@[simp] theorem get_setMulti (s : Kvs K V) (d : Dict K V) (k : K) :
    (s.setMulti d).get k = (d.lookup k).or (s.get k) := by
  rw [setMulti, get_foldl_set _ (Dict.pairs_nodup d), find?_pairs]

private theorem lookup_eq_get (kvs : List (K × V)) (d : Dict K V) (k : K) :
    (kvs.foldl (fun d kv => d.insert kv.1 kv.2) d).lookup k =
      get (kvs.foldl (fun s kv => s.set kv.1 kv.2) ⟨d⟩) k := by
  induction kvs generalizing d with
  | nil => rfl
  | cons kv kvs ih => exact ih _

/-- Of pairs with distinct keys, the one with a given key. -/
theorem find?_of_nodup {kvs : List (K × V)} (hnodup : (kvs.map Prod.fst).Nodup) {kv : K × V}
    (h : kv ∈ kvs) : (kvs.find? fun kv' => kv'.1 = kv.1) = some kv := by
  cases hfind : kvs.find? fun kv' => kv'.1 = kv.1 with
  | none => exact absurd (List.find?_eq_none.mp hfind kv h) (by simp)
  | some kv' =>
      have hkey : kv'.1 = kv.1 := by simpa using List.find?_some hfind
      have hmem := List.mem_of_find?_eq_some hfind
      rw [List.inj_on_of_nodup_map hnodup hmem h hkey]

/-- Inserting pairs with distinct keys, each of which gets its value. -/
theorem lookup_foldl_insert_of_nodup {kvs : List (K × V)} (hnodup : (kvs.map Prod.fst).Nodup)
    (d : Dict K V) {k : K} {v : V} (h : (k, v) ∈ kvs) :
    (kvs.foldl (fun d kv => d.insert kv.1 kv.2) d).lookup k = some v := by
  rw [lookup_eq_get, get_foldl_set kvs hnodup, find?_of_nodup hnodup h]
  rfl

/-- A key that is not inserted keeps its value. -/
theorem lookup_foldl_insert_of_notMem {kvs : List (K × V)} {k : K} (h : k ∉ kvs.map Prod.fst)
    (d : Dict K V) : (kvs.foldl (fun d kv => d.insert kv.1 kv.2) d).lookup k = d.lookup k := by
  induction kvs generalizing d with
  | nil => rfl
  | cons kv kvs ih =>
      rw [List.map_cons, List.mem_cons, not_or] at h
      rw [List.foldl_cons, ih h.2, AList.lookup_insert_ne h.1]

/-- A dictionary of pairs with different keys has just these. -/
theorem pairs_foldl_insert_perm {kvs : List (K × V)} (hnodup : (kvs.map Prod.fst).Nodup) :
    (Dict.pairs (kvs.foldl (fun d kv => d.insert kv.1 kv.2) ∅)).Perm kvs := by
  have hmem : ∀ kv ∈ kvs, kv ∈ Dict.pairs (kvs.foldl (fun d kv => d.insert kv.1 kv.2) ∅) :=
    fun kv hkv => Dict.mem_pairs.mpr (lookup_foldl_insert_of_nodup hnodup ∅ hkv)
  apply (List.perm_ext_iff_of_nodup (List.Nodup.of_map _ (Dict.pairs_nodup _))
    (List.Nodup.of_map _ hnodup)).mpr
  intro kv
  refine ⟨fun hkv => ?_, hmem kv⟩
  by_cases hkey : kv.1 ∈ kvs.map Prod.fst
  · obtain ⟨kv', hkv', heq⟩ := List.mem_map.mp hkey
    rwa [← List.inj_on_of_nodup_map (Dict.pairs_nodup _) (hmem kv' hkv') hkv heq]
  · have hlookup := Dict.mem_pairs.mp hkv
    rw [lookup_foldl_insert_of_notMem hkey, AList.lookup_empty] at hlookup
    cases hlookup

/-- Copying a dictionary into another, entry by entry in iteration order. -/
theorem lookup_foldl_insert (dct d : Dict K V) (k : K) :
    ((Dict.pairs dct).foldl (fun d kv => d.insert kv.1 kv.2) d).lookup k =
      (dct.lookup k).or (d.lookup k) := by
  rw [lookup_eq_get]
  exact get_setMulti ⟨d⟩ dct k

end Kvs

end Paracel
