import Paracel.Ps.Calls
import Paracel.Ps.Paralg

/-!
# Reading many keys at once

`paracel_read_multi` of `paralg` (`include/ps.hpp`). The keys are handed out to
one list for each server, and what the servers answer is put back with a map
from keys to places in the request. The map has one place for a key, the last
one; where a key is requested before, the result keeps the value it was
initialised with.
-/

namespace Paracel.Paralg

variable {n : Nat} {V : Type}

/-- `lst_lst`: the keys by their server. -/
def lstLst (getServer : Str → Fin n) (keys : List Str) : Fin n → List Str :=
  keys.foldl
    (fun lst key => Function.update lst (getServer key) (lst (getServer key) ++ [key]))
    fun _ => []

/-- `indx_map`. -/
def indxMap (keys : List Str) : Dict Str Nat :=
  keys.zipIdx.foldl (fun d k => d.insert k.1 k.2) ∅

/-- `vals[indx_map[lst_lst[k][i]]] = lst[i]` for the answers of one server; `operator[]` of the
    map makes 0 of an absent key. -/
def place (indx : Dict Str Nat) (vals : List V) (answers : List (Str × V)) : List V :=
  answers.foldl (fun vals kv => vals.set ((indx.lookup kv.1).getD 0) kv.2) vals

section Calls

variable [Inhabited V] (lib : Libs V) (getServer : Str → Fin n)

/-- The loop over the servers. -/
def pullGroups (lst : Fin n → List Str) (indx : Dict Str Nat) :
    List (Fin n) → List V → Paralg n V → Option (List V × Paralg n V)
  | [], vals, p => some (vals, p)
  | k :: ks, vals, p =>
      (Kvclt.pullMulti lib (p.kvm k) (lst k)).bind fun (tmp, s) =>
        pullGroups lst indx ks (place indx vals ((lst k).zip tmp)) (p.setServer k s)

/-- `paracel_read_multi` with `ssp_switch` off. `vals.resize` makes default values. -/
def paracelReadMulti (p : Paralg n V) (keys : List Str) : Option (List V × Paralg n V) :=
  pullGroups lib (lstLst getServer keys) (indxMap keys) (List.finRange n)
    (List.replicate keys.length default) p

/-- What `paracel_read` gives for each key. -/
def readEach (p : Paralg n V) (keys : List Str) : Option (List V) :=
  keys.mapM fun key => (paracelRead lib getServer p key).bind Prod.fst

end Calls

/-- The value that is stored under a key. -/
def stored (getServer : Str → Fin n) (p : Paralg n V) (key : Str) : Option V :=
  Servers.value getServer p.kvm key

/-! ### The places -/

section Places

theorem lstLst_eq (getServer : Str → Fin n) (keys : List Str) (k : Fin n) :
    lstLst getServer keys k = keys.filter fun key => getServer key = k := by
  induction keys using List.reverseRecOn with
  | nil => rfl
  | append_singleton keys key ih =>
      rw [lstLst, List.foldl_append, List.foldl_cons, List.foldl_nil, List.filter_append, ← ih]
      by_cases hk : getServer key = k
      · subst hk
        rw [Function.update_self]
        simp [lstLst]
      · rw [Function.update_of_ne (Ne.symm hk)]
        simp [lstLst, hk]

theorem lookup_indxMap_append (keys : List Str) (key k : Str) :
    (indxMap (keys ++ [key])).lookup k =
      if k = key then some keys.length else (indxMap keys).lookup k := by
  rw [indxMap, List.zipIdx_append, List.foldl_append]
  by_cases hk : k = key
  · subst hk
    simp
  · simp [hk, indxMap]

/-- The place of a key is the last one at which it is requested. -/
theorem lookup_indxMap {keys : List Str} {k : Str} {i : Nat} :
    (indxMap keys).lookup k = some i ↔
      keys[i]? = some k ∧ ∀ j, i < j → keys[j]? ≠ some k := by
  induction keys using List.reverseRecOn with
  | nil => simp [indxMap]
  | append_singleton keys key ih =>
      rw [lookup_indxMap_append]
      by_cases hk : k = key
      · subst hk
        rw [if_pos rfl, Option.some_inj]
        constructor
        · rintro rfl
          refine ⟨by simp, ?_⟩
          intro j hj
          rw [List.getElem?_eq_none (by simp; omega)]
          simp
        · rintro ⟨hi, hlast⟩
          by_contra hne
          have hlt : i < (keys ++ [k]).length := (List.getElem?_eq_some_iff.mp hi).1
          rw [List.length_append, List.length_singleton] at hlt
          exact hlast keys.length (by omega) (by simp)
      · rw [if_neg hk, ih]
        have hget : ∀ j : Nat, (keys ++ [key])[j]? = some k ↔ keys[j]? = some k := by
          intro j
          rcases Nat.lt_trichotomy j keys.length with h | rfl | h
          · rw [List.getElem?_append_left h]
          · simp [Ne.symm hk]
          · rw [List.getElem?_eq_none (by simp; omega), List.getElem?_eq_none (by omega)]
        simp only [ne_eq, hget]

theorem isSome_lookup_indxMap {keys : List Str} {k : Str} (h : k ∈ keys) :
    ((indxMap keys).lookup k).isSome := by
  induction keys using List.reverseRecOn with
  | nil => cases h
  | append_singleton keys key ih =>
      rw [lookup_indxMap_append]
      split
      · rfl
      · rename_i hk
        exact ih ((List.mem_append.mp h).resolve_right (by simpa using hk))

theorem place_append (indx : Dict Str Nat) (vals : List V) (as bs : List (Str × V)) :
    place indx vals (as ++ bs) = place indx (place indx vals as) bs :=
  List.foldl_append

theorem length_place (indx : Dict Str Nat) (vals : List V) (answers : List (Str × V)) :
    (place indx vals answers).length = vals.length := by
  induction answers using List.reverseRecOn with
  | nil => rfl
  | append_singleton answers kv ih =>
      rw [place_append, ← ih]
      exact List.length_set

/-- A key that is requested again. -/
theorem mem_drop_iff {keys : List Str} {i : Nat} {key : Str} :
    key ∈ keys.drop (i + 1) ↔ ∃ j, i < j ∧ keys[j]? = some key := by
  rw [List.mem_iff_getElem?]
  constructor
  · rintro ⟨j, hj⟩
    rw [List.getElem?_drop] at hj
    exact ⟨i + 1 + j, by omega, hj⟩
  · rintro ⟨j, hij, hj⟩
    refine ⟨j - (i + 1), ?_⟩
    rw [List.getElem?_drop, Nat.add_sub_cancel' hij, hj]

/-- Where the answers `val` of the keys `ks` end up. -/
theorem getElem?_place {indx : Dict Str Nat} {val : Str → V} {ks : List Str} {vals : List V}
    {keys : List Str} (hindx : ∀ k ∈ ks, ∃ i, indx.lookup k = some i ∧ keys[i]? = some k)
    (hlen : vals.length = keys.length) (i : Nat) :
    (place indx vals (ks.map fun k => (k, val k)))[i]? =
      if ∃ k ∈ ks, indx.lookup k = some i then keys[i]?.map val else vals[i]? := by
  induction ks using List.reverseRecOn with
  | nil => simp [place]
  | append_singleton ks key ih =>
      have hks := ih fun k hk => hindx k (List.mem_append_left _ hk)
      rcases hindx key (by simp) with ⟨j, hj, hkey⟩
      have hlt : j < (place indx vals (ks.map fun k => (k, val k))).length := by
        rw [length_place, hlen]
        exact (List.getElem?_eq_some_iff.mp hkey).1
      rw [List.map_append, List.map_singleton, place_append, place, List.foldl_cons,
        List.foldl_nil, hj, Option.getD_some, List.getElem?_set]
      by_cases hji : j = i
      · subst hji
        rw [if_pos rfl, if_pos hlt, if_pos ⟨key, by simp, hj⟩, hkey]
        rfl
      · rw [if_neg hji, hks]
        have hiff : (∃ k ∈ ks ++ [key], indx.lookup k = some i) ↔
            ∃ k ∈ ks, indx.lookup k = some i := by
          simp [or_and_right, exists_or, hj, hji]
        simp only [hiff]

end Places

/-! ### The answers of the servers -/

section Answers

variable [Inhabited V] {lib : Libs V} {getServer : Str → Fin n} {p : Paralg n V} {val : Str → V}

/-- Pulling changes nothing. -/
theorem eq_of_pullGroups {lst : Fin n → List Str} {indx : Dict Str Nat} {ks : List (Fin n)}
    {vals vals' : List V} {p' : Paralg n V}
    (h : pullGroups lib lst indx ks vals p = some (vals', p')) : p' = p := by
  induction ks generalizing vals with
  | nil =>
      cases h
      rfl
  | cons k ks ih =>
      rw [pullGroups, Kvclt.pullMulti_eq] at h
      rcases Option.bind_eq_some_iff.mp h with ⟨⟨tmp, s⟩, htmp, hrest⟩
      rcases Option.map_eq_some_iff.mp htmp with ⟨tmp', -, heq⟩
      cases heq
      dsimp only at hrest
      rw [setServer_self] at hrest
      exact ih hrest

/-- When the servers hold all keys, the loop puts the answers of all of them in place. -/
theorem pullGroups_eq {lst : Fin n → List Str}
    (hlst : ∀ k, ∀ key ∈ lst k, (p.kvm k).tblStore.get key = some (val key)) (indx : Dict Str Nat)
    (ks : List (Fin n)) (vals : List V) :
    pullGroups lib lst indx ks vals p =
      some (place indx vals ((ks.flatMap lst).map fun key => (key, val key)), p) := by
  induction ks generalizing vals with
  | nil => rfl
  | cons k ks ih =>
      have hzip : (lst k).zip ((lst k).map val) = (lst k).map fun key => (key, val key) := by
        simpa using List.zip_map' (f := id) (g := val) (l := lst k)
      have hget : (p.kvm k).tblStore.getMulti (lst k) = some ((lst k).map val) :=
        mapM_eq_some (hlst k)
      rw [pullGroups, Kvclt.pullMulti_eq, hget, Option.map_some, Option.bind_some]
      dsimp only
      rw [setServer_self, ih, hzip, List.flatMap_cons, List.map_append, place_append]

variable (lib) in
/-- Where a request is the last one for its key, the result has the stored value. -/
theorem paracelReadMulti_eq {keys : List Str}
    (hstored : ∀ key ∈ keys, p.stored getServer key = some (val key)) :
    ∃ vals, paracelReadMulti lib getServer p keys = some (vals, p) ∧
      vals.length = keys.length ∧ ∀ (i : Nat) key, keys[i]? = some key →
        vals[i]? = if key ∈ keys.drop (i + 1) then some default else p.stored getServer key := by
  have hlst : ∀ k, ∀ key ∈ lstLst getServer keys k,
      (p.kvm k).tblStore.get key = some (val key) := by
    intro k key hkey
    rw [lstLst_eq, List.mem_filter, decide_eq_true_eq] at hkey
    rcases hkey with ⟨hmem, rfl⟩
    exact hstored key hmem
  refine ⟨_, pullGroups_eq hlst _ _ _, by rw [length_place, List.length_replicate], ?_⟩
  intro i key hkey
  have hmem : ∀ k, k ∈ (List.finRange n).flatMap (lstLst getServer keys) ↔ k ∈ keys := by
    simp [lstLst_eq]
  have hindx : ∀ k ∈ (List.finRange n).flatMap (lstLst getServer keys),
      ∃ i, (indxMap keys).lookup k = some i ∧ keys[i]? = some k := by
    intro k hk
    rcases Option.isSome_iff_exists.mp (isSome_lookup_indxMap ((hmem k).mp hk)) with ⟨j, hj⟩
    exact ⟨j, hj, (lookup_indxMap.mp hj).1⟩
  rw [getElem?_place hindx (by rw [List.length_replicate])]
  have hlt := (List.getElem?_eq_some_iff.mp hkey).1
  by_cases hlater : key ∈ keys.drop (i + 1)
  · rw [if_pos hlater, if_neg, List.getElem?_replicate_of_lt hlt]
    rintro ⟨k, -, hk⟩
    rcases lookup_indxMap.mp hk with ⟨hki, hlast⟩
    rcases mem_drop_iff.mp hlater with ⟨j, hij, hj⟩
    obtain rfl : key = k := Option.some.inj (hkey.symm.trans hki)
    exact hlast j hij hj
  · rw [if_neg hlater, if_pos, hkey, hstored key (List.mem_of_getElem? hkey)]
    · rfl
    · refine ⟨key, (hmem key).mpr (List.mem_of_getElem? hkey), lookup_indxMap.mpr ⟨hkey, ?_⟩⟩
      exact fun j hij hj => hlater (mem_drop_iff.mpr ⟨j, hij, hj⟩)

/-- The values are in order exactly when a repeated key has the default value. -/
theorem inOrder_iff {keys : List Str} {vals : List V} {val : Str → Option V}
    (hvals : ∀ (i : Nat) key, keys[i]? = some key →
      vals[i]? = if key ∈ keys.drop (i + 1) then some default else val key) :
    (∀ (i : Nat) key, keys[i]? = some key → vals[i]? = val key) ↔
      ∀ (i j : Nat) key, i < j → keys[i]? = some key → keys[j]? = some key →
        val key = some default := by
  constructor
  · intro horder i j key hij hi hj
    rw [← horder i key hi, hvals i key hi, if_pos (mem_drop_iff.mpr ⟨j, hij, hj⟩)]
  · intro hrepeat i key hi
    rw [hvals i key hi]
    split
    · rename_i hlater
      rcases mem_drop_iff.mp hlater with ⟨j, hij, hj⟩
      exact (hrepeat i j key hij hi hj).symm
    · rfl

theorem readEach_eq {keys : List Str}
    (hstored : ∀ key ∈ keys, p.stored getServer key = some (val key)) :
    readEach lib getServer p keys = some (keys.map val) := by
  apply mapM_eq_some
  intro key hkey
  simp only [paracelRead, Kvclt.pull_eq]
  exact hstored key hkey

end Answers

/-- The result has the values in the order of the keys, as reading them one by one would give
    them, exactly when a key that is requested several times has the default value. -/
theorem paracel_read_multi_iff [Inhabited V] (lib : Libs V) (getServer : Str → Fin n)
    (p : Paralg n V) {keys : List Str}
    (hstored : ∀ key ∈ keys, (p.stored getServer key).isSome) :
    (∃ vals, (paracelReadMulti lib getServer p keys).map Prod.fst = some vals ∧
        vals.length = keys.length ∧
        (∀ (i : Nat) key, keys[i]? = some key → vals[i]? = p.stored getServer key) ∧
        readEach lib getServer p keys = some vals) ↔
      ∀ (i j : Nat) key, i < j → keys[i]? = some key → keys[j]? = some key →
        p.stored getServer key = some default := by
  let val : Str → V := fun key => (p.stored getServer key).getD default
  have hval : ∀ key ∈ keys, p.stored getServer key = some (val key) := by
    intro key hkey
    rcases Option.isSome_iff_exists.mp (hstored key hkey) with ⟨v, hv⟩
    simp [val, hv]
  rcases paracelReadMulti_eq lib hval with ⟨vals, hmulti, hlen, hvals⟩
  rw [hmulti, ← inOrder_iff hvals]
  constructor
  · rintro ⟨vals', hvals', -, horder, -⟩
    cases hvals'
    exact horder
  · intro horder
    refine ⟨vals, rfl, hlen, horder, ?_⟩
    rw [readEach_eq hval]
    congr 1
    apply List.ext_getElem?
    intro i
    rw [List.getElem?_map]
    cases hi : keys[i]? with
    | none =>
        rw [List.getElem?_eq_none_iff] at hi
        rw [List.getElem?_eq_none (by omega)]
        rfl
    | some key => rw [horder i key hi, hval key (List.mem_of_getElem? hi), Option.map_some]

/-- One server, which has the value 5 under one key and the default value under another. -/
def oneStored : Paralg 1 Int where
  sspSwitch := false
  kvm := fun _ => { tblStore := (Kvs.set {} (lit "a") 5).set (lit "b") default }

theorem paracel_read_multi_iff_oneStored :
    ∃ vals, (paracelReadMulti addMulLib (fun _ => 0) oneStored
        [lit "b", lit "a", lit "b"]).map Prod.fst = some vals ∧
      vals.length = 3 ∧
      (∀ (i : Nat) key, [lit "b", lit "a", lit "b"][i]? = some key →
        vals[i]? = oneStored.stored (fun _ => 0) key) ∧
      readEach addMulLib (fun _ => 0) oneStored [lit "b", lit "a", lit "b"] = some vals := by
  refine (paracel_read_multi_iff addMulLib (fun _ => 0) oneStored (by decide)).mpr ?_
  intro i j key hij hi hj
  by_cases hkey : key = lit "b"
  · subst hkey
    decide
  · -- the other key is requested once
    have honce : ∀ m : Nat, [lit "b", lit "a", lit "b"][m]? = some key → m = 1 := by
      intro m hm
      match m, hm with
      | 0, hm => exact absurd (Option.some.inj hm).symm hkey
      | 1, _ => rfl
      | 2, hm => exact absurd (Option.some.inj hm).symm hkey
      | _ + 3, hm => cases hm
    have h1 := honce i hi
    have h2 := honce j hj
    omega

/-- A key that is requested twice comes back once; in its first place stands 0. -/
theorem not_inOrder_twice :
    (paracelReadMulti addMulLib (fun _ => 0) oneStored [lit "a", lit "a"]).map Prod.fst =
        some [0, 5] ∧
      ¬∀ keys, (∀ key ∈ keys, (oneStored.stored (fun _ => 0) key).isSome) →
        ∃ vals, (paracelReadMulti addMulLib (fun _ => 0) oneStored keys).map Prod.fst =
            some vals ∧ vals.length = keys.length ∧
          (∀ (i : Nat) key, keys[i]? = some key →
            vals[i]? = oneStored.stored (fun _ => 0) key) ∧
          readEach addMulLib (fun _ => 0) oneStored keys = some vals := by
  have hmulti : (paracelReadMulti addMulLib (fun _ => 0) oneStored
      [lit "a", lit "a"]).map Prod.fst = some [0, 5] := by decide
  refine ⟨hmulti, ?_⟩
  intro hall
  rcases hall [lit "a", lit "a"] (by decide) with ⟨vals, hvals, -, horder, -⟩
  rw [hmulti, Option.some_inj] at hvals
  subst hvals
  exact absurd (horder 0 (lit "a") rfl) (by decide)

end Paracel.Paralg
