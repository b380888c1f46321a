import Paracel.Misc.TopK
import Paracel.Ps.Paralg
import Paracel.Server.Updater

/-!
# The largest values on the servers

`paracel_readall_handle` and `paracel_read_topk` of `paralg` (`include/ps.hpp`).
One heap is carried through the dictionaries of all servers and never keeps more
than `k` pairs. A `std::priority_queue` is any queue that does what its
documentation says, so nothing depends on how it orders equal values; a
dictionary has its entries in any order.
-/

namespace Paracel.Paralg

open TopK

variable {n : Nat} {T : Type}

/-- `min_heap_cmp`. -/
def minHeapCmp [LinearOrder T] (l r : Str × T) : Bool :=
  decide (l.2 > r.2)

theorem minHeapCmp_eq [LinearOrder T] (l r : Str × T) : minHeapCmp l r = decide (r.2 < l.2) := rfl

section Calls

variable [Inhabited T] (lib : Libs T)

/-- The loop of `paracel_readall_handle` over the servers, with a `func` that acts on a
    state. -/
def readallHandleFrom {σ : Type} (func : σ → Dict Str T → σ) :
    List (Fin n) → σ → Paralg n T → Option (σ × Paralg n T)
  | [], s, p => some (s, p)
  | indx :: rest, s, p =>
      (Kvclt.pullall lib (p.kvm indx)).bind fun (tmp, server) =>
        let d := (Dict.pairs tmp).foldl (fun d kv => d.insert kv.1 kv.2) ∅
        readallHandleFrom func rest (func s d) (p.setServer indx server)

/-- `paracel_readall_handle`. -/
def paracelReadallHandle {σ : Type} (func : σ → Dict Str T → σ) (s : σ) (p : Paralg n T) :
    Option (σ × Paralg n T) :=
  readallHandleFrom lib func (List.finRange n) s p

variable [LinearOrder T] (pq : PriorityQueue (minHeapCmp (T := T)))

/-- The `handler` of `paracel_read_topk`. -/
def topkHandler (k : Int) (tmplst : pq.Carrier) (d : Dict Str T) : pq.Carrier :=
  (Dict.pairs d).foldl
    (fun tmplst kv =>
      let tmplst := pq.push tmplst kv
      if (pq.size tmplst : Int) > k then pq.pop tmplst else tmplst)
    tmplst

/-- `paracel_read_topk`: `result`. -/
def paracelReadTopk (k : Int) (p : Paralg n T) : Option (List (Str × T) × Paralg n T) :=
  (paracelReadallHandle lib (topkHandler pq k) pq.empty p).map fun (tmplst, p) =>
    ((pq.drain tmplst).reverse, p)

end Calls

/-- All pairs that the servers have, one server after another. -/
def storedPairs (p : Paralg n T) : List (Str × T) :=
  (List.finRange n).flatMap fun i => Dict.pairs (p.kvm i).tblStore.kvdct

/-- No two servers have a key in common. -/
def Sharded (p : Paralg n T) : Prop :=
  ∀ i j key, ((p.kvm i).tblStore.get key).isSome → ((p.kvm j).tblStore.get key).isSome → i = j

theorem mem_storedPairs {p : Paralg n T} {kv : Str × T} :
    kv ∈ storedPairs p ↔ ∃ i, (p.kvm i).tblStore.get kv.1 = some kv.2 := by
  simp only [storedPairs, List.mem_flatMap, List.mem_finRange, true_and]
  exact exists_congr fun i => Dict.mem_pairs

theorem nodup_storedPairs {p : Paralg n T} (h : Sharded p) :
    ((storedPairs p).map Prod.fst).Nodup := by
  rw [storedPairs, List.map_flatMap, List.nodup_flatMap]
  refine ⟨fun i _ => Dict.pairs_nodup _, ?_⟩
  apply (List.nodup_finRange n).imp
  intro i j hij key hi hj
  rcases List.mem_map.mp hi with ⟨⟨_, v⟩, hv, rfl⟩
  rcases List.mem_map.mp hj with ⟨⟨_, w⟩, hw, rfl⟩
  exact hij (h i j _ (Option.isSome_of_mem (Dict.mem_pairs.mp hv))
    (Option.isSome_of_mem (Dict.mem_pairs.mp hw)))

/-! ### One heap through all dictionaries -/

section Topk

/-- Copying a dictionary turns the order of its entries around. -/
theorem pairs_copy (tmp : Dict Str T) :
    (Dict.pairs ((Dict.pairs tmp).foldl (fun d kv => d.insert kv.1 kv.2) (∅ : Dict Str T))).Perm
      (Dict.pairs tmp) := by
  apply (List.perm_ext_iff_of_nodup (List.Nodup.of_map _ (Dict.pairs_nodup _))
    (List.Nodup.of_map _ (Dict.pairs_nodup _))).mpr
  rintro ⟨key, v⟩
  rw [Dict.mem_pairs, Dict.mem_pairs, Kvs.lookup_foldl_insert, AList.lookup_empty, Option.or_none]

variable [LinearOrder T] {pq : PriorityQueue (minHeapCmp (T := T))}

theorem topkHandler_eq (k : Nat) (tmplst : pq.Carrier) (d : Dict Str T) :
    topkHandler pq k tmplst d = (Dict.pairs d).foldl (pq.offer k) tmplst := by
  have hbody : ∀ q kv, (if (pq.size (pq.push q kv) : Int) > k then pq.pop (pq.push q kv)
      else pq.push q kv) = pq.offer k q kv := by
    intro q kv
    rw [PriorityQueue.offer]
    simp only [gt_iff_lt, Int.ofNat_lt]
  simp only [topkHandler, hbody]

variable [Inhabited T] {lib : Libs T}

variable (lib) in
/-- After the servers `is` the heap has the largest of all their pairs. -/
theorem readallHandleFrom_topk {p : Paralg n T} {k : Nat} (is : List (Fin n)) {tmplst : pq.Carrier}
    {all : Multiset (Str × T)} (h : Largest Prod.snd k all (pq.elems tmplst)) :
    ∃ tmplst', readallHandleFrom lib (topkHandler pq k) is tmplst p = some (tmplst', p) ∧
      Largest Prod.snd k
        (all + Multiset.ofList (is.flatMap fun i => Dict.pairs (p.kvm i).tblStore.kvdct))
        (pq.elems tmplst') := by
  induction is generalizing tmplst all with
  | nil => exact ⟨tmplst, rfl, by simpa using h⟩
  | cons i is ih =>
      have hcopy := Multiset.coe_eq_coe.mpr (pairs_copy (p.kvm i).tblStore.kvdct)
      have hnext := h.foldl_offer minHeapCmp_eq
        (Dict.pairs ((Dict.pairs (p.kvm i).tblStore.kvdct).foldl
          (fun d kv => d.insert kv.1 kv.2) (∅ : Dict Str T)))
      rw [hcopy, ← topkHandler_eq] at hnext
      rcases ih hnext with ⟨tmplst', hrest, hlargest⟩
      refine ⟨tmplst', ?_, ?_⟩
      · rw [readallHandleFrom, Kvclt.pullall_eq, Kvclt.mem_pullall, Option.bind_some]
        dsimp only
        rw [setServer_self]
        exact hrest
      · rw [List.flatMap_cons, ← Multiset.coe_add, ← Multiset.add_assoc]
        exact hlargest

variable (lib pq) in
/-- The result has the largest pairs, in descending order. -/
theorem paracelReadTopk_eq (p : Paralg n T) (k : Nat) :
    ∃ result, paracelReadTopk lib pq k p = some (result, p) ∧
      Largest Prod.snd k (storedPairs p : Multiset (Str × T)) result ∧
      result.Pairwise fun a b => b.2 ≤ a.2 := by
  have hempty : Largest Prod.snd k 0 (pq.elems pq.empty) := by
    rw [pq.elems_empty]
    exact largest_zero _ k
  rcases readallHandleFrom_topk lib (p := p) (List.finRange n) hempty with
    ⟨tmplst, hread, hlargest⟩
  refine ⟨(pq.drain tmplst).reverse, ?_, ?_, ?_⟩
  · rw [paracelReadTopk, paracelReadallHandle, hread]
    rfl
  · rw [Multiset.coe_reverse, pq.coe_drain]
    rwa [Multiset.zero_add] at hlargest
  · rw [List.pairwise_reverse]
    apply (pq.pairwise_drain tmplst).imp
    intro a b hab
    exact not_lt.mp (of_decide_eq_false hab)

end Topk

/-- `paracel_read_topk` gives `k` largest pairs of distinct keys, or all pairs if there are
    fewer, in descending order of their values. The values are the first ones of all stored
    values, so they are the same for every distribution of the same pairs. -/
theorem paracel_read_topk_correct [Inhabited T] [LinearOrder T] (lib : Libs T)
    (pq : PriorityQueue (minHeapCmp (T := T))) {p : Paralg n T} (hsharded : Sharded p) (k : Nat) :
    ∃ result, paracelReadTopk lib pq k p = some (result, p) ∧
      result.length = min k (storedPairs p).length ∧
      (result.map Prod.fst).Nodup ∧
      (∀ kv ∈ result, ∃ i, (p.kvm i).tblStore.get kv.1 = some kv.2) ∧
      (result.Pairwise fun a b => b.2 ≤ a.2) ∧
      (∀ i kv, (p.kvm i).tblStore.get kv.1 = some kv.2 → kv ∉ result → ∀ r ∈ result, kv.2 ≤ r.2) ∧
      ∀ (m : Nat) (q : Paralg m T) (pq' : PriorityQueue (minHeapCmp (T := T))), Sharded q →
        (∀ kv, kv ∈ storedPairs q ↔ kv ∈ storedPairs p) →
        (paracelReadTopk lib pq' k q).map (fun r => r.1.map Prod.snd) =
          some (result.map Prod.snd) := by
  rcases paracelReadTopk_eq pq lib p k with ⟨result, hresult, hlargest, hsort⟩
  obtain ⟨hcard, rest, hall, hle⟩ := hlargest
  have hsub : result.Subperm (storedPairs p) := by
    rw [← Multiset.coe_le, hall]
    exact Multiset.le_add_right _ _
  refine ⟨result, hresult, hcard, ?_, ?_, hsort, ?_, ?_⟩
  · rcases hsub with ⟨l, hperm, hl⟩
    exact (hperm.map Prod.fst).nodup_iff.mp ((hl.map _).nodup (nodup_storedPairs hsharded))
  · exact fun kv hkv => mem_storedPairs.mp (hsub.subset hkv)
  · intro i kv hkv hnot r hr
    have hmem : kv ∈ (result : Multiset (Str × T)) + rest := by
      rw [← hall]
      exact mem_storedPairs.mpr ⟨i, hkv⟩
    exact hle kv ((Multiset.mem_add.mp hmem).resolve_left hnot) r hr
  · intro m q pq' hq hsame
    rcases paracelReadTopk_eq pq' lib q k with
      ⟨result', hresult', hlargest', hsort'⟩
    have hperm : (storedPairs q).Perm (storedPairs p) :=
      (List.perm_ext_iff_of_nodup (List.Nodup.of_map _ (nodup_storedPairs hq))
        (List.Nodup.of_map _ (nodup_storedPairs hsharded))).mpr hsame
    rw [Multiset.coe_eq_coe.mpr hperm] at hlargest'
    -- both are the first `k` of the sorted values
    let vs := Multiset.sort ((storedPairs p : Multiset (Str × T)).map Prod.snd) fun a b => b ≤ a
    have hvs : (vs : Multiset T) = (storedPairs p : Multiset (Str × T)).map Prod.snd :=
      Multiset.sort_eq _ _
    have hdesc : vs.Pairwise fun a b => b ≤ a := Multiset.pairwise_sort _ _
    rw [hresult', Option.map_some, hlargest'.map_val_eq_take rfl hsort' hvs hdesc,
      Largest.map_val_eq_take ⟨hcard, rest, hall, hle⟩ rfl hsort hvs hdesc]

/-- Three servers with a key each. -/
def numbered : Paralg 3 Int where
  sspSwitch := false
  kvm := fun i => { tblStore := Kvs.set {} (toStr i) (5 * i) }

theorem paracel_read_topk_correct_numbered :
    ∃ result, paracelReadTopk addMulLib (listQueue Prod.snd) 2 numbered =
        some (result, numbered) ∧
      result.length = 2 ∧ (result.map Prod.fst).Nodup ∧
      (∀ kv ∈ result, ∃ i, (numbered.kvm i).tblStore.get kv.1 = some kv.2) ∧
      result.Pairwise fun a b => b.2 ≤ a.2 := by
  have hkey : ∀ (i : Fin 3) key, ((numbered.kvm i).tblStore.get key).isSome →
      key = toStr i := by
    intro i key h
    by_contra hne
    rw [numbered, Kvs.get_set, if_neg hne] at h
    cases h
  have hsharded : Sharded numbered := by
    intro i j key hi hj
    have heq := (hkey i key hi).symm.trans (hkey j key hj)
    exact Fin.ext (toStr_injective heq)
  rcases paracel_read_topk_correct addMulLib (listQueue Prod.snd) hsharded 2 with
    ⟨result, hresult, hlen, hnodup, hstored, hsort, -⟩
  have hsize : (storedPairs numbered).length = 3 := by decide
  rw [hsize] at hlen
  exact ⟨result, hresult, hlen, hnodup, hstored, hsort⟩

end Paracel.Paralg
