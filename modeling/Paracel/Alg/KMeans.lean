import Mathlib.Algebra.BigOperators.Fin
import Mathlib.Algebra.BigOperators.Pi
import Mathlib.Algebra.BigOperators.Ring.Finset
import Mathlib.Algebra.BigOperators.WithTop
import Mathlib.Algebra.Field.Rat
import Mathlib.Algebra.Order.Ring.Rat
import Mathlib.Tactic.NormNum
import Paracel.Misc.Lloyd
import Paracel.Ps.Shared

/-!
# k-means

`alg/clustering/kmeans.hpp` with `dtype` `fvec`: every worker holds some rows of a
matrix. Round `rd` pulls the clusters that the round before left under a key of
its own, adds up the rows next to each of them, and has the sums, divided by how
many rows all workers found there, merged under the key of the round. `rounds`
is at least 1. Numbers are those of an ordered field. The sum of a cluster without
rows is divided by 0, which makes `NaN` of it, and the rounds go on with that.
-/

namespace Paracel.KMeans

open StepSystem MergeFold

variable {K : Type} {k d : Nat}

/-- A row of `blk_dmtx`. -/
abbrev Row (K : Type) (d : Nat) := Fin d → K

/-- The clusters, one vector for each. `NaN` is written `⊤`: in a sum it makes all of it `NaN`. -/
abbrev Clusters (K : Type) (k d : Nat) := Fin k → Fin d → WithTop K

/-- Clusters without a `NaN`. -/
def numbers (c : Fin k → Row K d) : Clusters K k d := fun j i => c j i

/-- `groups`: the ids of the rows of each cluster. -/
abbrev Groups (k : Nat) := Dict (Fin k) (List Str)

/-- What a worker has loaded: its rows with their ids in `row_map`, and the order in which
    `pnt_owner` is iterated in each round. Without rows its matrix would not have the width of the
    clusters. -/
structure Data (K : Type) (d : Nat) where
  rows : List (Str × Row K d)
  nonempty : rows ≠ []
  iter : Nat → List (Fin rows.length)
  iterates : ∀ rd, (iter rd).Perm (List.finRange rows.length)

/-- The rows in the order in which round `rd` meets them in `pnt_owner`. -/
def Data.pntOwner (data : Data K d) (rd : Nat) : List (Str × Row K d) :=
  (data.iter rd).map data.rows.get

/-- `init_clusters`: the first rows, which there must be enough of. -/
def initClusters (k : Nat) (data : Data K d) : Option (Clusters K k d) :=
  if h : k ≤ data.rows.length then
    some (numbers fun j => (data.rows.get (j.castLE h)).2)
  else none

/-- What the program keeps on the servers, packed. -/
inductive Packed (K : Type) (k d : Nat) where
  | clusters (c : Clusters K k d)
  | groups (g : Groups k)

instance instInhabitedPacked : Inhabited (Packed K k d) := ⟨.groups ∅⟩

section Worker

variable [Field K] [LinearOrder K]

/-- The `squaredNorm` of a cluster without a row. -/
def squaredNorm (clusters : Clusters K k d) (x : Row K d) (j : Fin k) : WithTop K :=
  ∑ i, (clusters j i).map fun c => (c - x i) ^ 2

/-- The cluster that `minCoeff` finds for a row: the first one, for which each later one is taken
    that has a value less than it; nothing is less than `NaN`, and `NaN` less than nothing. -/
def minCoeff (clusters : Clusters K k d) (x : Row K d) : Option (Fin k) :=
  (List.finRange k).foldl
    (List.argAux fun j res =>
      squaredNorm clusters x j < squaredNorm clusters x res ∧ squaredNorm clusters x res ≠ ⊤)
    none

/-- `cluster_cnt_map`. -/
def clusterCntMap (clusters : Clusters K k d) (pntOwner : List (Str × Row K d)) : Fin k → Nat :=
  pntOwner.foldl
    (fun cnt kv =>
      match minCoeff clusters kv.2 with
      | some indx => Function.update cnt indx (cnt indx + 1)
      | none => cnt)
    fun _ => 0

/-- `clusters_mtx_tmp`. -/
def clustersMtxTmp (clusters : Clusters K k d) (pntOwner : List (Str × Row K d)) :
    Fin k → Row K d :=
  pntOwner.foldl
    (fun tmp kv =>
      match minCoeff clusters kv.2 with
      | some indx => Function.update tmp indx fun i => tmp indx i + kv.2 i
      | none => tmp)
    fun _ _ => 0

/-- The local combine of a round, with the counts of all workers; where no worker has rows the sum
    is 0, and `0 * (1. / 0)` is `NaN`. -/
def localCombine (clusters : Clusters K k d) (pntOwner : List (Str × Row K d))
    (cntGlobal : Fin k → Nat) : Clusters K k d :=
  fun j i =>
    if cntGlobal j = 0 then ⊤
    else (clustersMtxTmp clusters pntOwner j i * (1 / (cntGlobal j : K)) : K)

/-- The loop that stores the result of the last round into `groups`. -/
def storeGroups (clusters : Clusters K k d) (pntOwner : List (Str × Row K d)) : Groups k :=
  pntOwner.foldl
    (fun groups kv =>
      match minCoeff clusters kv.2 with
      | some indx => groups.insert indx (((groups.lookup indx).getD []) ++ [kv.1])
      | none => groups)
    ∅

end Worker

/-- `local_update_kmeans_groups_stl`. -/
def localUpdateKmeansGroupsStl (a b : Groups k) : Groups k :=
  (Dict.pairs b).foldl
    (fun r kv => r.insert kv.1 (((r.lookup kv.1).getD []) ++ kv.2)) a

section Updaters

variable [Field K]

/-- `local_update_kmeans_clusters_stl`. -/
def localUpdateKmeansClustersStl (a b : Clusters K k d) : Clusters K k d :=
  fun j i => a j i + b j i

/-- The first updater on packed values; it only meets packed clusters. -/
def clustersUpdater : Packed K k d → Packed K k d → Packed K k d
  | .clusters a, .clusters b => .clusters (localUpdateKmeansClustersStl a b)
  | .clusters a, .groups _ => .clusters a
  | .groups _, b => b

end Updaters

/-- The second updater on packed values; it only meets packed groups. -/
def groupsUpdater : Packed K k d → Packed K k d → Packed K k d
  | .groups a, .groups b => .groups (localUpdateKmeansGroupsStl a b)
  | .groups a, .clusters _ => .groups a
  | .clusters _, b => b

/-- `update_funcs[0]` of `update_file`. -/
def clustersFn (updateFile : Str) : Symbol := ⟨updateFile, lit "local_update_kmeans_clusters"⟩

/-- `update_funcs[1]` of `update_file`. -/
def groupsFn (updateFile : Str) : Symbol := ⟨updateFile, lit "local_update_kmeans_groups"⟩

/-- The shared libraries, with the one of the program. -/
def kmeansLib [Field K] (updateFile : Str) (other : Libs (Packed K k d)) : Libs (Packed K k d) :=
  { other with
    update := fun func =>
      if func = clustersFn updateFile then clustersUpdater
      else if func = groupsFn updateFile then groupsUpdater
      else other.update func }

/-- `"clusters_" + std::to_string(rd)`. -/
def clustersKey (rd : Int) : Str := lit "clusters_" ++ intStr rd

/-- The key of the groups. -/
def resultKey : Str := lit "kmeans_result"

/-- Where a worker is: in `init`, before the barrier of `solve`, in the segment of a round that
    begins with its pull or with its bupdate, in the one that sends its groups, and in the one
    that pulls those of all. -/
inductive Loc (K : Type) (k d : Nat) where
  | init
  | enter
  | map (rd : Nat)
  | reduce (rd : Nat) (clusters : Clusters K k d) (delta : Clusters K k d)
  | last (groups : Groups k)
  | result (clusters : Clusters K k d)

/-- The collective operations of the program. -/
inductive Meet (k : Nat) where
  | sync
  | allreduce (clusterCntMap : Fin k → Nat)

/-- What is added to an `allreduce`. -/
def Meet.counts : Meet k → Fin k → Nat
  | .sync => fun _ => 0
  | .allreduce clusterCntMap => clusterCntMap

/-- The clusters in a reply. -/
def readClusters [Field K] (r : Option (Option (Reply (Packed K k d)))) : Clusters K k d :=
  match readVal r.join with
  | .clusters c => c
  | .groups _ => fun _ _ => 0

section Program

variable {n m : Nat} [Field K] [LinearOrder K] (updateFile : Str) (getServer : Str → Fin m)
  (rounds : Nat) (data : Fin n → Data K d)

/-- The calls that a worker makes before it next waits for the others. -/
def calls (w : Fin n) : Loc K k d → List (SrvCall m (Packed K k d))
  | .init =>
      if w.val = 0 then
        ((initClusters k (data w)).map fun c =>
          .paracelWrite getServer (clustersKey (-1)) (.clusters c)).toList
      else []
  | .enter => []
  | .map rd =>
      (if rd = 0 then paracelRegisterBupdate m (clustersFn updateFile) else []) ++
        [.paracelRead getServer (clustersKey (rd - 1))]
  | .reduce rd _ delta => [.paracelBupdate getServer (clustersKey rd) (.clusters delta) none]
  | .last groups =>
      [.paracelRead getServer (clustersKey (rounds - 1)),
        .paracelBupdate getServer resultKey (.groups groups) (some (groupsFn updateFile))]
  | .result _ => [.paracelRead getServer resultKey]

/-- The collective operation that a worker enters then. -/
def meet (w : Fin n) (l : Loc K k d) (rs : List (Option (Reply (Packed K k d)))) :
    Option (Meet k) :=
  match l with
  | .init => if w.val = 0 then (initClusters k (data w)).map fun _ => .sync else some .sync
  | .enter | .reduce _ _ _ | .last _ => some .sync
  | .map rd =>
      some (.allreduce (clusterCntMap (readClusters rs.getLast?) ((data w).pntOwner rd)))
  | .result _ => none

/-- Where it goes on. -/
def next (w : Fin n) (l : Loc K k d) (rs : List (Option (Reply (Packed K k d))))
    (c : Fin n → Meet k) : Loc K k d :=
  match l with
  | .init => .enter
  | .enter => .map 0
  | .map rd =>
      let clusters := readClusters rs.getLast?
      .reduce rd clusters
        (localCombine clusters ((data w).pntOwner rd) fun j => ∑ x, (c x).counts j)
  | .reduce rd clusters _ =>
      if rd + 1 < rounds then .map (rd + 1)
      else .last (storeGroups clusters ((data w).pntOwner rd))
  | .last _ => .result (readClusters rs.head?)
  | .result clusters => .result clusters

/-- `solve`. -/
def solve : Segments.Program n (Loc K k d) (SrvCall m (Packed K k d))
    (Option (Reply (Packed K k d))) (Meet k) where
  calls := calls updateFile getServer rounds data
  meet := meet data
  next := next rounds data
  kind
    | .sync => 0
    | .allreduce _ => 1

end Program

/-! ### One worker -/

section Local

variable [Field K] [LinearOrder K] (clusters : Clusters K k d)

omit [LinearOrder K] in
theorem squaredNorm_numbers (c : Fin k → Row K d) (x : Row K d) (j : Fin k) :
    squaredNorm (numbers c) x j = (Lloyd.sqDist x (c j) : K) := by
  rw [squaredNorm, Lloyd.sqDist, WithTop.coe_sum]
  rfl

/-- Of clusters without a `NaN` the first of the nearest ones is found. -/
theorem minCoeff_numbers (c : Fin k → Row K d) (x : Row K d) :
    minCoeff (numbers c) x = Lloyd.owner c x := by
  have hless : ∀ j res : Fin k,
      squaredNorm (numbers c) x j < squaredNorm (numbers c) x res ∧
          squaredNorm (numbers c) x res ≠ ⊤ ↔
        Lloyd.sqDist x (c j) < Lloyd.sqDist x (c res) := by
    intro j res
    rw [squaredNorm_numbers, squaredNorm_numbers, WithTop.coe_lt_coe]
    exact and_iff_left WithTop.coe_ne_top
  rw [minCoeff, Lloyd.owner, List.argmin]
  congr 1
  funext best j
  cases best with
  | none => rfl
  | some res => simp only [List.argAux, hless]

/-- Where there are clusters, one is found. -/
theorem exists_minCoeff (hk : 0 < k) (x : Row K d) : ∃ j, minCoeff clusters x = some j := by
  rw [← Option.ne_none_iff_exists', minCoeff, Ne, List.foldl_argAux_eq_none, not_and_or]
  exact .inl (List.ne_nil_of_mem (List.mem_finRange ⟨0, hk⟩))

/-- The rows that belong to cluster `j`. -/
def members (j : Fin k) (xs : List (Row K d)) : List (Row K d) :=
  xs.filter fun x => minCoeff clusters x = some j

theorem members_numbers (c : Fin k → Row K d) (j : Fin k) (xs : List (Row K d)) :
    members (numbers c) j xs = Lloyd.members c j xs := by
  simp only [members, Lloyd.members, minCoeff_numbers]

theorem clusterCntMap_eq (xs : List (Str × Row K d)) (j : Fin k) :
    clusterCntMap clusters xs j = (members clusters j (xs.map Prod.snd)).length := by
  have hfold : ∀ (xs : List (Str × Row K d)) (cnt : Fin k → Nat),
      xs.foldl (fun cnt kv =>
        match minCoeff clusters kv.2 with
        | some indx => Function.update cnt indx (cnt indx + 1)
        | none => cnt) cnt j =
      cnt j + (members clusters j (xs.map Prod.snd)).length := by
    intro xs
    induction xs with
    | nil => exact fun cnt => rfl
    | cons x xs ih =>
        intro cnt
        rw [List.foldl_cons, ih]
        cases hx : minCoeff clusters x.2 with
        | none => simp [members, hx]
        | some indx =>
            by_cases hj : indx = j
            · subst hj
              simp [members, hx]
              omega
            · simp [members, hx, hj, Function.update_of_ne (Ne.symm hj)]
  rw [clusterCntMap, hfold, Nat.zero_add]

theorem clustersMtxTmp_eq (xs : List (Str × Row K d)) (j : Fin k) :
    clustersMtxTmp clusters xs j = (members clusters j (xs.map Prod.snd)).sum := by
  have hfold : ∀ (xs : List (Str × Row K d)) (tmp : Fin k → Row K d),
      xs.foldl (fun tmp kv =>
        match minCoeff clusters kv.2 with
        | some indx => Function.update tmp indx fun i => tmp indx i + kv.2 i
        | none => tmp) tmp j =
      tmp j + (members clusters j (xs.map Prod.snd)).sum := by
    intro xs
    induction xs with
    | nil => simp [members]
    | cons x xs ih =>
        intro tmp
        rw [List.foldl_cons, ih]
        cases hx : minCoeff clusters x.2 with
        | none => simp [members, hx]
        | some indx =>
            by_cases hj : indx = j
            · subst hj
              funext i
              simp [members, hx, add_assoc]
            · simp [members, hx, hj, Function.update_of_ne (Ne.symm hj)]
  rw [clustersMtxTmp, hfold]
  exact zero_add _

/-- The ids of the rows that belong to cluster `j`. -/
def idsOf (j : Fin k) (xs : List (Str × Row K d)) : List Str :=
  (xs.filter fun kv => minCoeff clusters kv.2 = some j).map Prod.fst

theorem lookup_storeGroups (xs : List (Str × Row K d)) (j : Fin k) :
    ((storeGroups clusters xs).lookup j).getD [] = idsOf clusters j xs := by
  have hfold : ∀ (xs : List (Str × Row K d)) (groups : Groups k),
      ((xs.foldl (fun groups kv =>
        match minCoeff clusters kv.2 with
        | some indx => groups.insert indx (((groups.lookup indx).getD []) ++ [kv.1])
        | none => groups) groups).lookup j).getD [] =
      ((groups.lookup j).getD []) ++ idsOf clusters j xs := by
    intro xs
    induction xs with
    | nil => simp [idsOf]
    | cons x xs ih =>
        intro groups
        rw [List.foldl_cons, ih]
        cases hx : minCoeff clusters x.2 with
        | none => simp [idsOf, hx]
        | some indx =>
            by_cases hj : indx = j
            · subst hj
              simp [idsOf, hx]
            · simp [idsOf, hx, hj, AList.lookup_insert_ne (Ne.symm hj)]
  rw [storeGroups, hfold, AList.lookup_empty]
  rfl

end Local

/-- Merging two groups puts the ids of each cluster together. -/
theorem lookup_localUpdateKmeansGroups (a b : Groups k) (j : Fin k) :
    ((localUpdateKmeansGroupsStl a b).lookup j).getD [] =
      ((a.lookup j).getD []) ++ ((b.lookup j).getD []) := by
  have hfold : ∀ (kvs : List (Fin k × List Str)) (r : Groups k), (kvs.map Prod.fst).Nodup →
      ((kvs.foldl (fun r kv => r.insert kv.1 (((r.lookup kv.1).getD []) ++ kv.2)) r).lookup
        j).getD [] =
      ((r.lookup j).getD []) ++ (((kvs.find? fun kv => kv.1 = j).map Prod.snd).getD []) := by
    intro kvs
    induction kvs with
    | nil => simp
    | cons kv kvs ih =>
        intro r hnodup
        rw [List.map_cons, List.nodup_cons] at hnodup
        rw [List.foldl_cons, ih _ hnodup.2]
        by_cases hj : kv.1 = j
        · subst hj
          have hrest : (kvs.find? fun kv' => kv'.1 = kv.1) = none := by
            rw [List.find?_eq_none]
            intro kv' hmem heq
            exact hnodup.1 (List.mem_map.mpr ⟨kv', hmem, by simpa using heq⟩)
          simp [hrest]
        · simp [hj, AList.lookup_insert_ne (Ne.symm hj)]
  rw [localUpdateKmeansGroupsStl, hfold _ _ (Dict.pairs_nodup b), Kvs.find?_pairs]

/-! ### All workers together -/

section Together

variable {n : Nat} [Field K] [LinearOrder K] (data : Fin n → Data K d)

/-- The rows of all workers. -/
def pooled : List (Str × Row K d) := (List.finRange n).flatMap fun w => (data w).rows

/-- The rows of all workers, without their ids. -/
def points : List (Row K d) := (pooled data).map Prod.snd

/-- A round on some rows: every cluster moves to the mean of its rows, and is `NaN` if it has
    none. -/
def step (xs : List (Row K d)) (clusters : Clusters K k d) : Clusters K k d :=
  fun j i =>
    if members clusters j xs = [] then ⊤ else (Lloyd.mean (members clusters j xs) i : K)

/-- The clusters after `rd` rounds on the rows of all workers. -/
def centersAfter (c0 : Fin k → Row K d) (rd : Nat) : Clusters K k d :=
  (step (points data))^[rd] (numbers c0)

theorem centersAfter_succ (c0 : Fin k → Row K d) (rd : Nat) :
    centersAfter data c0 (rd + 1) = step (points data) (centersAfter data c0 rd) :=
  Function.iterate_succ_apply' _ _ _

/-- The clusters after `rd` steps of Lloyd's algorithm on the rows of all workers. -/
def lloydAfter (c0 : Fin k → Row K d) (rd : Nat) : Fin k → Row K d :=
  (Lloyd.step (points data))^[rd] c0

/-- No cluster loses all its rows in `rounds` of these steps. -/
def Filled (c0 : Fin k → Row K d) (rounds : Nat) : Prop :=
  ∀ r < rounds, ∀ j, Lloyd.members (lloydAfter data c0 r) j (points data) ≠ []

/-- Where no cluster is without rows, a round is a step of Lloyd's algorithm. -/
theorem step_numbers {c : Fin k → Row K d} {xs : List (Row K d)}
    (h : ∀ j, Lloyd.members c j xs ≠ []) : step xs (numbers c) = numbers (Lloyd.step xs c) := by
  funext j i
  rw [step, members_numbers, if_neg (h j)]
  rfl

/-- As long as no cluster loses all its rows, the rounds are steps of Lloyd's algorithm. -/
theorem centersAfter_eq {c0 : Fin k → Row K d} {rd : Nat} (h : Filled data c0 rd) :
    centersAfter data c0 rd = numbers (lloydAfter data c0 rd) := by
  induction rd with
  | zero => rfl
  | succ rd ih =>
      rw [centersAfter_succ, ih fun r hr => h r (Nat.lt_succ_of_lt hr),
        step_numbers (h rd (Nat.lt_succ_self rd)), lloydAfter, lloydAfter,
        Function.iterate_succ_apply']

omit [Field K] [LinearOrder K] in
theorem pntOwner_perm (x : Data K d) (rd : Nat) : (x.pntOwner rd).Perm x.rows := by
  have hperm := (x.iterates rd).map x.rows.get
  rwa [List.map_get_finRange] at hperm

theorem members_points (clusters : Clusters K k d) (j : Fin k) :
    members clusters j (points data) =
      (List.finRange n).flatMap fun w =>
        members clusters j ((data w).rows.map Prod.snd) := by
  rw [points, pooled, List.map_flatMap, members, List.filter_flatMap]
  rfl

theorem members_pntOwner (clusters : Clusters K k d) (j : Fin k) (x : Data K d) (rd : Nat) :
    (members clusters j ((x.pntOwner rd).map Prod.snd)).Perm
      (members clusters j (x.rows.map Prod.snd)) :=
  ((pntOwner_perm x rd).map Prod.snd).filter _

/-- What `allreduce` makes of the counts: how many of all rows belong to a cluster. -/
theorem sum_clusterCntMap (clusters : Clusters K k d) (rd : Nat) (j : Fin k) :
    ∑ w, clusterCntMap clusters ((data w).pntOwner rd) j =
      (members clusters j (points data)).length := by
  rw [members_points, List.length_flatMap, Fin.sum_univ_def]
  congr 1
  apply List.map_congr_left
  intro w _
  rw [clusterCntMap_eq, (members_pntOwner clusters j (data w) rd).length_eq]

/-- The combines of all workers add up to a round on the rows of all. -/
theorem sum_localCombine (hn : 0 < n) (clusters : Clusters K k d) (rd : Nat) :
    ∑ w, localCombine clusters ((data w).pntOwner rd)
        (fun j => ∑ w, clusterCntMap clusters ((data w).pntOwner rd) j) =
      step (points data) clusters := by
  have hsum : ∀ (ws : List (Fin n)) (f : Fin n → List (Row K d)),
      (ws.flatMap f).sum = (ws.map fun w => (f w).sum).sum := by
    intro ws f
    induction ws with
    | nil => rfl
    | cons w ws ih => rw [List.flatMap_cons, List.sum_append, ih, List.map_cons, List.sum_cons]
  funext j i
  have htmp : ∀ w, clustersMtxTmp clusters ((data w).pntOwner rd) j =
      (members clusters j ((data w).rows.map Prod.snd)).sum := by
    intro w
    rw [clustersMtxTmp_eq, (members_pntOwner clusters j (data w) rd).sum_eq]
  simp only [Finset.sum_apply, localCombine, sum_clusterCntMap, htmp, step, List.length_eq_zero_iff]
  by_cases hnone : members clusters j (points data) = []
  · simp only [if_pos hnone]
    exact WithTop.sum_eq_top.mpr ⟨⟨0, hn⟩, Finset.mem_univ _, rfl⟩
  · simp only [if_neg hnone]
    rw [← WithTop.coe_sum, ← Finset.sum_mul, Lloyd.mean, members_points data clusters j, hsum,
      ← Fin.sum_univ_def, Finset.sum_apply]

end Together

/-! ### What the servers hold -/

theorem clustersKey_inj {a b : Int} : clustersKey a = clustersKey b ↔ a = b := by
  constructor
  · intro h
    exact intStr_injective (List.append_cancel_left h)
  · intro h
    rw [h]

theorem resultKey_ne (rd : Int) : resultKey ≠ clustersKey rd := by
  intro h
  have hhead : some (107 : UInt8) = some 99 := congrArg List.head? h
  exact absurd hhead (by decide)

section Servers

variable {n m : Nat} [Field K] [LinearOrder K] {data : Fin n → Data K d}
  {c0 : Fin k → Row K d}
  {updateFile : Str} {getServer : Str → Fin m} {rounds : Nat} {other : Libs (Packed K k d)}
  {servers servers' : Servers m (Packed K k d)} {loc : Fin n → Loc K k d}
  {log : List (Fin n × SrvCall m (Packed K k d))}

/-- The servers once `rd` rounds are over: the clusters of every round so far under its own key,
    and nothing under the keys of later rounds. -/
structure Holds (data : Fin n → Data K d) (c0 : Fin k → Row K d) (getServer : Str → Fin m)
    (servers : Servers m (Packed K k d)) (rd : Nat) : Prop where
  centers : ∀ r : Nat, r ≤ rd → servers.value getServer (clustersKey (r - 1)) =
    some (.clusters (centersAfter data c0 r))
  fresh : ∀ r : Nat, rd ≤ r → servers.value getServer (clustersKey r) = none
  result : servers.value getServer resultKey = none

theorem Holds.congr {rd : Nat} (h : Holds data c0 getServer servers rd)
    (hvalue : ∀ key, servers'.value getServer key = servers.value getServer key) :
    Holds data c0 getServer servers' rd where
  centers := fun r hr => (hvalue _).trans (h.centers r hr)
  fresh := fun r hr => (hvalue _).trans (h.fresh r hr)
  result := (hvalue _).trans h.result

/-- `init` leaves the first clusters and nothing else. -/
theorem after_init (hn : 0 < n) (h0 : initClusters k (data ⟨0, hn⟩) = some (numbers c0))
    (hlogs : (⟨fun _ => .init, fun _ => {}⟩ :
      Segments.Config n (Loc K k d) (Servers m (Packed K k d))).Logs
      (solve updateFile getServer rounds data) log) :
    Holds data c0 getServer (Spmd.replay (Servers.handle (kmeansLib updateFile other))
      (fun _ => {}) (log.map Prod.snd)) 0 := by
  have hcalls : ∀ w : Fin n, calls updateFile getServer rounds data w (.init : Loc K k d) =
      if w.val = 0 then [.paracelWrite getServer (clustersKey (-1)) (.clusters (numbers c0))]
      else [] := by
    intro w
    by_cases hw : w.val = 0
    · obtain rfl : w = ⟨0, hn⟩ := Fin.ext hw
      simp [calls, h0]
    · simp [calls, hw]
  have hlog : ∀ c ∈ log.map Prod.snd,
      c = .paracelWrite getServer (clustersKey (-1)) (.clusters (numbers c0)) := by
    intro c hc
    obtain ⟨e, he, rfl⟩ := List.mem_map.mp hc
    have hmem : e.2 ∈ calls updateFile getServer rounds data e.1 .init := hlogs.mem he
    rw [hcalls] at hmem
    by_cases hw : e.1.val = 0
    · rw [if_pos hw] at hmem
      exact List.mem_singleton.mp hmem
    · rw [if_neg hw] at hmem
      cases hmem
  have hfirst : (.paracelWrite getServer (clustersKey (-1)) (.clusters (numbers c0))) ∈
      log.map Prod.snd := by
    have hw : Spmd.callsOf ⟨0, hn⟩ log = calls updateFile getServer rounds data ⟨0, hn⟩ .init :=
      hlogs ⟨0, hn⟩
    rw [hcalls, if_pos rfl] at hw
    have hin := Segments.mem_of_mem_callsOf (hw ▸ List.mem_singleton_self _)
    exact List.mem_map.mpr ⟨_, hin, rfl⟩
  have hother : ∀ key, key ≠ clustersKey (-1) →
      (Spmd.replay (Servers.handle (kmeansLib updateFile other)) (fun _ => {})
        (log.map Prod.snd)).value getServer key = none := by
    intro key hkey
    apply Segments.replay_invariant
      (P := fun s : Servers m (Packed K k d) => s.value getServer key = none)
    · intro c hc s hs
      rw [hlog c hc, Servers.value_write, if_neg hkey, hs]
    · rfl
  constructor
  · intro r hr
    obtain rfl : r = 0 := Nat.le_zero.mp hr
    apply Segments.replay_of_mem hfirst (P := fun s : Servers m (Packed K k d) =>
      s.value getServer (clustersKey (-1)) = some (.clusters (numbers c0)))
    · intro s
      rw [Servers.value_write, if_pos rfl]
    · intro c hc s hs
      rw [hlog c hc, Servers.value_write, if_pos rfl]
  · intro r _
    apply hother
    rw [Ne, clustersKey_inj]
    omega
  · exact hother _ (resultKey_ne _)

omit [Field K] [LinearOrder K] in
/-- The calls that pull the clusters of a round, one by one. -/
theorem mem_calls_map {w : Fin n} {rd : Nat} {c : SrvCall m (Packed K k d)}
    (h : c ∈ calls updateFile getServer rounds data w (.map rd)) :
    (∃ i, c = ⟨i, .registerBupdate (clustersFn updateFile)⟩) ∨
      c = .paracelRead getServer (clustersKey (rd - 1)) := by
  rcases List.mem_append.mp h with h | h
  · by_cases hrd : rd = 0
    · rw [if_pos hrd] at h
      obtain ⟨i, -, rfl⟩ := List.mem_map.mp h
      exact .inl ⟨i, rfl⟩
    · rw [if_neg hrd] at h
      cases h
  · exact .inr (List.mem_singleton.mp h)

omit [Field K] [LinearOrder K] in
theorem quiet_of_mem_calls_map {w : Fin n} {rd : Nat} {c : SrvCall m (Packed K k d)}
    (h : c ∈ calls updateFile getServer rounds data w (.map rd)) : c.req.quiet := by
  rcases mem_calls_map h with ⟨i, rfl⟩ | rfl <;> rfl

/-- Behind a segment of pulls the updater is in force on all servers: the first such segment
    registers it, and the others leave it. -/
theorem updater_map (other : Libs (Packed K k d)) (hn : 0 < n) {rd : Nat}
    (hupdater : rd = 0 ∨
      ∀ i, Servers.updater (kmeansLib updateFile other) servers i = clustersUpdater)
    (hlogs : (⟨fun _ => .map rd, servers⟩ : Segments.Config n (Loc K k d) _).Logs
      (solve updateFile getServer rounds data) log) (i : Fin m) :
    Servers.updater (kmeansLib updateFile other) (Spmd.replay
      (Servers.handle (kmeansLib updateFile other)) servers (log.map Prod.snd)) i =
        clustersUpdater := by
  have hcalls : ∀ e ∈ log, e.2 ∈ calls updateFile getServer rounds data e.1 (.map rd) :=
    fun e he => hlogs.mem he
  have hkeep : ∀ c ∈ log.map Prod.snd, ∀ s,
      Servers.updater (kmeansLib updateFile other) s i = clustersUpdater →
      Servers.updater (kmeansLib updateFile other)
        (Servers.handle (kmeansLib updateFile other) s c).2 i = clustersUpdater := by
    intro c hc s hs
    obtain ⟨e, he, rfl⟩ := List.mem_map.mp hc
    rcases mem_calls_map (hcalls e he) with ⟨j, hj⟩ | hread
    · rw [hj, Servers.updater_register]
      split
      · simp [kmeansLib]
      · exact hs
    · rw [hread, Servers.handle_read_snd]
      exact hs
  rcases hupdater with hrd | hforce
  · subst hrd
    have hreg : (⟨i, .registerBupdate (clustersFn updateFile)⟩ : SrvCall m (Packed K k d)) ∈
        log.map Prod.snd := by
      have hw : Spmd.callsOf ⟨0, hn⟩ log =
          calls updateFile getServer rounds data ⟨0, hn⟩ (.map 0) := hlogs ⟨0, hn⟩
      have hin : ⟨i, .registerBupdate (clustersFn updateFile)⟩ ∈ Spmd.callsOf ⟨0, hn⟩ log := by
        rw [hw]
        simp [calls, paracelRegisterBupdate]
      exact List.mem_map.mpr ⟨_, Segments.mem_of_mem_callsOf hin, rfl⟩
    apply Segments.replay_of_mem hreg _ hkeep
    intro s
    rw [Servers.updater_register, if_pos rfl]
    simp [kmeansLib]
  · exact Segments.replay_invariant hkeep (hforce i)

/-- A segment of pulls: every worker has the clusters of the round before. -/
theorem after_map (other : Libs (Packed K k d)) {rd : Nat}
    (h : Holds data c0 getServer servers rd)
    (hlogs : (⟨fun _ => .map rd, servers⟩ : Segments.Config n (Loc K k d) _).Logs
      (solve updateFile getServer rounds data) log) :
    Holds data c0 getServer (Spmd.replay (Servers.handle (kmeansLib updateFile other)) servers
        (log.map Prod.snd)) rd ∧
      ∀ w, readClusters (Segments.repliesOf (Servers.handle (kmeansLib updateFile other)) w servers
        log).getLast? = centersAfter data c0 rd := by
  have hcalls : ∀ e ∈ log, e.2 ∈ calls updateFile getServer rounds data e.1 (.map rd) :=
    fun e he => hlogs.mem he
  have hquiet : ∀ pre : List (Fin n × SrvCall m (Packed K k d)), (∀ e ∈ pre, e ∈ log) →
      ∀ key, (Spmd.replay (Servers.handle (kmeansLib updateFile other)) servers
        (pre.map Prod.snd)).value getServer key = servers.value getServer key := by
    intro pre hsub
    apply Servers.value_replay_quiet
    intro c hc
    obtain ⟨e, he, rfl⟩ := List.mem_map.mp hc
    exact quiet_of_mem_calls_map (hcalls e (hsub e he))
  refine ⟨h.congr (hquiet log fun e he => he), fun w => ?_⟩
  have hw : Spmd.callsOf w log =
      (if rd = 0 then paracelRegisterBupdate m (clustersFn updateFile) else []) ++
        [.paracelRead getServer (clustersKey (rd - 1))] := hlogs w
  obtain ⟨pre, post, hlog, -, hlast⟩ := Segments.exists_last_reply
    (Servers.handle (kmeansLib updateFile other)) servers hw
  have hpre := hquiet pre fun e he => by
    rw [hlog]
    exact List.mem_append_left _ he
  rw [hlast, readClusters, Option.join_some, Servers.readVal_read, hpre, h.centers rd le_rfl]
  rfl

/-- Packed clusters. -/
def Packed.toClusters : Packed K k d → Option (Clusters K k d)
  | .clusters c => some c
  | .groups _ => none

omit [LinearOrder K] in
theorem toClusters_updater (a b : Packed K k d) :
    (clustersUpdater a b).toClusters = Option.merge (· + ·) a.toClusters b.toClusters := by
  cases a <;> cases b <;> rfl

omit [Field K] [LinearOrder K] in
theorem Packed.of_toClusters {v : Option (Packed K k d)} {c : Clusters K k d}
    (h : v.bind Packed.toClusters = some c) : v = some (.clusters c) := by
  obtain ⟨a, rfl, ha⟩ := Option.bind_eq_some_iff.mp h
  cases a with
  | clusters c' =>
      cases ha
      rfl
  | groups g => cases ha

omit [LinearOrder K] in
/-- The clusters of all workers, merged in any order. -/
theorem mergeAll_clusters (hn : 0 < n) {delta : Fin n → Clusters K k d} {ds : List (Packed K k d)}
    (hds : ds.Perm ((List.finRange n).map fun w => .clusters (delta w))) :
    mergeAll clustersUpdater none ds = some (.clusters (∑ w, delta w)) := by
  have hdeltas : (ds.filterMap Packed.toClusters).Perm ((List.finRange n).map delta) := by
    refine (hds.filterMap _).trans (.of_eq ?_)
    rw [List.filterMap_map, ← List.filterMap_eq_map]
    rfl
  have hne : ds.filterMap Packed.toClusters ≠ [] := by
    intro hnil
    have hzero := hdeltas.length_eq
    rw [hnil, List.length_map, List.length_finRange] at hzero
    exact absurd hzero hn.ne
  apply Packed.of_toClusters
  rw [mergeAll_bind toClusters_updater, Option.bind_none, mergeAll_add, if_neg hne,
    hdeltas.sum_eq, ← Fin.sum_univ_def]

omit [LinearOrder K] in
/-- The bupdates of a round touch no other key. -/
theorem value_calls_reduce {rd : Nat}
    (hupdater : ∀ i, Servers.updater (kmeansLib updateFile other) servers i = clustersUpdater)
    (h : ∀ e ∈ log, ∃ v, e.2 = .paracelBupdate getServer (clustersKey rd) v none) {key : Str}
    (hkey : key ≠ clustersKey rd) :
    (Spmd.replay (Servers.handle (kmeansLib updateFile other)) servers
      (log.map Prod.snd)).value getServer key = servers.value getServer key := by
  apply Servers.value_replay_other (f := clustersUpdater)
  · intro c hc
    obtain ⟨e, he, rfl⟩ := List.mem_map.mp hc
    obtain ⟨v, hv⟩ := h e he
    rw [hv]
    exact merges_bupdate hupdater _ v
  · intro c hc p hp
    obtain ⟨e, he, rfl⟩ := List.mem_map.mp hc
    obtain ⟨v, hv⟩ := h e he
    rw [hv] at hp
    rw [List.mem_singleton.mp hp]
    exact Ne.symm hkey

/-- A segment of bupdates: the deltas of all workers are added up under the key of the round. -/
theorem after_reduce (other : Libs (Packed K k d)) (hn : 0 < n) {rd : Nat}
    {clusters : Clusters K k d} {delta : Fin n → Clusters K k d}
    (h : Holds data c0 getServer servers rd)
    (hupdater : ∀ i, Servers.updater (kmeansLib updateFile other) servers i = clustersUpdater)
    (hdelta : ∑ w, delta w = centersAfter data c0 (rd + 1))
    (hlogs : (⟨fun w => .reduce rd clusters (delta w), servers⟩ :
      Segments.Config n (Loc K k d) _).Logs (solve updateFile getServer rounds data) log) :
    Holds data c0 getServer (Spmd.replay (Servers.handle (kmeansLib updateFile other)) servers
        (log.map Prod.snd)) (rd + 1) ∧
      ∀ i, Servers.updater (kmeansLib updateFile other) (Spmd.replay
        (Servers.handle (kmeansLib updateFile other)) servers (log.map Prod.snd)) i =
          clustersUpdater := by
  have hcalls : ∀ e ∈ log, e.2 =
      .paracelBupdate getServer (clustersKey rd) (.clusters (delta e.1)) none :=
    fun e he => List.mem_singleton.mp (hlogs.mem he)
  have hmerges := Servers.of_merges (kmeansLib updateFile other) (f := clustersUpdater)
    hlogs (by
      intro w c hc
      rw [List.mem_singleton.mp hc]
      exact merges_bupdate hupdater _ _)
  have hother : ∀ key, key ≠ clustersKey rd →
      (Spmd.replay (Servers.handle (kmeansLib updateFile other)) servers
        (log.map Prod.snd)).value getServer key = servers.value getServer key :=
    fun key hkey => value_calls_reduce hupdater (fun e he => ⟨_, hcalls e he⟩) hkey
  have hown : (Spmd.replay (Servers.handle (kmeansLib updateFile other)) servers
      (log.map Prod.snd)).value getServer (clustersKey rd) =
      some (.clusters (centersAfter data c0 (rd + 1))) := by
    obtain ⟨ds, hperm, hvalue⟩ := hmerges (clustersKey rd)
    have hds : ds.Perm ((List.finRange n).map fun w => .clusters (delta w)) := by
      refine hperm.trans (.of_eq ?_)
      rw [List.map_eq_flatMap]
      apply List.flatMap_congr
      intro w _
      simp [solve, calls, SrvCall.paracelBupdate, Request.pairs, deltasOf_cons]
    rw [h.fresh rd le_rfl, mergeAll_clusters hn hds, hdelta] at hvalue
    exact hvalue
  refine ⟨?_, ?_⟩
  · constructor
    · intro r hr
      by_cases hlast : r = rd + 1
      · subst hlast
        rw [show ((rd + 1 : Nat) : Int) - 1 = (rd : Int) by omega]
        exact hown
      · rw [hother _ fun hkey => by
          have := clustersKey_inj.mp hkey
          omega]
        exact h.centers r (by omega)
    · intro r hr
      rw [hother _ fun hkey => by
        have := clustersKey_inj.mp hkey
        omega]
      exact h.fresh r (by omega)
    · rw [hother _ (resultKey_ne rd)]
      exact h.result
  · intro i
    apply Segments.replay_invariant (P := fun s =>
      Servers.updater (kmeansLib updateFile other) s i = clustersUpdater) _ (hupdater i)
    intro c hc s hs
    obtain ⟨e, he, rfl⟩ := List.mem_map.mp hc
    rw [hcalls e he, Servers.updater_bupdate]
    exact hs

/-- The ids of a cluster in packed groups. -/
def Packed.ids (j : Fin k) : Packed K k d → Option (List Str)
  | .clusters _ => none
  | .groups g => some ((g.lookup j).getD [])

omit [Field K] [LinearOrder K] in
theorem ids_updater (j : Fin k) (a b : Packed K k d) :
    (groupsUpdater a b).ids j = Option.merge (· ++ ·) (a.ids j) (b.ids j) := by
  cases a with
  | clusters a => cases b <;> rfl
  | groups a =>
      cases b with
      | clusters b => rfl
      | groups b =>
          exact congrArg some (lookup_localUpdateKmeansGroups a b j)

omit [Field K] [LinearOrder K] in
/-- Groups merged with groups are groups. -/
theorem exists_mergeAll_groups {ds : List (Packed K k d)} (hds : ∀ v ∈ ds, ∃ g, v = .groups g)
    (g : Groups k) : ∃ g', mergeAll groupsUpdater (some (.groups g)) ds = some (.groups g') := by
  induction ds generalizing g with
  | nil => exact ⟨g, rfl⟩
  | cons v ds ih =>
      obtain ⟨b, rfl⟩ := hds _ List.mem_cons_self
      exact ih (fun v hv => hds v (List.mem_cons_of_mem _ hv)) _

omit [Field K] [LinearOrder K] in
/-- The groups of all workers, merged in any order. -/
theorem mergeAll_groups (hn : 0 < n) {groups : Fin n → Groups k} {ds : List (Packed K k d)}
    (hds : ds.Perm ((List.finRange n).map fun w => .groups (groups w))) :
    ∃ g, mergeAll groupsUpdater none ds = some (.groups g) ∧
      ∀ j, ((g.lookup j).getD []).Perm
        ((List.finRange n).flatMap fun w => ((groups w).lookup j).getD []) := by
  have hmem : ∀ v ∈ ds, ∃ g, v = .groups g := by
    intro v hv
    obtain ⟨w, -, rfl⟩ := List.mem_map.mp (hds.mem_iff.mp hv)
    exact ⟨_, rfl⟩
  have hg : ∃ g, mergeAll groupsUpdater none ds = some (.groups g) := by
    cases ds with
    | nil =>
        have hzero := hds.length_eq
        rw [List.length_map, List.length_finRange] at hzero
        exact absurd hzero hn.ne
    | cons v ds =>
        obtain ⟨g, rfl⟩ := hmem _ List.mem_cons_self
        exact exists_mergeAll_groups (fun v hv => hmem v (List.mem_cons_of_mem _ hv)) g
  obtain ⟨g, hg⟩ := hg
  refine ⟨g, hg, fun j => ?_⟩
  have hids : (ds.filterMap (Packed.ids j)).Perm
      ((List.finRange n).map fun w => ((groups w).lookup j).getD []) := by
    refine (hds.filterMap _).trans (.of_eq ?_)
    rw [List.filterMap_map, ← List.filterMap_eq_map]
    rfl
  have hne : ds.filterMap (Packed.ids j) ≠ [] := by
    intro hnil
    have hzero := hids.length_eq
    rw [hnil, List.length_map, List.length_finRange] at hzero
    exact absurd hzero hn.ne
  have hj := mergeAll_bind (ids_updater (K := K) (d := d) j) none ds
  rw [hg, Option.bind_none, mergeAll_flatten, if_neg hne, Option.bind_some, Packed.ids,
    Option.some.injEq] at hj
  rw [hj, List.flatMap_def]
  exact hids.flatten

omit [LinearOrder K] in
/-- The request of the last segment that sends the groups of a worker. -/
theorem merges_groups (groups : Groups k) :
    (SrvCall.paracelBupdate getServer resultKey (.groups groups)
      (some (groupsFn updateFile))).Merges (kmeansLib (K := K) (d := d) updateFile other)
      groupsUpdater getServer servers where
  placed := by
    intro p hp
    rw [List.mem_singleton.mp hp]
    rfl
  applied := by
    intro i _
    have hne : groupsFn updateFile ≠ clustersFn updateFile := by
      intro h
      have hfcn : lit "local_update_kmeans_groups" = lit "local_update_kmeans_clusters" :=
        congrArg Symbol.fcn h
      exact absurd hfcn (by decide)
    show (kmeansLib updateFile other).update (groupsFn updateFile) = groupsUpdater
    simp [kmeansLib, hne]
  quiet := .inl trivial

omit [LinearOrder K] in
/-- The calls that send groups touch no other key. -/
theorem value_calls_last (data : Fin n → Data K d) (groups : Fin n → Groups k)
    (h : ∀ e ∈ log, e.2 ∈ calls updateFile getServer rounds data e.1 (.last (groups e.1)))
    {key : Str} (hkey : key ≠ resultKey) :
    (Spmd.replay (Servers.handle (kmeansLib updateFile other)) servers
      (log.map Prod.snd)).value getServer key = servers.value getServer key := by
  have hcall : ∀ c ∈ log.map Prod.snd, c.Merges (kmeansLib updateFile other) groupsUpdater
      getServer servers ∧ ∀ p ∈ c.req.pairs, p.1 = resultKey := by
    intro c hc
    obtain ⟨e, he, rfl⟩ := List.mem_map.mp hc
    rcases List.mem_cons.mp (h e he) with hread | hmem
    · rw [hread]
      exact ⟨merges_read _, by simp [SrvCall.paracelRead, Request.pairs]⟩
    · rw [List.mem_singleton.mp hmem]
      exact ⟨merges_groups _, by simp [SrvCall.paracelBupdate, Request.pairs]⟩
  apply Servers.value_replay_other fun c hc => (hcall c hc).1
  intro c hc p hp heq
  exact hkey (heq ▸ (hcall c hc).2 p hp)

/-- A segment that sends groups: the clusters stay, every worker has those of the last round, and
    the ids of each cluster are put together. -/
theorem after_last (other : Libs (Packed K k d)) (hn : 0 < n) {groups : Fin n → Groups k}
    (h : Holds data c0 getServer servers rounds)
    (hlogs : (⟨fun w => .last (groups w), servers⟩ : Segments.Config n (Loc K k d) _).Logs
      (solve updateFile getServer rounds data) log) :
    (∀ key, key ≠ resultKey → (Spmd.replay (Servers.handle (kmeansLib updateFile other)) servers
        (log.map Prod.snd)).value getServer key = servers.value getServer key) ∧
      (∀ w, readClusters (Segments.repliesOf (Servers.handle (kmeansLib updateFile other)) w
        servers log).head? = centersAfter data c0 rounds) ∧
      ∃ g, (Spmd.replay (Servers.handle (kmeansLib updateFile other)) servers
          (log.map Prod.snd)).value getServer resultKey = some (.groups g) ∧
        ∀ j, ((g.lookup j).getD []).Perm
          ((List.finRange n).flatMap fun w => ((groups w).lookup j).getD []) := by
  have hother : ∀ pre : List (Fin n × SrvCall m (Packed K k d)), (∀ e ∈ pre, e ∈ log) →
      ∀ key, key ≠ resultKey → (Spmd.replay (Servers.handle (kmeansLib updateFile other)) servers
        (pre.map Prod.snd)).value getServer key = servers.value getServer key := by
    intro pre hsub key hkey
    exact value_calls_last data groups (fun e he => hlogs.mem (hsub e he)) hkey
  refine ⟨hother log fun e he => he, ?_, ?_⟩
  · intro w
    have hw : Spmd.callsOf w log = [] ++ .paracelRead getServer (clustersKey (rounds - 1)) ::
        [.paracelBupdate getServer resultKey (.groups (groups w))
          (some (groupsFn updateFile))] := hlogs w
    obtain ⟨pre, post, hlog, -, hreply⟩ := Segments.exists_reply
      (Servers.handle (kmeansLib updateFile other)) servers hw
    have hpre := hother pre (fun e he => by
      rw [hlog]
      exact List.mem_append_left _ he) (clustersKey (rounds - 1)) (Ne.symm (resultKey_ne _))
    rw [List.head?_eq_getElem?, show 0 = ([] : List (SrvCall m (Packed K k d))).length from rfl,
      hreply, readClusters, Option.join_some, Servers.readVal_read, hpre,
      h.centers rounds le_rfl]
    rfl
  · obtain ⟨ds, hperm, hvalue⟩ := Servers.of_merges (kmeansLib updateFile other)
      (f := groupsUpdater) hlogs (by
        intro w c hc
        rcases List.mem_cons.mp hc with rfl | hc
        · exact merges_read _
        · rw [List.mem_singleton.mp hc]
          exact merges_groups _) resultKey
    have hds : ds.Perm ((List.finRange n).map fun w => .groups (groups w)) := by
      refine hperm.trans (.of_eq ?_)
      rw [List.map_eq_flatMap]
      rfl
    obtain ⟨g, hg, hids⟩ := mergeAll_groups hn hds
    refine ⟨g, ?_, hids⟩
    rw [h.result, hg] at hvalue
    exact hvalue

/-- The groups hold, for every cluster, the ids of its rows after `rd` rounds. -/
def Grouped (data : Fin n → Data K d) (c0 : Fin k → Row K d) (rd : Nat) (g : Groups k) : Prop :=
  ∀ j, ((g.lookup j).getD []).Perm (idsOf (centersAfter data c0 rd) j (pooled data))

theorem idsOf_pooled (clusters : Clusters K k d) (rd : Nat) (j : Fin k) :
    ((List.finRange n).flatMap fun w =>
        idsOf clusters j ((data w).pntOwner rd)).Perm (idsOf clusters j (pooled data)) := by
  rw [idsOf, pooled, List.filter_flatMap, List.map_flatMap]
  apply List.Perm.flatMap_left
  intro w _
  exact ((pntOwner_perm (data w) rd).filter _).map _

/-- Where all workers are at the start of a segment, and what the servers then hold. -/
inductive Stage (data : Fin n → Data K d) (c0 : Fin k → Row K d) (getServer : Str → Fin m)
    (rounds : Nat) (lib : Libs (Packed K k d)) :
    Segments.Config n (Loc K k d) (Servers m (Packed K k d)) → Prop where
  | init : Stage data c0 getServer rounds lib ⟨fun _ => .init, fun _ => {}⟩
  | enter (servers : Servers m (Packed K k d)) (hholds : Holds data c0 getServer servers 0) :
      Stage data c0 getServer rounds lib ⟨fun _ => .enter, servers⟩
  | map (servers : Servers m (Packed K k d)) (rd : Nat) (hrd : rd < rounds)
      (hholds : Holds data c0 getServer servers rd)
      (hupdater : rd = 0 ∨ ∀ i, Servers.updater lib servers i = clustersUpdater) :
      Stage data c0 getServer rounds lib ⟨fun _ => .map rd, servers⟩
  | reduce (servers : Servers m (Packed K k d)) (rd : Nat) (delta : Fin n → Clusters K k d)
      (hrd : rd < rounds) (hholds : Holds data c0 getServer servers rd)
      (hupdater : ∀ i, Servers.updater lib servers i = clustersUpdater)
      (hdelta : ∑ w, delta w = centersAfter data c0 (rd + 1)) :
      Stage data c0 getServer rounds lib
        ⟨fun w => .reduce rd (centersAfter data c0 rd) (delta w), servers⟩
  | last (servers : Servers m (Packed K k d)) (rd : Nat) (hrd : rd + 1 = rounds)
      (hholds : Holds data c0 getServer servers rounds) :
      Stage data c0 getServer rounds lib
        ⟨fun w => .last (storeGroups (centersAfter data c0 rd) ((data w).pntOwner rd)), servers⟩
  | result (servers before : Servers m (Packed K k d)) (rd : Nat) (g : Groups k)
      (hrd : rd + 1 = rounds) (hholds : Holds data c0 getServer before rounds)
      (hother : ∀ key, key ≠ resultKey →
        servers.value getServer key = before.value getServer key)
      (hvalue : servers.value getServer resultKey = some (.groups g))
      (hgrouped : Grouped data c0 rd g) :
      Stage data c0 getServer rounds lib
        ⟨fun _ => .result (centersAfter data c0 rounds), servers⟩

/-- What the `allreduce` of a round brings together. -/
theorem counts_eq {rd : Nat} {servers : Servers m (Packed K k d)} {c : Fin n → Meet k}
    (hoffers : ∀ w, (⟨fun _ => .map rd, servers⟩ : Segments.Config n (Loc K k d) _).offer
      (solve updateFile getServer rounds data)
      (Servers.handle (kmeansLib updateFile other)) log w = some (c w))
    (hread : ∀ w, readClusters (Segments.repliesOf (Servers.handle (kmeansLib updateFile other)) w
      servers log).getLast? = centersAfter data c0 rd) (j : Fin k) :
    ∑ w, (c w).counts j =
      ∑ w, clusterCntMap (centersAfter data c0 rd) ((data w).pntOwner rd) j := by
  apply Finset.sum_congr rfl
  intro w _
  have hw := hoffers w
  simp only [Segments.Config.offer, solve, meet, hread w, Option.some.injEq] at hw
  rw [← hw]
  rfl

/-- One segment leads from a stage to the next. -/
theorem Stage.leads (hn : 0 < n) (h0 : initClusters k (data ⟨0, hn⟩) = some (numbers c0))
    (hrounds : 0 < rounds) {cfg cfg' : Segments.Config n (Loc K k d) (Servers m (Packed K k d))}
    (h : Stage data c0 getServer rounds (kmeansLib updateFile other) cfg)
    (hleads : Segments.Leads (solve updateFile getServer rounds data)
      (Servers.handle (kmeansLib updateFile other)) cfg cfg') :
    Stage data c0 getServer rounds (kmeansLib updateFile other) cfg' := by
  obtain ⟨log, c, hseg⟩ := hleads
  have hlogs := hseg.logs
  rw [hseg.eq]
  cases h with
  | init => exact .enter _ (after_init hn h0 hlogs)
  | enter servers hholds =>
      apply Stage.map _ 0 hrounds _ (.inl rfl)
      have hnil : log = [] := by
        rw [List.eq_nil_iff_forall_not_mem]
        intro e he
        have hmem : e.2 ∈ calls updateFile getServer rounds data e.1 .enter := hlogs.mem he
        cases hmem
      rw [hnil]
      exact hholds
  | map servers rd hrd hholds hupdater =>
      obtain ⟨hholds', hread⟩ := after_map other hholds hlogs
      have hupdater' := updater_map other hn hupdater hlogs
      have hcounts := fun j => counts_eq hseg.offers hread j
      simp only [solve, next, hread, hcounts]
      apply Stage.reduce _ rd _ hrd hholds' hupdater'
      rw [centersAfter_succ, ← sum_localCombine data hn _ rd]
  | reduce servers rd delta hrd hholds hupdater hdelta =>
      obtain ⟨hholds', hupdater'⟩ := after_reduce other hn hholds hupdater hdelta hlogs
      by_cases hmore : rd + 1 < rounds
      · simp only [solve, next, if_pos hmore]
        exact .map _ (rd + 1) hmore hholds' (.inr hupdater')
      · obtain rfl : rounds = rd + 1 := by omega
        simp only [solve, next, if_neg hmore]
        exact .last _ rd rfl hholds'
  | last servers rd hrd hholds =>
      obtain ⟨hother, hread, g, hg, hids⟩ := after_last other hn hholds hlogs
      simp only [solve, next, hread]
      apply Stage.result _ servers rd g hrd hholds hother hg
      intro j
      refine (hids j).trans ?_
      simp only [lookup_storeGroups]
      exact idsOf_pooled _ rd j
  | result servers before rd g hrd hholds hother hvalue hgrouped =>
      have hnone := hseg.offers ⟨0, hn⟩
      cases hnone

/-! ### Runs -/

/-- The states of the program, from servers that hold nothing. -/
abbrev Runs (updateFile : Str) (getServer : Str → Fin m) (rounds : Nat) (data : Fin n → Data K d)
    (other : Libs (Packed K k d))
    (st : Segments.State n (Loc K k d) (SrvCall m (Packed K k d))
      (Option (Reply (Packed K k d))) (Servers m (Packed K k d))) : Prop :=
  Reachable (Segments.checked readOk (solve updateFile getServer rounds data)
      (Servers.handle (kmeansLib updateFile other)))
    (Segments.start (solve updateFile getServer rounds data) ⟨fun _ => .init, fun _ => {}⟩) st

variable {st : Segments.State n (Loc K k d) (SrvCall m (Packed K k d))
  (Option (Reply (Packed K k d))) (Servers m (Packed K k d))}

theorem stage_of_visits (hn : 0 < n) (h0 : initClusters k (data ⟨0, hn⟩) = some (numbers c0))
    (hrounds : 0 < rounds) {cfg : Segments.Config n (Loc K k d) (Servers m (Packed K k d))}
    (h : Segments.Visits (solve updateFile getServer rounds data)
      (Servers.handle (kmeansLib updateFile other)) ⟨fun _ => .init, fun _ => {}⟩ cfg) :
    Stage data c0 getServer rounds (kmeansLib updateFile other) cfg :=
  h.invariant .init fun _ _ hstage => hstage.leads hn h0 hrounds

/-- Every state is within a segment that starts from a stage. -/
theorem Runs.exists_stage (hn : 0 < n) (h0 : initClusters k (data ⟨0, hn⟩) = some (numbers c0))
    (hrounds : 0 < rounds) (h : Runs updateFile getServer rounds data other st) :
    ∃ cfg log, Stage data c0 getServer rounds (kmeansLib updateFile other) cfg ∧
      Segments.Within (solve updateFile getServer rounds data)
        (Servers.handle (kmeansLib updateFile other)) cfg log st := by
  obtain ⟨cfg, log, hvisits, hwithin⟩ :=
    Segments.exists_within (Segments.reachable_of_checked h)
  exact ⟨cfg, log, stage_of_visits hn h0 hrounds hvisits, hwithin⟩

/-- What the workers pull is there. -/
theorem Stage.calls_ok {cfg : Segments.Config n (Loc K k d) (Servers m (Packed K k d))}
    (h : Stage data c0 getServer rounds (kmeansLib updateFile other) cfg)
    (hlogs : cfg.Logs (solve updateFile getServer rounds data) log) (w : Fin n) :
    ∀ r ∈ Segments.repliesOf (Servers.handle (kmeansLib updateFile other)) w cfg.store log,
      readOk r := by
  apply Servers.replies_ok_of_present (kmeansLib updateFile other) getServer hlogs
  intro w c hc
  have hmem : c ∈ calls updateFile getServer rounds data w (cfg.loc w) := hc
  cases h with
  | init =>
      rw [calls] at hmem
      split at hmem
      · obtain ⟨clusters, -, rfl⟩ := Option.map_eq_some_iff.mp (Option.mem_toList.mp hmem)
        exact ⟨.write _ _, .inl nofun⟩
      · cases hmem
  | enter => cases hmem
  | map servers rd hrd hholds =>
      rcases mem_calls_map hmem with ⟨i, rfl⟩ | rfl
      · exact ⟨.quiet _ rfl, .inl nofun⟩
      · exact ⟨.quiet _ rfl, .inr ⟨_, rfl, Option.isSome_of_eq_some (hholds.centers rd le_rfl)⟩⟩
  | reduce servers rd delta =>
      rw [List.mem_singleton.mp hmem]
      exact ⟨.bupdate _ _ _, .inl nofun⟩
  | last servers rd hrd hholds =>
      rcases List.mem_cons.mp hmem with rfl | hmem
      · exact ⟨.quiet _ rfl,
          .inr ⟨_, rfl, Option.isSome_of_eq_some (hholds.centers rounds le_rfl)⟩⟩
      · rw [List.mem_singleton.mp hmem]
        exact ⟨.bupdate _ _ _, .inl nofun⟩
  | result servers before rd g hrd hholds hother hvalue =>
      rw [List.mem_singleton.mp hmem]
      exact ⟨.quiet _ rfl, .inr ⟨_, rfl, Option.isSome_of_eq_some hvalue⟩⟩

/-- The rounds that are over for a worker. -/
def Loc.roundsOver (rounds : Nat) : Loc K k d → Nat
  | .init | .enter => 0
  | .map rd | .reduce rd _ _ => rd
  | .last _ | .result _ => rounds

/-- Within a segment the clusters of the rounds that are over stay on the servers. -/
theorem Stage.centers {cfg : Segments.Config n (Loc K k d) (Servers m (Packed K k d))}
    (h : Stage data c0 getServer rounds (kmeansLib updateFile other) cfg)
    (hwithin : Segments.Within (solve updateFile getServer rounds data)
      (Servers.handle (kmeansLib updateFile other)) cfg log st) {w : Fin n} {r : Nat}
    (hr : r < (cfg.loc w).roundsOver rounds) :
    ∀ r', r' ≤ r + 1 → st.store.value getServer (clustersKey (r' - 1)) =
      some (.clusters (centersAfter data c0 r')) := by
  have hcalls : ∀ e ∈ log, e.2 ∈ calls updateFile getServer rounds data e.1 (cfg.loc e.1) :=
    fun e he => hwithin.mem he
  rw [hwithin.store]
  cases h with
  | init | enter => exact absurd hr (Nat.not_lt_zero r)
  | map servers rd hrd hholds hupdater =>
      have hr : r < rd := hr
      intro r' hr'
      rw [← hholds.centers r' (by omega)]
      apply Servers.value_replay_quiet
      intro c hc
      obtain ⟨e, he, rfl⟩ := List.mem_map.mp hc
      exact quiet_of_mem_calls_map (hcalls e he)
  | reduce servers rd delta hrd hholds hupdater =>
      have hr : r < rd := hr
      intro r' hr'
      rw [← hholds.centers r' (by omega)]
      apply value_calls_reduce hupdater fun e he => ⟨_, List.mem_singleton.mp (hcalls e he)⟩
      intro hkey
      have hrd := clustersKey_inj.mp hkey
      omega
  | last servers rd hrd hholds =>
      have hr : r < rounds := hr
      intro r' hr'
      rw [← hholds.centers r' (by omega)]
      exact value_calls_last data (fun w => storeGroups (centersAfter data c0 rd)
        ((data w).pntOwner rd)) hcalls (Ne.symm (resultKey_ne _))
  | result servers before rd g hrd hholds hother hvalue =>
      have hr : r < rounds := hr
      intro r' hr'
      rw [← hholds.centers r' (by omega), ← hother _ (Ne.symm (resultKey_ne _))]
      apply Servers.value_replay_quiet
      intro c hc
      obtain ⟨e, he, rfl⟩ := List.mem_map.mp hc
      rw [List.mem_singleton.mp (hcalls e he)]
      rfl

/-- At every moment of every run the servers hold the clusters of each round that is over, and as
    long as no cluster has lost all its rows, no round has raised the cost of the rows of all
    workers. -/
theorem cost_le [IsStrictOrderedRing K] (hn : 0 < n)
    (h0 : initClusters k (data ⟨0, hn⟩) = some (numbers c0)) (hrounds : 0 < rounds)
    (h : Reachable (Segments.checked readOk (solve updateFile getServer rounds data)
        (Servers.handle (kmeansLib updateFile other)))
      (Segments.start (solve updateFile getServer rounds data)
        ⟨fun _ => .init, fun _ => {}⟩) st) {w : Fin n} {r : Nat}
    (hr : r < (st.loc w).base.roundsOver rounds) :
    st.store.value getServer (clustersKey (r - 1)) = some (.clusters (centersAfter data c0 r)) ∧
      st.store.value getServer (clustersKey r) =
        some (.clusters (centersAfter data c0 (r + 1))) ∧
      (Filled data c0 (r + 1) → ∃ c c', centersAfter data c0 r = numbers c ∧
        centersAfter data c0 (r + 1) = numbers c' ∧
        Lloyd.cost (points data) c' ≤ Lloyd.cost (points data) c) := by
  obtain ⟨cfg, log, hstage, hwithin⟩ := Runs.exists_stage hn h0 hrounds h
  rw [hwithin.base] at hr
  have hcenters := hstage.centers hwithin hr
  refine ⟨hcenters r (Nat.le_succ r), ?_, fun hfilled => ?_⟩
  · have hlast := hcenters (r + 1) le_rfl
    rwa [show ((r + 1 : Nat) : Int) - 1 = (r : Int) by omega] at hlast
  · have hbefore : Filled data c0 r := fun r' hr' => hfilled r' (Nat.lt_succ_of_lt hr')
    refine ⟨_, _, centersAfter_eq data hbefore, centersAfter_eq data hfilled, ?_⟩
    rw [lloydAfter, lloydAfter, Function.iterate_succ_apply']
    exact Lloyd.cost_step_le (hfilled r (Nat.lt_succ_self r))

omit [Field K] [LinearOrder K] in
/-- Every id is in the group of one cluster. -/
theorem flatMap_ids_perm (owner : Row K d → Fin k) (xs : List (Str × Row K d)) :
    ((List.finRange k).flatMap fun j =>
      (xs.filter fun kv => owner kv.2 = j).map Prod.fst).Perm (xs.map Prod.fst) := by
  have hlog := Spmd.log_perm (xs.map fun kv => (owner kv.2, kv.1))
  rw [List.map_map] at hlog
  refine (hlog.trans (.of_eq ?_)).symm
  apply List.flatMap_congr
  intro j _
  rw [Spmd.callsOf, List.filter_map, List.map_map]
  rfl

/-- Groups that hold the ids of each cluster hold every id once for every row. -/
theorem Grouped.perm (hk : 0 < k) {rd : Nat} {g : Groups k} (h : Grouped data c0 rd g) :
    ((List.finRange k).flatMap fun j => (g.lookup j).getD []).Perm
      ((pooled data).map Prod.fst) := by
  choose owner howner using fun x : Row K d => exists_minCoeff (centersAfter data c0 rd) hk x
  have hids : ((List.finRange k).flatMap fun j => idsOf (centersAfter data c0 rd) j (pooled data)) =
      (List.finRange k).flatMap fun j =>
        ((pooled data).filter fun kv => owner kv.2 = j).map Prod.fst := by
    apply List.flatMap_congr
    intro j _
    rw [idsOf]
    congr 1
    apply List.filter_congr
    intro kv _
    simp [howner]
  refine (List.Perm.flatMap_left _ fun j _ => h j).trans ?_
  rw [hids]
  exact flatMap_ids_perm owner (pooled data)

/-- A worker that has pulled the groups has those that are there. -/
theorem read_result {rd : Nat} {g : Groups k} {w : Fin n}
    (hvalue : servers.value getServer resultKey = some (.groups g))
    (hwithin : Segments.Within (solve updateFile getServer rounds data)
      (Servers.handle (kmeansLib updateFile other))
      ⟨fun _ => .result (centersAfter data c0 rd), servers⟩ log st)
    (hdone : (st.loc w).todo = []) : readVal (st.loc w).got.getLast?.join = .groups g := by
  have hw : Spmd.callsOf w log = [] ++ [.paracelRead getServer resultKey] := by
    have htodo := hwithin.todo w
    rwa [hdone, List.append_nil] at htodo
  obtain ⟨pre, post, hlog, -, hlast⟩ := Segments.exists_last_reply
    (Servers.handle (kmeansLib updateFile other)) servers hw
  have hpre : (Spmd.replay (Servers.handle (kmeansLib updateFile other)) servers
      (pre.map Prod.snd)).value getServer resultKey = some (.groups g) := by
    rw [← hvalue]
    apply Servers.value_replay_quiet
    intro c hc
    obtain ⟨e, he, rfl⟩ := List.mem_map.mp hc
    have hmem : e.2 ∈ calls updateFile getServer rounds data e.1
        (.result (centersAfter data c0 rd)) := hwithin.mem (by
      rw [hlog]
      exact List.mem_append_left _ he)
    rw [List.mem_singleton.mp hmem]
    rfl
  rw [hwithin.got, hlast, Option.join_some, Servers.readVal_read, hpre, Option.getD_some]

/-! ### Runs end -/

/-- How many segments are left, at most. -/
def level (rounds : Nat) : Loc K k d → Nat
  | .init => 2 * rounds + 5
  | .enter => 2 * rounds + 4
  | .map rd => 2 * (rounds - rd) + 3
  | .reduce rd _ _ => 2 * (rounds - rd) + 2
  | .last _ => 1
  | .result _ => 0

/-- The locations in which a worker makes its last calls. -/
def Loc.final : Loc K k d → Bool
  | .result _ => true
  | _ => false

theorem level_next {w : Fin n} {l : Loc K k d} (hl : l.final = false)
    (rs : List (Option (Reply (Packed K k d)))) (c : Fin n → Meet k) :
    level rounds (next rounds data w l rs c) < level rounds l := by
  cases l with
  | init => simp [next, level]
  | enter => simp [next, level]
  | map rd => simp [next, level]
  | reduce rd clusters delta =>
      by_cases hmore : rd + 1 < rounds
      · simp only [next, if_pos hmore, level]
        omega
      · simp only [next, if_neg hmore, level]
        omega
  | last groups => simp [next, level]
  | result clusters => cases hl

theorem offer_of_final {cfg : Segments.Config n (Loc K k d) (Servers m (Packed K k d))} {w : Fin n}
    (h : (cfg.loc w).final) {sem} :
    cfg.offer (solve updateFile getServer rounds data) sem log w = none := by
  unfold Segments.Config.offer
  cases hl : cfg.loc w with
  | result clusters => rfl
  | _ =>
      rw [hl] at h
      cases h

/-- All workers go on with one operation, or all have come to the end. -/
theorem Stage.agree (hn : 0 < n) (h0 : initClusters k (data ⟨0, hn⟩) = some (numbers c0))
    {cfg : Segments.Config n (Loc K k d) (Servers m (Packed K k d))}
    {lib : Libs (Packed K k d)} (h : Stage data c0 getServer rounds lib cfg) {sem} :
    (∀ w, (cfg.loc w).final) ∨
      ∃ c, (∀ w, cfg.offer (solve updateFile getServer rounds data) sem log w = some (c w)) ∧
        (solve updateFile getServer rounds data).Matched c := by
  cases h with
  | init =>
      refine .inr ⟨fun _ => .sync, ?_, fun _ _ => rfl⟩
      intro w
      by_cases hw : w.val = 0
      · obtain rfl : w = ⟨0, hn⟩ := Fin.ext hw
        simp [Segments.Config.offer, solve, meet, h0]
      · simp [Segments.Config.offer, solve, meet, hw]
  | enter servers => exact .inr ⟨fun _ => .sync, fun _ => rfl, fun _ _ => rfl⟩
  | map servers rd => exact .inr ⟨_, fun _ => rfl, fun _ _ => rfl⟩
  | reduce servers rd delta => exact .inr ⟨fun _ => .sync, fun _ => rfl, fun _ _ => rfl⟩
  | last servers rd => exact .inr ⟨fun _ => .sync, fun _ => rfl, fun _ _ => rfl⟩
  | result servers before rd g => exact .inl fun _ => rfl

/-- No worker ends at a pull. -/
theorem answered (hn : 0 < n) (h0 : initClusters k (data ⟨0, hn⟩) = some (numbers c0))
    (hrounds : 0 < rounds) :
    Segments.Answered readOk (solve updateFile getServer rounds data)
      (Servers.handle (kmeansLib updateFile other)) ⟨fun _ => .init, fun _ => {}⟩ :=
  fun _ _ hvisits hlogs => (stage_of_visits hn h0 hrounds hvisits).calls_ok hlogs

/-- Every run can be continued until all workers have pulled the groups. -/
theorem Runs.exists_result (hn : 0 < n)
    (h0 : initClusters k (data ⟨0, hn⟩) = some (numbers c0)) (hrounds : 0 < rounds)
    (h : Runs updateFile getServer rounds data other st) :
    ∃ t, Reachable (Segments.checked readOk (solve updateFile getServer rounds data)
        (Servers.handle (kmeansLib updateFile other))) st t ∧
      ∀ w, (∃ clusters, (t.loc w).base = .result clusters) ∧ (t.loc w).todo = [] := by
  obtain ⟨t, ht, hhalted⟩ := (answered hn h0 hrounds).exists_halted
    (fun loc => level rounds (loc ⟨0, hn⟩))
    (by
      intro cfg log hvisits _
      rcases (stage_of_visits hn h0 hrounds hvisits).agree hn h0 with hfinal | hmatched
      · exact .inl fun w => offer_of_final (hfinal w)
      · exact .inr hmatched)
    (by
      intro cfg cfg' hvisits hleads
      obtain ⟨log, c, hseg⟩ := hleads
      rw [hseg.loc]
      apply level_next
      rw [Bool.eq_false_iff]
      intro hfinal
      have hoffer := hseg.offers ⟨0, hn⟩
      rw [offer_of_final hfinal] at hoffer
      cases hoffer) h
  refine ⟨t, ht, fun w => ⟨?_, (hhalted w).1⟩⟩
  obtain ⟨cfg, log, hstage, hwithin⟩ := Runs.exists_stage hn h0 hrounds (h.trans ht)
  have hmeet := (hhalted w).2
  rw [hwithin.meet_eq] at hmeet
  cases hstage with
  | result servers before rd g => exact ⟨_, hwithin.base w⟩
  | init =>
      by_cases hw : w.val = 0
      · obtain rfl : w = ⟨0, hn⟩ := Fin.ext hw
        simp [Segments.Config.offer, solve, meet, h0] at hmeet
      · simp [Segments.Config.offer, solve, meet, hw] at hmeet
  | enter | map | reduce | last => cases hmeet

/-- Every run can be continued until all workers have pulled the groups. A worker then has the
    clusters of as many rounds on the rows of all workers, and groups that have every id of every
    worker once for each row. As long as no cluster loses all its rows, the clusters are those of
    Lloyd's algorithm, and the groups have, for every cluster, the ids of the rows that were
    nearest to it before the last round moved it. -/
theorem kmeans_lloyd (hn : 0 < n) (h0 : initClusters k (data ⟨0, hn⟩) = some (numbers c0))
    (hrounds : 0 < rounds) (hk : 0 < k)
    (h : Reachable (Segments.checked readOk (solve updateFile getServer rounds data)
        (Servers.handle (kmeansLib updateFile other)))
      (Segments.start (solve updateFile getServer rounds data)
        ⟨fun _ => .init, fun _ => {}⟩) st) :
    (∃ t, Reachable (Segments.checked readOk (solve updateFile getServer rounds data)
          (Servers.handle (kmeansLib updateFile other))) st t ∧
        ∀ w, (∃ clusters, (t.loc w).base = .result clusters) ∧ (t.loc w).todo = []) ∧
      ∀ w clusters, (st.loc w).base = .result clusters → (st.loc w).todo = [] →
        clusters = centersAfter data c0 rounds ∧
        ∃ g, readVal (st.loc w).got.getLast?.join = .groups g ∧
          ((List.finRange k).flatMap fun j => (g.lookup j).getD []).Perm
            ((pooled data).map Prod.fst) ∧
          (Filled data c0 rounds → clusters = numbers (lloydAfter data c0 rounds) ∧
            ∀ j, ((g.lookup j).getD []).Perm (((pooled data).filter fun kv =>
              Lloyd.owner (lloydAfter data c0 (rounds - 1)) kv.2 = some j).map Prod.fst)) := by
  refine ⟨Runs.exists_result hn h0 hrounds h, ?_⟩
  intro w clusters hbase hdone
  obtain ⟨cfg, log, hstage, hwithin⟩ := Runs.exists_stage hn h0 hrounds h
  have hcfg := hwithin.base w
  rw [hbase] at hcfg
  cases hstage with
  | result servers before rd g hrd hholds hother hvalue hgrouped =>
      cases hcfg
      refine ⟨rfl, g, read_result hvalue hwithin hdone, hgrouped.perm hk, fun hfilled => ?_⟩
      refine ⟨centersAfter_eq data hfilled, fun j => ?_⟩
      obtain rfl : rounds = rd + 1 := hrd.symm
      have hbefore : Filled data c0 rd := fun r hr => hfilled r (Nat.lt_succ_of_lt hr)
      have hids := hgrouped j
      simp only [idsOf, centersAfter_eq data hbefore, minCoeff_numbers] at hids
      exact hids
  | init | enter | map | reduce | last => cases hcfg

end Servers

/-! ### Two workers and two clusters -/

/-- What the first worker has loaded, or the second. -/
def twoWorkers (w : Fin 2) : Data ℚ 1 :=
  if w.val = 0 then
    { rows := [([97], fun _ => 0), ([98], fun _ => 1)]
      nonempty := List.cons_ne_nil _ _
      iter := fun _ => (List.finRange 2).reverse
      iterates := fun _ => List.reverse_perm _ }
  else
    { rows := [([99], fun _ => 10)]
      nonempty := List.cons_ne_nil _ _
      iter := fun _ => List.finRange 1
      iterates := fun _ => .refl _ }

/-- The first two rows of the first worker. -/
def firstClusters : Fin 2 → Row ℚ 1 := fun j _ => if j.val = 0 then 0 else 1

/-- Shared libraries that hold the updater of the clusters under every symbol. -/
def clustersLib : Libs (Packed ℚ 2 1) :=
  { update := fun _ => clustersUpdater, filter := fun _ _ _ => true }

theorem initClusters_two :
    initClusters 2 (twoWorkers ⟨0, by decide⟩) = some (numbers firstClusters) := by
  rw [initClusters, dif_pos (by decide)]
  congr 1
  funext j i
  revert i j
  decide +kernel

theorem filled_two : Filled twoWorkers firstClusters 2 := by
  have hfilled : ∀ r < 2, ∀ j,
      Lloyd.members (lloydAfter twoWorkers firstClusters r) j (points twoWorkers) ≠ [] := by
    decide +kernel
  exact hfilled

theorem lloydAfter_two :
    lloydAfter twoWorkers firstClusters 2 = fun j _ => if j.val = 0 then 1 / 2 else 10 := by
  funext j i
  revert i j
  decide +kernel

theorem kmeans_lloyd_two : ∃ t,
    Reachable (Segments.checked readOk (solve [] (fun _ => (0 : Fin 1)) 2 twoWorkers)
        (Servers.handle (kmeansLib [] clustersLib)))
      (Segments.start (solve [] (fun _ => (0 : Fin 1)) 2 twoWorkers)
        ⟨fun _ => .init, fun _ => {}⟩) t ∧
      ∀ w, (t.loc w).base = .result (numbers fun j _ => if j.val = 0 then 1 / 2 else 10) ∧
        ∃ g, readVal (t.loc w).got.getLast?.join = .groups g ∧
          ((g.lookup 0).getD []).Perm [[97], [98]] ∧ ((g.lookup 1).getD []).Perm [[99]] := by
  have hstart : Reachable (Segments.checked readOk (solve [] (fun _ => (0 : Fin 1)) 2 twoWorkers)
      (Servers.handle (kmeansLib [] clustersLib)))
    (Segments.start (solve [] (fun _ => (0 : Fin 1)) 2 twoWorkers)
      ⟨fun _ => .init, fun _ => {}⟩) _ := .refl _
  obtain ⟨hfinish, -⟩ := kmeans_lloyd (by decide) initClusters_two (by decide) (by decide) hstart
  obtain ⟨t, ht, hresult⟩ := hfinish
  obtain ⟨-, hall⟩ := kmeans_lloyd (by decide) initClusters_two (by decide) (by decide) ht
  refine ⟨t, ht, fun w => ?_⟩
  obtain ⟨⟨clusters, hbase⟩, hdone⟩ := hresult w
  obtain ⟨-, g, hg, -, hlloyd⟩ := hall w clusters hbase hdone
  obtain ⟨hclusters, hgroups⟩ := hlloyd filled_two
  refine ⟨?_, g, hg, ?_, ?_⟩
  · rw [hbase, hclusters, lloydAfter_two]
  · exact (hgroups 0).trans (by decide +kernel)
  · exact (hgroups 1).trans (by decide +kernel)

theorem cost_le_two : ∃ t, Runs [] (fun _ => (0 : Fin 1)) 2 twoWorkers clustersLib t ∧
    ∃ c c', t.store.value (fun _ => 0) (clustersKey 0) = some (.clusters (numbers c)) ∧
      t.store.value (fun _ => 0) (clustersKey 1) = some (.clusters (numbers c')) ∧
      Lloyd.cost (points twoWorkers) c' ≤ Lloyd.cost (points twoWorkers) c := by
  have hstart : Runs [] (fun _ => (0 : Fin 1)) 2 twoWorkers clustersLib _ := .refl _
  obtain ⟨t, ht, hresult⟩ :=
    Runs.exists_result (by decide) initClusters_two (by decide) hstart
  obtain ⟨⟨clusters, hbase⟩, -⟩ := hresult 0
  have hr : 1 < (t.loc 0).base.roundsOver 2 := by
    rw [hbase]
    exact Nat.one_lt_two
  obtain ⟨hfirst, hsecond, hcost⟩ := cost_le (by decide) initClusters_two (by decide) ht hr
  obtain ⟨c, c', hc, hc', hle⟩ := hcost filled_two
  exact ⟨t, ht, c, c', hfirst.trans (by rw [hc]), hsecond.trans (by rw [hc']), hle⟩

end Paracel.KMeans
