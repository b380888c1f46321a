import Mathlib.Data.Rat.Sqrt
import Paracel.Doubles
import Paracel.Load.Organize
import Paracel.Misc.TopK
import Paracel.Ps.Shared

/-!
# The most similar items

`alg/similarity/sim.hpp`: each worker finds for each of its items the `ktop` others
whose vectors have the largest products with its own. With the method `default`
it loads the lines of all workers and needs no server. With `limit_storage` it
loads its own lines only: it writes its vectors and the list of its ids, and after
a barrier it reads the lists of the other workers, one after another, and for each
of its items the vectors named there, so what it reads depends on what it has read
before. `sync()` is taken as `paracel_sync()`, and `std::sort` as any function that
sorts as its documentation says, which needs numbers: `normalize` makes `NaN` of a
line whose numbers are all 0, and a `NaN` comes neither before nor behind any number.
-/

namespace Paracel.Similarity

open StepSystem TopK

/-- The functions on `double` that are used beside the operators. -/
structure Arith (D : Type) where
  ofDecimal : ℚ → D
  square : D → D
  sqrt : D → D

/-- What the operations do with the numbers, those of `double` but `NaN`, where none overflows:
    they give numbers but for the root of a negative one and a division by 0. -/
structure Arith.Closed {D : Type} [Zero D] [Add D] [Mul D] [Div D] [LE D] (ar : Arith D)
    (IsNum : D → Prop) : Prop where
  total : ∀ a b, IsNum a → IsNum b → a ≤ b ∨ b ≤ a
  zero : IsNum 0 ∧ (0 : D) ≤ 0
  ofDecimal : ∀ q, IsNum (ar.ofDecimal q)
  add : ∀ a b, IsNum a → IsNum b → IsNum (a + b)
  add_nonneg : ∀ a b : D, 0 ≤ a → 0 ≤ b → 0 ≤ a + b
  mul : ∀ a b, IsNum a → IsNum b → IsNum (a * b)
  div : ∀ a b, IsNum a → IsNum b → b ≠ 0 → IsNum (a / b)
  square : ∀ a, IsNum a → IsNum (ar.square a) ∧ 0 ≤ ar.square a
  sqrt : ∀ a, IsNum a → 0 ≤ a → IsNum (ar.sqrt a)

/-- What the program keeps on the servers, packed. -/
inductive Packed (D : Type) where
  | vect (v : List D)
  | bag (ids : List Str)

instance instInhabitedPacked {D : Type} : Inhabited (Packed D) := ⟨.bag []⟩

/-- What `paracel_read` unpacks as a vector. -/
def Packed.toVect {D : Type} : Packed D → List D
  | .vect v => v
  | .bag _ => []

/-- What `paracel_read` unpacks as a list of ids. -/
def Packed.toBag {D : Type} : Packed D → List Str
  | .vect _ => []
  | .bag ids => ids

/-- `"item_bag_" + std::to_string(node_id)`. -/
def bagKey (nodeId : Nat) : Str := lit "item_bag_" ++ toStr nodeId

/-- The vectors of some items, in the order in which they are iterated. -/
abbrev Vects (D : Type) := List (Str × List D)

/-- `result`. -/
abbrev Results (D : Type) := Dict Str (List (Str × D))

section Worker

variable {D : Type} [Zero D] [Add D] [Mul D] [Div D] (ar : Arith D)

/-- A line in `local_parser`; the first field is needed, and `std::stod` throws on a field that
    is no number. -/
def parseLine (line : Str) : Option (Str × List D) :=
  match strSplit line (lit ",") with
  | [] => none
  | id :: fields => (fields.mapM stod).map fun tmp => (id, tmp.map ar.ofDecimal)

/-- `local_parser`. -/
def localParser (linelst : List Str) : Option (Dict Str (List D)) :=
  (linelst.mapM (parseLine ar)).map fun vs => vs.foldl (fun var v => var.insert v.1 v.2) ∅

/-- The `square_sum` of a vector. -/
def squareSum (v : List D) : D :=
  v.foldl (fun sum x => sum + ar.square x) 0

/-- `normalize`, for one vector. -/
def normalizeVect (v : List D) : List D :=
  v.map fun x => x / ar.sqrt (squareSum ar v)

/-- `normalize`. -/
def normalize (var : Vects D) : Vects D :=
  var.map fun kv => (kv.1, normalizeVect ar kv.2)

/-- `paracel::dot_product`, for vectors of the same length; `inner_product` reads past the end of
    a second one that is shorter. -/
def dotProduct (a b : List D) : D :=
  (a.zip b).foldl (fun sum xy => sum + xy.1 * xy.2) 0

/-- `push_back` on an entry of `result`. -/
def pushBack (result : Results D) (id : Str) (r : Str × D) : Results D :=
  result.insert id (((result.lookup id).getD []) ++ [r])

/-- What `local_learning` adds for `iv` when it meets `jv`. -/
def learnPair (iv : Str × List D) (result : Results D) (jv : Str × List D) : Results D :=
  if iv.1 ≠ jv.1 then pushBack result iv.1 (jv.1, dotProduct iv.2 jv.2) else result

/-- `local_learning`. -/
def localLearning (itemVects var : Vects D) (result : Results D) : Results D :=
  itemVects.foldl (fun result iv => var.foldl (learnPair iv) result) result

/-- `select_top`, up to its `assert`. -/
def selectTop (sort : List (Str × D) → List (Str × D)) (ktop : Nat) (itemVects : Vects D)
    (result : Results D) : Option (Results D) :=
  itemVects.foldlM
    (fun result iv =>
      let r := sort ((result.lookup iv.1).getD [])
      if ktop ≤ r.length then some (result.insert iv.1 (r.take ktop)) else none)
    result

end Worker

/-- None of some products is a `NaN`. -/
def Comparable {D : Type} [LE D] (l : List (Str × D)) : Prop :=
  ∀ a ∈ l, ∀ b ∈ l, a.2 ≤ b.2 ∨ b.2 ≤ a.2

theorem Comparable.perm {D : Type} [LE D] {l l' : List (Str × D)} (h : Comparable l)
    (hperm : l'.Perm l) : Comparable l' :=
  fun a ha b hb => h a (hperm.mem_iff.mp ha) b (hperm.mem_iff.mp hb)

/-- `std::sort` with the comparison of `select_top`, which orders numbers; with a `NaN` among them
    nothing is known of what it leaves. -/
structure Sorts {D : Type} [LE D] (sort : List (Str × D) → List (Str × D)) : Prop where
  perm : ∀ l, Comparable l → (sort l).Perm l
  pairwise : ∀ l, Comparable l → (sort l).Pairwise fun a b => b.2 ≤ a.2

/-- The parameters of a run, and what each worker has loaded: the normalized vectors of its own
    lines, and those of all lines in an order of its own. -/
structure Job (D : Type) (n : Nat) where
  ktop : Nat
  sort : List (Str × D) → List (Str × D)
  itemVects : Fin n → Vects D
  allItemVects : Fin n → Vects D

/-- Where a worker is: before the barrier of `solve` with what it has still to write, in front of
    the barrier behind `local_learning`, among the reads, in front of the barrier behind
    `select_top`, behind it, or stopped by the `assert`. -/
inductive Loc (D : Type) (n : Nat) where
  | push (todo : List (Str × Packed D))
  | learned (result : Results D)
  | pull (todo : List ((Str × List D) × Str)) (nodes : List (Fin n)) (result : Results D)
  | topped (result : Results D)
  | done (result : Results D)
  | aborted

section Program

variable {D : Type} [Zero D] [Add D] [Mul D] {n m : Nat} (job : Job D n)
  (getServer : Str → Fin m)

/-- The writes of `init_paras`. -/
def pushes (w : Fin n) : List (Str × Packed D) :=
  (job.itemVects w).map (fun kv => (kv.1, .vect kv.2)) ++
    [(bagKey w, .bag ((job.itemVects w).map Prod.fst))]

/-- The `node_id`s of the loop that are not skipped. -/
def otherNodes (w : Fin n) : List (Fin n) :=
  (List.finRange n).filter fun nodeId => nodeId ≠ w

/-- The reads of the two inner loops. -/
def pairsOf (w : Fin n) (idBag : List Str) : List ((Str × List D) × Str) :=
  (job.itemVects w).flatMap fun iv => idBag.map fun iid => (iv, iid)

/-- `select_top`, and the barrier that follows. -/
def top (w : Fin n) (result : Results D) : Loc D n :=
  match selectTop job.sort job.ktop (job.itemVects w) result with
  | some result => .topped result
  | none => .aborted

/-- `solve` with `limit_storage`. -/
def limitStorage (w : Fin n) :
    Loc D n → Spmd.Action (Loc D n) (SrvCall m (Packed D)) (Option (Reply (Packed D)))
  | .push (kv :: todo) => .call (.paracelWrite getServer kv.1 kv.2) fun _ => .push todo
  | .push [] => .sync (.learned (localLearning (job.itemVects w) (job.itemVects w) ∅))
  | .learned result => .sync (.pull [] (otherNodes w) result)
  | .pull (p :: todo) nodes result =>
      .call (.paracelRead getServer p.2) fun r =>
        if readOk r then
          .pull todo nodes (pushBack result p.1.1 (p.2, dotProduct p.1.2 (readVal r).toVect))
        else .aborted
  | .pull [] (nodeId :: nodes) result =>
      .call (.paracelRead getServer (bagKey nodeId)) fun r =>
        if readOk r then .pull (pairsOf job w (readVal r).toBag) nodes result else .aborted
  | .pull [] [] result => .sync (top job w result)
  | .topped result => .sync (.done result)
  | .done _ | .aborted => .halt

/-- `solve` with `default`, which writes and reads nothing. -/
def byDefault (w : Fin n) :
    Loc D n → Spmd.Action (Loc D n) (SrvCall m (Packed D)) (Option (Reply (Packed D)))
  | .push _ => .sync (.learned (localLearning (job.itemVects w) (job.allItemVects w) ∅))
  | .learned result => .sync (top job w result)
  | .topped result => .sync (.done result)
  | .pull _ _ _ | .done _ | .aborted => .halt

/-- The workers behind `init_paras`, or in front of it. -/
def atStart (todo : Fin n → List (Str × Packed D)) (servers : Servers m (Packed D)) :
    Spmd.State n (Loc D n) (SrvCall m (Packed D)) (Servers m (Packed D)) :=
  { loc := fun w => .push (todo w), store := servers }

end Program

/-! ### One worker -/

section Local

variable {D : Type} {items var : Vects D} {result result' : Results D} {iv : Str × List D}
  {sort : List (Str × D) → List (Str × D)} {ktop : Nat}

/-- The entry of an item, empty if there is none. -/
def entry (result : Results D) (id : Str) : List (Str × D) :=
  (result.lookup id).getD []

theorem lookup_insert (result : Results D) (id : Str) (r : List (Str × D)) (a : Str) :
    (result.insert id r).lookup a = if a = id then some r else result.lookup a := by
  by_cases ha : a = id
  · subst ha
    rw [AList.lookup_insert, if_pos rfl]
  · rw [AList.lookup_insert_ne ha, if_neg ha]

theorem entry_pushBack (result : Results D) (id : Str) (r : Str × D) (a : Str) :
    entry (pushBack result id r) a =
      if a = id then entry result id ++ [r] else entry result a := by
  rw [entry, pushBack, lookup_insert]
  split <;> rfl

theorem ne_of_notMem_ids {a : Str} (hiv : iv ∈ items) (h : a ∉ items.map Prod.fst) :
    iv.1 ≠ a :=
  fun heq => h (heq ▸ List.mem_map_of_mem hiv)

/-- What `select_top` leaves when the `assert` holds. -/
theorem selectTop_eq_some (hnodup : (items.map Prod.fst).Nodup)
    (h : selectTop sort ktop items result = some result') :
    (∀ iv ∈ items, ktop ≤ (sort (entry result iv.1)).length ∧
      result'.lookup iv.1 = some ((sort (entry result iv.1)).take ktop)) ∧
    ∀ a ∉ items.map Prod.fst, result'.lookup a = result.lookup a := by
  induction items generalizing result with
  | nil =>
      cases h
      refine ⟨?_, fun _ _ => rfl⟩
      intro iv hiv
      cases hiv
  | cons jv items ih =>
      rw [List.map_cons, List.nodup_cons] at hnodup
      rw [selectTop, List.foldlM_cons] at h
      obtain ⟨next, hnext, hrest⟩ := Option.bind_eq_some_iff.mp h
      by_cases hlen : ktop ≤ (sort (entry result jv.1)).length
      · have hinsert : result.insert jv.1 ((sort (entry result jv.1)).take ktop) = next :=
          Option.some.inj ((if_pos hlen).symm.trans hnext)
        subst hinsert
        obtain ⟨hitems, hother⟩ := ih hnodup.2 hrest
        refine ⟨fun iv hiv => ?_, fun a ha => ?_⟩
        · rcases List.mem_cons.mp hiv with rfl | hiv
          · refine ⟨hlen, ?_⟩
            rw [hother _ hnodup.1, lookup_insert, if_pos rfl]
          · have hne := ne_of_notMem_ids hiv hnodup.1
            have hiv' := hitems iv hiv
            rwa [entry, lookup_insert, if_neg hne, ← entry] at hiv'
        · rw [List.map_cons, List.mem_cons, not_or] at ha
          rw [hother a ha.2, lookup_insert, if_neg ha.1]
      · have hnone := (if_neg hlen).symm.trans hnext
        cases hnone

/-- The `assert` fails only where an entry is too short. -/
theorem exists_short_of_selectTop (hnodup : (items.map Prod.fst).Nodup)
    (h : selectTop sort ktop items result = none) :
    ∃ iv ∈ items, (sort (entry result iv.1)).length < ktop := by
  induction items generalizing result with
  | nil => cases h
  | cons jv items ih =>
      rw [List.map_cons, List.nodup_cons] at hnodup
      by_cases hlen : ktop ≤ (sort (entry result jv.1)).length
      · rw [selectTop, List.foldlM_cons, ← entry, if_pos hlen, Option.bind_eq_bind,
          Option.bind_some] at h
        obtain ⟨iv, hiv, hshort⟩ := ih hnodup.2 h
        have hne := ne_of_notMem_ids hiv hnodup.1
        rw [entry, lookup_insert, if_neg hne, ← entry] at hshort
        exact ⟨iv, List.mem_cons_of_mem jv hiv, hshort⟩
      · exact ⟨jv, List.mem_cons_self, Nat.lt_of_not_le hlen⟩

variable [Zero D] [Add D] [Mul D]

/-- What is recorded of an item for another one. -/
def score (iv jv : Str × List D) : Str × D :=
  (jv.1, dotProduct iv.2 jv.2)

/-- What `local_learning` finds for `iv` among some items. -/
def neighbours (var : Vects D) (iv : Str × List D) : List (Str × D) :=
  (var.filter fun jv => iv.1 ≠ jv.1).map (score iv)

theorem neighbours_cons (jv : Str × List D) (var : Vects D) (iv : Str × List D) :
    neighbours (jv :: var) iv =
      (if iv.1 ≠ jv.1 then [score iv jv] else []) ++ neighbours var iv := by
  rw [neighbours, List.filter_cons]
  by_cases hne : iv.1 = jv.1 <;> simp [neighbours, hne]

theorem entry_foldl_learnPair (var : Vects D) (iv : Str × List D) (result : Results D)
    (a : Str) : entry (var.foldl (learnPair iv) result) a =
      if a = iv.1 then entry result a ++ neighbours var iv else entry result a := by
  induction var generalizing result with
  | nil => simp [neighbours]
  | cons jv var ih =>
      rw [List.foldl_cons, ih, neighbours_cons, learnPair]
      by_cases ha : a = iv.1
      · subst ha
        by_cases hne : iv.1 = jv.1
        · simp [hne]
        · simp [hne, entry_pushBack, score]
      · by_cases hne : iv.1 = jv.1
        · simp [hne]
        · simp [ha, hne, entry_pushBack]

theorem entry_localLearning (hnodup : (items.map Prod.fst).Nodup) (hiv : iv ∈ items) :
    entry (localLearning items var result) iv.1 = entry result iv.1 ++ neighbours var iv := by
  have hother : ∀ (items : Vects D) (result : Results D) a, a ∉ items.map Prod.fst →
      entry (localLearning items var result) a = entry result a := by
    intro items
    induction items with
    | nil => exact fun _ _ _ => rfl
    | cons jv items ih =>
        intro result a ha
        rw [List.map_cons, List.mem_cons, not_or] at ha
        rw [localLearning, List.foldl_cons, ← localLearning, ih _ _ ha.2, entry_foldl_learnPair,
          if_neg ha.1]
  induction items generalizing result with
  | nil => cases hiv
  | cons jv items ih =>
      rw [List.map_cons, List.nodup_cons] at hnodup
      rw [localLearning, List.foldl_cons, ← localLearning]
      rcases List.mem_cons.mp hiv with rfl | hiv
      · rw [hother _ _ _ hnodup.1, entry_foldl_learnPair, if_pos rfl]
      · have hne := ne_of_notMem_ids hiv hnodup.1
        rw [ih hnodup.2 hiv, entry_foldl_learnPair, if_neg hne]

end Local

/-! ### The items of all workers -/

section Collected

variable {D : Type} {n m : Nat} (job : Job D n) (getServer : Str → Fin m)

/-- The items of all workers. -/
def pooled : Vects D :=
  (List.finRange n).flatMap job.itemVects

/-- Every item has an id of its own, which is no key of a list of ids, and all workers have loaded
    the same items for `default`. -/
structure Consistent : Prop where
  nodup : ((pooled job).map Prod.fst).Nodup
  ne_bagKey : ∀ iv ∈ pooled job, ∀ w : Fin n, iv.1 ≠ bagKey w
  all : ∀ w, (job.allItemVects w).Perm (pooled job)

/-- The servers have all vectors and all lists of ids. -/
def Written (servers : Servers m (Packed D)) : Prop :=
  ∀ w, ∀ kv ∈ pushes job w, servers.value getServer kv.1 = some kv.2

variable {job getServer} {w : Fin n} {iv : Str × List D}

theorem mem_pooled (h : iv ∈ job.itemVects w) : iv ∈ pooled job :=
  List.mem_flatMap.mpr ⟨w, List.mem_finRange w, h⟩

theorem Consistent.eq_of_id {jv : Str × List D} (hjob : Consistent job) (hiv : iv ∈ pooled job)
    (hjv : jv ∈ pooled job) (h : iv.1 = jv.1) : iv = jv :=
  List.inj_on_of_nodup_map hjob.nodup hiv hjv h

theorem Consistent.nodup_items (hjob : Consistent job) (w : Fin n) :
    ((job.itemVects w).map Prod.fst).Nodup := by
  apply List.Nodup.sublist _ hjob.nodup
  exact (List.sublist_flatten_of_mem (List.mem_map_of_mem (List.mem_finRange w))).map Prod.fst

/-- The items of two workers have different ids. -/
theorem Consistent.id_ne {v : Fin n} {jv : Str × List D} (hjob : Consistent job)
    (hiv : iv ∈ job.itemVects w) (hjv : jv ∈ job.itemVects v) (hne : v ≠ w) : iv.1 ≠ jv.1 := by
  have hnodup := List.Nodup.of_map Prod.fst hjob.nodup
  rw [pooled, List.nodup_flatMap] at hnodup
  have hsymm : Std.Symm (Function.onFun List.Disjoint job.itemVects) := ⟨fun _ _ h => h.symm⟩
  have hdisj := hnodup.2.forall (List.mem_finRange v) (List.mem_finRange w) hne
  intro hid
  have heq := hjob.eq_of_id (mem_pooled hiv) (mem_pooled hjv) hid
  subst heq
  exact hdisj hjv hiv

/-- No two writes under one key differ. -/
theorem Consistent.pushes_agree {v : Fin n} {kv kv' : Str × Packed D} (hjob : Consistent job)
    (h : kv ∈ pushes job w) (h' : kv' ∈ pushes job v) (hkey : kv'.1 = kv.1) : kv'.2 = kv.2 := by
  rw [pushes, List.mem_append, List.mem_map, List.mem_singleton] at h h'
  rcases h with ⟨iv, hiv, rfl⟩ | rfl <;> rcases h' with ⟨jv, hjv, rfl⟩ | rfl
  · rw [hjob.eq_of_id (mem_pooled hjv) (mem_pooled hiv) hkey]
  · exact absurd hkey.symm (hjob.ne_bagKey iv (mem_pooled hiv) v)
  · exact absurd hkey (hjob.ne_bagKey jv (mem_pooled hjv) w)
  · have hrank : v = w := Fin.ext (toStr_injective (List.append_cancel_left hkey))
    rw [hrank]

theorem value_vect {servers : Servers m (Packed D)} (h : Written job getServer servers)
    (hiv : iv ∈ pooled job) : servers.value getServer iv.1 = some (.vect iv.2) := by
  obtain ⟨w, -, hw⟩ := List.mem_flatMap.mp hiv
  exact h w (iv.1, .vect iv.2) (List.mem_append_left _ (List.mem_map_of_mem hw))

theorem value_bag {servers : Servers m (Packed D)} (h : Written job getServer servers)
    (w : Fin n) : servers.value getServer (bagKey w) =
      some (.bag ((job.itemVects w).map Prod.fst)) :=
  h w _ (List.mem_append_right _ List.mem_cons_self)

/-- A vector that is there is read. -/
theorem read_vect (lib : Libs (Packed D)) {servers : Servers m (Packed D)}
    (h : Written job getServer servers) (hiv : iv ∈ pooled job) :
    readOk (Servers.handle lib servers (.paracelRead getServer iv.1)).1 ∧
      (readVal (Servers.handle lib servers (.paracelRead getServer iv.1)).1).toVect = iv.2 := by
  rw [Servers.readOk_read, Servers.readVal_read, value_vect h hiv]
  exact ⟨rfl, rfl⟩

/-- A list of ids that is there is read. -/
theorem read_bag (lib : Libs (Packed D)) {servers : Servers m (Packed D)}
    (h : Written job getServer servers) (w : Fin n) :
    readOk (Servers.handle lib servers (.paracelRead getServer (bagKey w))).1 ∧
      (readVal (Servers.handle lib servers (.paracelRead getServer (bagKey w))).1).toBag =
        (job.itemVects w).map Prod.fst := by
  rw [Servers.readOk_read, Servers.readVal_read, value_bag h w]
  exact ⟨rfl, rfl⟩

/-- Of the pairs with some items, those of one of them. -/
theorem filter_pairs {items others : Vects D} (hnodup : (items.map Prod.fst).Nodup)
    (hiv : iv ∈ items) :
    (items.flatMap fun iv => others.map fun jv => (iv, jv)).filter (fun p => p.1.1 = iv.1) =
      others.map fun jv => (iv, jv) := by
  have hown : ∀ kv : Str × List D, (others.map fun jv => (kv, jv)).filter
      (fun p => p.1.1 = iv.1) = if kv.1 = iv.1 then others.map fun jv => (kv, jv) else [] := by
    intro kv
    rw [List.filter_map]
    by_cases hid : kv.1 = iv.1 <;> simp [hid, Function.comp_def]
  rw [List.filter_flatMap]
  simp only [hown]
  induction items with
  | nil => cases hiv
  | cons kv items ih =>
      rw [List.map_cons, List.nodup_cons] at hnodup
      rw [List.flatMap_cons]
      rcases List.mem_cons.mp hiv with rfl | hiv
      · have hothers : (items.flatMap fun kv =>
            if kv.1 = iv.1 then others.map fun jv => (kv, jv) else []) = [] := by
          apply List.flatMap_eq_nil_iff.mpr
          intro kv hkv
          exact if_neg (ne_of_notMem_ids hkv hnodup.1)
        rw [if_pos rfl, hothers, List.append_nil]
      · have hne := ne_of_notMem_ids hiv hnodup.1
        rw [if_neg hne.symm, List.nil_append]
        exact ih hnodup.2 hiv

theorem pairsOf_ids (w nodeId : Fin n) :
    pairsOf job w ((job.itemVects nodeId).map Prod.fst) =
      ((job.itemVects w).flatMap fun iv => (job.itemVects nodeId).map fun jv => (iv, jv)).map
        fun p => (p.1, p.2.1) := by
  rw [pairsOf, List.map_flatMap]
  simp only [List.map_map]
  rfl

theorem length_pairsOf (w : Fin n) (idBag : List Str) :
    (pairsOf job w idBag).length = (job.itemVects w).length * idBag.length := by
  simp [pairsOf, List.length_flatMap]

/-! ### How many steps are left -/

/-- A bound on the steps that a worker has ahead of it. -/
def ahead (job : Job D n) (w : Fin n) : Loc D n → Nat
  | .push todo => todo.length + readsAhead (otherNodes w) + 5
  | .learned _ => readsAhead (otherNodes w) + 4
  | .pull todo nodes _ => todo.length + readsAhead nodes + 3
  | .topped _ => 1
  | .done _ | .aborted => 0
where
  /-- The reads for some nodes. -/
  readsAhead (nodes : List (Fin n)) : Nat :=
    (nodes.map fun nodeId => (job.itemVects w).length * (job.itemVects nodeId).length + 1).sum

theorem sum_ahead_lt (hn : 0 < n) {loc loc' : Fin n → Loc D n}
    (h : ∀ w, ahead job w (loc' w) < ahead job w (loc w)) :
    ∑ w, ahead job w (loc' w) < ∑ w, ahead job w (loc w) :=
  Finset.sum_lt_sum_of_nonempty ⟨⟨0, hn⟩, Finset.mem_univ _⟩ fun w _ => h w

theorem ahead_top (job : Job D n) (w : Fin n) (result : Results D) :
    ahead job w (top job w result) ≤ 1 := by
  rw [Similarity.top]
  split
  · exact Nat.le_refl 1
  · exact Nat.zero_le 1

/-! ### What the workers collect -/

variable [Zero D] [Add D] [Mul D]

variable (job) in
/-- The products of an item of worker `w` with those of all others, in the order in which
    `limit_storage` meets them. -/
def collected (w : Fin n) (iv : Str × List D) : List (Str × D) :=
  neighbours (job.itemVects w) iv ++
    (otherNodes w).flatMap fun nodeId => (job.itemVects nodeId).map (score iv)

variable (job) in
/-- A worker among its reads, with the items `ps` and the nodes `nodes` ahead of it. -/
def Pulling (w : Fin n) (ps : List ((Str × List D) × (Str × List D))) (nodes : List (Fin n))
    (result : Results D) : Prop :=
  (∀ p ∈ ps, p.2 ∈ pooled job) ∧ ∀ iv ∈ job.itemVects w,
    entry result iv.1 ++ (ps.filter fun p => p.1.1 = iv.1).map (fun p => score p.1 p.2) ++
      nodes.flatMap (fun nodeId => (job.itemVects nodeId).map (score iv)) = collected job w iv

variable (job) in
/-- The entry of each item has its products with all others. -/
def Complete (w : Fin n) (result : Results D) : Prop :=
  ∀ iv ∈ job.itemVects w, (entry result iv.1).Perm (neighbours (pooled job) iv)

variable (job) in
/-- The entry of each item has the first ones of them, sorted. -/
def Selected (w : Fin n) (result : Results D) : Prop :=
  ∀ iv ∈ job.itemVects w, ∃ r, r.Perm (neighbours (pooled job) iv) ∧ job.ktop ≤ r.length ∧
    result.lookup iv.1 = some ((job.sort r).take job.ktop)

/-- All products but the one with itself are collected. -/
theorem collected_perm (hjob : Consistent job) (hiv : iv ∈ job.itemVects w) :
    (collected job w iv).Perm (neighbours (pooled job) iv) := by
  have hparts : neighbours (pooled job) iv =
      (List.finRange n).flatMap fun v => neighbours (job.itemVects v) iv := by
    rw [neighbours, pooled, List.filter_flatMap, List.map_flatMap]
    rfl
  have hothers : ((otherNodes w).flatMap fun v => (job.itemVects v).map (score iv)) =
      (otherNodes w).flatMap fun v => neighbours (job.itemVects v) iv := by
    apply List.flatMap_congr
    intro v hv
    have hne : v ≠ w := by simpa [otherNodes] using hv
    rw [neighbours, List.filter_eq_self.mpr]
    intro jv hjv
    exact decide_eq_true (hjob.id_ne hiv hjv hne)
  have hranks : (w :: otherNodes w).Perm (List.finRange n) := by
    have herase : otherNodes w = (List.finRange n).erase w := by
      rw [otherNodes, (List.nodup_finRange n).erase_eq_filter]
      apply List.filter_congr
      intro v _
      by_cases hv : v = w <;> simp [hv]
    rw [herase]
    exact (List.perm_cons_erase (List.mem_finRange w)).symm
  rw [hparts, collected, hothers]
  exact hranks.flatMap_right fun v => neighbours (job.itemVects v) iv

/-- How many others an item has. -/
theorem length_neighbours (hjob : Consistent job) (hiv : iv ∈ pooled job) :
    (neighbours (pooled job) iv).length + 1 = (pooled job).length := by
  obtain ⟨before, behind, hsplit⟩ := List.append_of_mem hiv
  have hnodup := hjob.nodup
  rw [hsplit, List.map_append, List.map_cons, List.nodup_middle, List.nodup_cons,
    ← List.map_append] at hnodup
  have hkeep : (before ++ behind).filter (fun jv => iv.1 ≠ jv.1) = before ++ behind := by
    apply List.filter_eq_self.mpr
    intro jv hjv
    exact decide_eq_true (ne_of_notMem_ids hjv hnodup.1).symm
  rw [neighbours, List.length_map, hsplit, List.filter_append,
    List.filter_cons_of_neg (by simp), ← List.filter_append, hkeep, List.length_append,
    List.length_append, List.length_cons]
  rfl

/-- Behind `local_learning` all other workers are ahead. -/
theorem pulling_start (hjob : Consistent job) (w : Fin n) :
    Pulling job w [] (otherNodes w)
      (localLearning (job.itemVects w) (job.itemVects w) ∅) := by
  refine ⟨by simp, ?_⟩
  intro iv hiv
  rw [entry_localLearning (hjob.nodup_items w) hiv, collected]
  simp [entry]

/-- A vector is read. -/
theorem Pulling.vect {p : (Str × List D) × (Str × List D)}
    {ps : List ((Str × List D) × (Str × List D))} {nodes : List (Fin n)} {result : Results D}
    (h : Pulling job w (p :: ps) nodes result) :
    Pulling job w ps nodes (pushBack result p.1.1 (score p.1 p.2)) := by
  refine ⟨fun q hq => h.1 q (List.mem_cons_of_mem p hq), ?_⟩
  intro iv hiv
  rw [← h.2 iv hiv, entry_pushBack, List.filter_cons]
  by_cases hid : p.1.1 = iv.1
  · simp [hid]
  · simp [hid, Ne.symm hid]

/-- A list of ids is read. -/
theorem Pulling.bag {nodeId : Fin n} {nodes : List (Fin n)} {result : Results D}
    (hjob : Consistent job) (h : Pulling job w [] (nodeId :: nodes) result) :
    Pulling job w
      ((job.itemVects w).flatMap fun iv => (job.itemVects nodeId).map fun jv => (iv, jv))
      nodes result := by
  constructor
  · intro p hp
    obtain ⟨iv, -, hp⟩ := List.mem_flatMap.mp hp
    obtain ⟨jv, hjv, rfl⟩ := List.mem_map.mp hp
    exact mem_pooled hjv
  · intro iv hiv
    rw [← h.2 iv hiv, filter_pairs (hjob.nodup_items w) hiv, List.map_map, List.filter_nil,
      List.map_nil, List.append_nil, List.flatMap_cons, List.append_assoc]
    rfl

/-- All reads are done. -/
theorem Pulling.complete {result : Results D} (hjob : Consistent job)
    (h : Pulling job w [] [] result) : Complete job w result := by
  intro iv hiv
  have hentry := h.2 iv hiv
  rw [List.filter_nil, List.map_nil, List.append_nil, List.flatMap_nil, List.append_nil] at hentry
  rw [hentry]
  exact collected_perm hjob hiv

/-! ### Selecting -/

/-- `select_top` sorts products without a `NaN`. -/
structure Sortable [LE D] (job : Job D n) : Prop where
  sorts : Sorts job.sort
  comparable : ∀ iv ∈ pooled job, Comparable (neighbours (pooled job) iv)

theorem Sortable.perm [LE D] (h : Sortable job) (hiv : iv ∈ pooled job) {r : List (Str × D)}
    (hr : r.Perm (neighbours (pooled job) iv)) : (job.sort r).Perm r :=
  h.sorts.perm r ((h.comparable iv hiv).perm hr)

theorem Sortable.pairwise [LE D] (h : Sortable job) (hiv : iv ∈ pooled job)
    {r : List (Str × D)} (hr : r.Perm (neighbours (pooled job) iv)) :
    (job.sort r).Pairwise fun a b => b.2 ≤ a.2 :=
  h.sorts.pairwise r ((h.comparable iv hiv).perm hr)

theorem Complete.top {result : Results D} [LE D] (hjob : Consistent job)
    (hsort : Sortable job) (h : Complete job w result) :
    (∃ result', top job w result = .topped result' ∧ Selected job w result') ∨
      top job w result = .aborted ∧ (pooled job).length ≤ job.ktop := by
  rw [Similarity.top]
  cases hselect : selectTop job.sort job.ktop (job.itemVects w) result with
  | some result' =>
      refine .inl ⟨result', rfl, ?_⟩
      intro iv hiv
      obtain ⟨hlen, hlookup⟩ := (selectTop_eq_some (hjob.nodup_items w) hselect).1 iv hiv
      refine ⟨entry result iv.1, h iv hiv, ?_, hlookup⟩
      rwa [(hsort.perm (mem_pooled hiv) (h iv hiv)).length_eq] at hlen
  | none =>
      refine .inr ⟨rfl, ?_⟩
      obtain ⟨iv, hiv, hshort⟩ := exists_short_of_selectTop (hjob.nodup_items w) hselect
      have hlen := length_neighbours hjob (mem_pooled hiv)
      rw [(hsort.perm (mem_pooled hiv) (h iv hiv)).length_eq, (h iv hiv).length_eq] at hshort
      omega

/-- `local_learning` with the items of all workers. -/
theorem complete_all (hjob : Consistent job) (w : Fin n) :
    Complete job w (localLearning (job.itemVects w) (job.allItemVects w) ∅) := by
  intro iv hiv
  rw [entry_localLearning (hjob.nodup_items w) hiv]
  exact ((hjob.all w).filter _).map _

/-- What is left in the end: the first `ktop` of the products with all others, of which none that
    was dropped is greater. -/
def MostSimilar [LE D] (job : Job D n) (w : Fin n) (result : Results D) : Prop :=
  ∀ iv ∈ job.itemVects w, ∃ r, result.lookup iv.1 = some r ∧ r.length = job.ktop ∧
    r.Pairwise (fun a b => b.2 ≤ a.2) ∧
      Largest Prod.snd job.ktop (neighbours (pooled job) iv : Multiset (Str × D)) r

theorem Selected.mostSimilar [LE D] {result : Results D} (hsort : Sortable job)
    (h : Selected job w result) : MostSimilar job w result := by
  intro iv hiv
  obtain ⟨r, hperm, hlen, hlookup⟩ := h iv hiv
  have hsorted := hsort.perm (mem_pooled hiv) hperm
  have hdesc := hsort.pairwise (mem_pooled hiv) hperm
  refine ⟨_, hlookup, ?_, hdesc.sublist (List.take_sublist ..), ?_⟩
  · rw [List.length_take, hsorted.length_eq]
    exact Nat.min_eq_left hlen
  · rw [← Multiset.coe_eq_coe.mpr (hsorted.trans hperm)]
    exact largest_take hdesc job.ktop

/-! ### All workers -/

/-- The workers once they have selected. -/
inductive Ended (job : Job D n) (loc : Fin n → Loc D n) : Prop where
  | topped (h : ∀ w, (∃ result, loc w = .topped result ∧ Selected job w result) ∨
      loc w = .aborted ∧ (pooled job).length ≤ job.ktop)
  | done (h : ∀ w, ∃ result, loc w = .done result ∧ Selected job w result)

/-- Where the workers of `limit_storage` are, and what the servers then hold. -/
inductive Stage (job : Job D n) (getServer : Str → Fin m)
    (st : Spmd.State n (Loc D n) (SrvCall m (Packed D)) (Servers m (Packed D))) : Prop where
  | push (h : ∀ w, ∃ sent todo, st.loc w = .push todo ∧ sent ++ todo = pushes job w ∧
      ∀ kv ∈ sent, st.store.value getServer kv.1 = some kv.2)
  | learned (hstore : Written job getServer st.store)
      (h : ∀ w, st.loc w = .learned (localLearning (job.itemVects w) (job.itemVects w) ∅))
  | pull (hstore : Written job getServer st.store)
      (h : ∀ w, ∃ ps nodes result, st.loc w = .pull (ps.map fun p => (p.1, p.2.1)) nodes result ∧
        Pulling job w ps nodes result)
  | ended (h : Ended job st.loc)

/-- The same for `default`, which leaves the servers alone. -/
inductive DefaultStage (job : Job D n) (loc : Fin n → Loc D n) : Prop where
  | push (h : ∀ w, loc w = .push [])
  | learned (h : ∀ w, ∃ result, loc w = .learned result ∧ Complete job w result)
  | ended (h : Ended job loc)

variable {lib : Libs (Packed D)} {op : SrvCall m (Packed D)}
  {next : Option (Reply (Packed D)) → Loc D n} {loc : Fin n → Loc D n}
  {st st' : Spmd.State n (Loc D n) (SrvCall m (Packed D)) (Servers m (Packed D))}

/-- What is known of a worker that has selected. -/
theorem Ended.late (h : Ended job loc) (w : Fin n) : (∃ result, loc w = .topped result) ∨
    (∃ result, loc w = .done result) ∨ loc w = .aborted := by
  cases h with
  | topped h =>
      rcases h w with ⟨result, hloc, -⟩ | ⟨hloc, -⟩
      · exact .inl ⟨result, hloc⟩
      · exact .inr (.inr hloc)
  | done h =>
      obtain ⟨result, hloc, -⟩ := h w
      exact .inr (.inl ⟨result, hloc⟩)

/-- The barrier behind `select_top`; a worker that was stopped does not come to it. -/
theorem Ended.sync (act : Fin n → Loc D n →
      Spmd.Action (Loc D n) (SrvCall m (Packed D)) (Option (Reply (Packed D))))
    {old : Fin n → Loc D n} (hn : 0 < n) (h : Ended job old)
    (hact : ∀ w, act w (old w) = .sync (loc w))
    (htopped : ∀ w result, act w (.topped result) = .sync (.done result))
    (hdone : ∀ w result, act w (.done result) = .halt) (haborted : ∀ w, act w .aborted = .halt) :
    Ended job loc ∧ ∑ w, ahead job w (loc w) < ∑ w, ahead job w (old w) := by
  have hstep : ∀ w, ∃ result, old w = .topped result ∧ loc w = .done result := by
    intro w
    have hw := hact w
    rcases h.late w with ⟨result, hold⟩ | ⟨result, hold⟩ | hold
    · rw [hold, htopped] at hw
      exact ⟨result, hold, (Spmd.Action.sync.inj hw).symm⟩
    · rw [hold, hdone] at hw
      cases hw
    · rw [hold, haborted] at hw
      cases hw
  constructor
  · apply Ended.done
    intro w
    obtain ⟨result, hold, hloc⟩ := hstep w
    cases h with
    | topped h =>
        rcases h w with ⟨result', hold', hselected⟩ | ⟨hold', -⟩
        · rw [hold] at hold'
          cases hold'
          exact ⟨result, hloc, hselected⟩
        · rw [hold] at hold'
          cases hold'
    | done h =>
        obtain ⟨result', hold', -⟩ := h w
        rw [hold] at hold'
        cases hold'
  · apply sum_ahead_lt hn
    intro w
    obtain ⟨result, hold, hloc⟩ := hstep w
    rw [hold, hloc]
    exact Nat.zero_lt_one

/-- `select_top` on all workers. -/
theorem Ended.top [LE D] (hjob : Consistent job) (hsort : Sortable job)
    (h : ∀ w, ∃ result, loc w = top job w result ∧ Complete job w result) : Ended job loc := by
  apply Ended.topped
  intro w
  obtain ⟨result, hloc, hcomplete⟩ := h w
  rw [hloc]
  exact hcomplete.top hjob hsort

/-- A write. -/
theorem Stage.write (hjob : Consistent job) {kv : Str × Packed D} {todo : List (Str × Packed D)}
    (h : ∀ w, ∃ sent todo, st.loc w = .push todo ∧ sent ++ todo = pushes job w ∧
      ∀ kv ∈ sent, st.store.value getServer kv.1 = some kv.2)
    (hloc : st.loc w = .push (kv :: todo)) (log : List (Fin n × SrvCall m (Packed D))) :
    Stage job getServer {
      loc := Function.update st.loc w (.push todo)
      store := (Servers.handle lib st.store (.paracelWrite getServer kv.1 kv.2)).2
      log := log } := by
  obtain ⟨sent, todo', hloc', hsplit, hsent⟩ := h w
  rw [hloc] at hloc'
  cases hloc'
  have hkv : kv ∈ pushes job w := hsplit ▸ List.mem_append_right sent List.mem_cons_self
  apply Stage.push
  apply Servers.exists_sent_write h hsplit hsent
  intro v kv' hkv' hkey
  exact hjob.pushes_agree hkv hkv' hkey

/-- A read leaves the servers as they are, and the other workers where they are. -/
theorem Stage.read (hstore : Written job getServer st.store)
    (h : ∀ w, ∃ ps nodes result, st.loc w = .pull (ps.map fun p => (p.1, p.2.1)) nodes result ∧
      Pulling job w ps nodes result)
    {ps : List ((Str × List D) × (Str × List D))} {nodes : List (Fin n)} {result : Results D}
    (hpulling : Pulling job w ps nodes result) (key : Str)
    (log : List (Fin n × SrvCall m (Packed D))) :
    Stage job getServer {
      loc := Function.update st.loc w (.pull (ps.map fun p => (p.1, p.2.1)) nodes result)
      store := (Servers.handle lib st.store (.paracelRead getServer key)).2
      log := log } := by
  rw [Servers.handle_read_snd]
  refine .pull hstore fun v => ?_
  by_cases hv : v = w
  · subst hv
    exact ⟨ps, nodes, result, Function.update_self .., hpulling⟩
  · obtain ⟨ps', nodes', result', hloc', hpulling'⟩ := h v
    exact ⟨ps', nodes', result', (Function.update_of_ne hv ..).trans hloc', hpulling'⟩

/-- A write, or a read. -/
theorem Stage.call (lib : Libs (Packed D)) (hjob : Consistent job) (h : Stage job getServer st)
    (hact : limitStorage job getServer w (st.loc w) = .call op next) :
    Stage job getServer {
        loc := Function.update st.loc w (next (Servers.handle lib st.store op).1)
        store := (Servers.handle lib st.store op).2
        log := st.log ++ [(w, op)] } ∧
      ahead job w (next (Servers.handle lib st.store op).1) < ahead job w (st.loc w) := by
  cases h with
  | push h =>
      obtain ⟨sent, todo, hloc, -⟩ := h w
      rw [hloc] at hact
      cases todo with
      | nil =>
          rw [limitStorage] at hact
          cases hact
      | cons kv todo =>
          rw [limitStorage] at hact
          cases hact
          refine ⟨Stage.write hjob h hloc _, ?_⟩
          rw [hloc, ahead, ahead, List.length_cons]
          omega
  | learned hstore h =>
      rw [h w, limitStorage] at hact
      cases hact
  | pull hstore h =>
      obtain ⟨ps, nodes, result, hloc, hpulling⟩ := h w
      rw [hloc] at hact
      cases ps with
      | cons p ps =>
          rw [List.map_cons, limitStorage] at hact
          cases hact
          obtain ⟨hok, hread⟩ := read_vect lib hstore (hpulling.1 p List.mem_cons_self)
          dsimp only
          rw [if_pos hok, hread]
          refine ⟨Stage.read hstore h hpulling.vect _ _, ?_⟩
          rw [hloc, ahead, ahead, List.map_cons, List.length_cons]
          omega
      | nil =>
          cases nodes with
          | nil =>
              rw [List.map_nil, limitStorage] at hact
              cases hact
          | cons nodeId nodes =>
              rw [List.map_nil, limitStorage] at hact
              cases hact
              obtain ⟨hok, hread⟩ := read_bag lib hstore nodeId
              dsimp only
              rw [if_pos hok, hread]
              constructor
              · rw [pairsOf_ids]
                exact Stage.read hstore h (hpulling.bag hjob) _ _
              · rw [hloc, ahead, ahead, length_pairsOf, ahead.readsAhead, ahead.readsAhead,
                  List.map_cons, List.sum_cons, List.length_map, List.map_nil, List.length_nil]
                omega
  | ended h =>
      rcases h.late w with ⟨result, hloc⟩ | ⟨result, hloc⟩ | hloc <;>
        (rw [hloc, limitStorage] at hact; cases hact)

/-- All writes are made in front of the first barrier. -/
theorem push_sync {todo : List (Str × Packed D)} {l : Loc D n}
    (h : limitStorage job getServer w (.push todo) = .sync l) :
    todo = [] ∧ l = .learned (localLearning (job.itemVects w) (job.itemVects w) ∅) := by
  cases todo with
  | nil =>
      cases h
      exact ⟨rfl, rfl⟩
  | cons kv todo => cases h

/-- All reads are made in front of the third. -/
theorem pull_sync {todo : List ((Str × List D) × Str)} {nodes : List (Fin n)}
    {result : Results D} {l : Loc D n}
    (h : limitStorage job getServer w (.pull todo nodes result) = .sync l) :
    todo = [] ∧ nodes = [] ∧ l = top job w result := by
  cases todo with
  | cons p todo => cases h
  | nil =>
      cases nodes with
      | cons nodeId nodes => cases h
      | nil =>
          cases h
          exact ⟨rfl, rfl, rfl⟩

/-- A barrier. -/
theorem Stage.sync [LE D] (hn : 0 < n) (hjob : Consistent job) (hsort : Sortable job)
    (h : Stage job getServer st)
    (hact : ∀ w, limitStorage job getServer w (st.loc w) = .sync (loc w)) :
    Stage job getServer { st with loc := loc } ∧
      ∑ v, ahead job v (loc v) < ∑ v, ahead job v (st.loc v) := by
  cases h with
  | push h =>
      have hnext : ∀ w, st.loc w = .push [] ∧
          loc w = .learned (localLearning (job.itemVects w) (job.itemVects w) ∅) ∧
          ∀ kv ∈ pushes job w, st.store.value getServer kv.1 = some kv.2 := by
        intro w
        obtain ⟨sent, todo, hloc, hsplit, hsent⟩ := h w
        have hw := hact w
        rw [hloc] at hw
        obtain ⟨rfl, hnext⟩ := push_sync hw
        rw [List.append_nil] at hsplit
        exact ⟨hloc, hnext, hsplit ▸ hsent⟩
      refine ⟨.learned (fun w => (hnext w).2.2) fun w => (hnext w).2.1, sum_ahead_lt hn ?_⟩
      intro w
      rw [(hnext w).1, (hnext w).2.1, ahead, ahead]
      omega
  | learned hstore h =>
      have hnext : ∀ w, loc w = .pull [] (otherNodes w)
          (localLearning (job.itemVects w) (job.itemVects w) ∅) := by
        intro w
        have hact := hact w
        rw [h w, limitStorage] at hact
        exact (Spmd.Action.sync.inj hact).symm
      refine ⟨.pull hstore fun w => ⟨[], otherNodes w, _, hnext w, pulling_start hjob w⟩,
        sum_ahead_lt hn ?_⟩
      intro w
      rw [h w, hnext w, ahead, ahead, List.length_nil]
      omega
  | pull hstore h =>
      have hnext : ∀ w, ∃ result, st.loc w = .pull [] [] result ∧ loc w = top job w result ∧
          Complete job w result := by
        intro w
        obtain ⟨ps, nodes, result, hloc, hpulling⟩ := h w
        have hw := hact w
        rw [hloc] at hw
        obtain ⟨hps, rfl, hnext⟩ := pull_sync hw
        obtain rfl := List.map_eq_nil_iff.mp hps
        exact ⟨result, hloc, hnext, hpulling.complete hjob⟩
      refine ⟨.ended (.top hjob hsort fun w => ?_), sum_ahead_lt hn fun w => ?_⟩
      · obtain ⟨result, -, hloc, hcomplete⟩ := hnext w
        exact ⟨result, hloc, hcomplete⟩
      · obtain ⟨result, hold, hloc, -⟩ := hnext w
        have htop := ahead_top job w result
        rw [hold, hloc, ahead]
        omega
  | ended h =>
      obtain ⟨hended, hfall⟩ := h.sync (limitStorage job getServer) hn hact (fun _ _ => rfl)
        (fun _ _ => rfl) fun _ => rfl
      exact ⟨.ended hended, hfall⟩

theorem limitStorage_ne_allreduce {l : Loc D n} {v : Int} {next : Int → Loc D n} :
    limitStorage job getServer w l ≠ .allreduce v next := by
  intro h
  cases l with
  | push todo => cases todo <;> cases h
  | pull todo nodes result =>
      cases todo with
      | cons p todo => cases h
      | nil => cases nodes <;> cases h
  | learned | topped | done | aborted => cases h

/-- One step of `limit_storage`. -/
theorem Stage.step [LE D] (hn : 0 < n) (hjob : Consistent job) (hsort : Sortable job)
    {l : Spmd.Label n} (h : Stage job getServer st)
    (hstep : Spmd.step (limitStorage job getServer) (Servers.handle lib) st l = some st') :
    Stage job getServer st' ∧
      ∑ v, ahead job v (st'.loc v) < ∑ v, ahead job v (st.loc v) := by
  cases Spmd.step_cases hstep with
  | call w op next hact =>
      obtain ⟨hstage, hfall⟩ := h.call lib hjob hact
      exact ⟨hstage, Spmd.sum_update_lt (ahead job) hfall⟩
  | sync loc hact => exact h.sync hn hjob hsort hact
  | allreduce v next hact => exact absurd (hact ⟨0, hn⟩) limitStorage_ne_allreduce

theorem byDefault_ne_call {l : Loc D n} : byDefault job w l ≠ .call op next := by
  intro h
  cases l <;> cases h

theorem byDefault_ne_allreduce {l : Loc D n} {v : Int} {next : Int → Loc D n} :
    byDefault job w l ≠
      (.allreduce v next : Spmd.Action (Loc D n) (SrvCall m (Packed D)) _) := by
  intro h
  cases l <;> cases h

/-- A barrier of `default`. -/
theorem DefaultStage.sync [LE D] (hn : 0 < n) (hjob : Consistent job)
    (hsort : Sortable job) {old : Fin n → Loc D n} (h : DefaultStage job old)
    (hact : ∀ w, byDefault job w (old w) =
      (.sync (loc w) : Spmd.Action (Loc D n) (SrvCall m (Packed D)) _)) :
    DefaultStage job loc ∧ ∑ v, ahead job v (loc v) < ∑ v, ahead job v (old v) := by
  cases h with
  | push h =>
      have hnext : ∀ w,
          loc w = .learned (localLearning (job.itemVects w) (job.allItemVects w) ∅) := by
        intro w
        have hact := hact w
        rw [h w, byDefault] at hact
        exact (Spmd.Action.sync.inj hact).symm
      refine ⟨.learned fun w => ⟨_, hnext w, complete_all hjob w⟩, sum_ahead_lt hn fun w => ?_⟩
      rw [h w, hnext w, ahead, ahead]
      omega
  | learned h =>
      have hnext : ∀ w, ∃ result, old w = .learned result ∧ loc w = top job w result ∧
          Complete job w result := by
        intro w
        obtain ⟨result, hloc, hcomplete⟩ := h w
        have hact := hact w
        rw [hloc, byDefault] at hact
        exact ⟨result, hloc, (Spmd.Action.sync.inj hact).symm, hcomplete⟩
      refine ⟨.ended (.top hjob hsort fun w => ?_), sum_ahead_lt hn fun w => ?_⟩
      · obtain ⟨result, -, hloc, hcomplete⟩ := hnext w
        exact ⟨result, hloc, hcomplete⟩
      · obtain ⟨result, hold, hloc, -⟩ := hnext w
        have htop := ahead_top job w result
        rw [hold, hloc, ahead]
        omega
  | ended h =>
      obtain ⟨hended, hfall⟩ := h.sync (byDefault (m := m) job) hn hact (fun _ _ => rfl)
        (fun _ _ => rfl) fun _ => rfl
      exact ⟨.ended hended, hfall⟩

/-- One step of `default`. -/
theorem DefaultStage.step [LE D] (hn : 0 < n) (hjob : Consistent job)
    (hsort : Sortable job) {l : Spmd.Label n} (h : DefaultStage job st.loc)
    (hstep : Spmd.step (byDefault job) (Servers.handle lib) st l = some st') :
    DefaultStage job st'.loc ∧
      ∑ v, ahead job v (st'.loc v) < ∑ v, ahead job v (st.loc v) := by
  cases Spmd.step_cases hstep with
  | call w op next hact => exact absurd hact byDefault_ne_call
  | sync loc hact => exact h.sync hn hjob hsort hact
  | allreduce v next hact => exact absurd (hact ⟨0, hn⟩) byDefault_ne_allreduce

/-- Where there are enough items, no worker is stopped. -/
theorem Ended.goes (act : Fin n → Loc D n →
      Spmd.Action (Loc D n) (SrvCall m (Packed D)) (Option (Reply (Packed D))))
    (h : Ended job loc) (hktop : job.ktop < (pooled job).length)
    (htopped : ∀ w result, act w (.topped result) = .sync (.done result)) :
    (∀ w, ∃ l, act w (loc w) = .sync l) ∨ ∀ w, ∃ result, loc w = .done result := by
  cases h with
  | topped h =>
      refine .inl fun w => ?_
      rcases h w with ⟨result, hloc, -⟩ | ⟨-, hle⟩
      · exact ⟨_, by rw [hloc, htopped]⟩
      · omega
  | done h =>
      refine .inr fun w => ?_
      obtain ⟨result, hloc, -⟩ := h w
      exact ⟨result, hloc⟩

theorem Ended.selected (h : Ended job loc) {result : Results D} (hloc : loc w = .done result) :
    Selected job w result := by
  cases h with
  | topped h =>
      rcases h w with ⟨result', hloc', -⟩ | ⟨hloc', -⟩ <;>
        (rw [hloc] at hloc'; cases hloc')
  | done h =>
      obtain ⟨result', hloc', hselected⟩ := h w
      rw [hloc] at hloc'
      cases hloc'
      exact hselected

/-- The end of `limit_storage`. -/
theorem Stage.selected (h : Stage job getServer st) {result : Results D}
    (hloc : st.loc w = .done result) : Selected job w result := by
  cases h with
  | push h =>
      obtain ⟨sent, todo, hloc', -⟩ := h w
      rw [hloc] at hloc'
      cases hloc'
  | learned hstore h =>
      rw [h w] at hloc
      cases hloc
  | pull hstore h =>
      obtain ⟨ps, nodes, result', hloc', -⟩ := h w
      rw [hloc] at hloc'
      cases hloc'
  | ended h => exact h.selected hloc

/-- The end of `default`. -/
theorem DefaultStage.selected (h : DefaultStage job loc) {result : Results D}
    (hloc : loc w = .done result) : Selected job w result := by
  cases h with
  | push h =>
      rw [h w] at hloc
      cases hloc
  | learned h =>
      obtain ⟨result', hloc', -⟩ := h w
      rw [hloc] at hloc'
      cases hloc'
  | ended h => exact h.selected hloc

/-- Until all workers are done some step of `limit_storage` is possible. -/
theorem Stage.goes (h : Stage job getServer st) (hktop : job.ktop < (pooled job).length)
    (hstuck : Stuck (Spmd.step (limitStorage job getServer) (Servers.handle lib)) st) :
    ∀ w, ∃ result, st.loc w = .done result := by
  have hnot : ¬∀ w, (∃ op next, limitStorage job getServer w (st.loc w) = .call op next) ∨
      ∃ l, limitStorage job getServer w (st.loc w) = .sync l :=
    fun hall => Spmd.not_stuck_of_call_or_sync hall hstuck
  cases h with
  | push h =>
      refine absurd (fun w => ?_) hnot
      obtain ⟨sent, todo, hloc, -⟩ := h w
      rw [hloc]
      cases todo with
      | nil => exact .inr ⟨_, rfl⟩
      | cons kv todo => exact .inl ⟨_, _, rfl⟩
  | learned hstore h =>
      refine absurd (fun w => ?_) hnot
      rw [h w]
      exact .inr ⟨_, rfl⟩
  | pull hstore h =>
      refine absurd (fun w => ?_) hnot
      obtain ⟨ps, nodes, result, hloc, -⟩ := h w
      rw [hloc]
      cases ps with
      | cons p ps => exact .inl ⟨_, _, rfl⟩
      | nil =>
          cases nodes with
          | nil => exact .inr ⟨_, rfl⟩
          | cons nodeId nodes => exact .inl ⟨_, _, rfl⟩
  | ended h =>
      rcases h.goes (limitStorage job getServer) hktop (fun _ _ => rfl) with hsync | hdone
      · exact absurd (fun w => .inr (hsync w)) hnot
      · exact hdone

/-- Until all workers are done some step of `default` is possible. -/
theorem DefaultStage.goes (h : DefaultStage job st.loc) (hktop : job.ktop < (pooled job).length)
    (hstuck : Stuck (Spmd.step (byDefault job) (Servers.handle lib)) st) :
    ∀ w, ∃ result, st.loc w = .done result := by
  have hnot : ¬∀ w, ∃ l, byDefault job w (st.loc w) = .sync l :=
    fun hall => Spmd.not_stuck_of_call_or_sync (fun w => .inr (hall w)) hstuck
  cases h with
  | push h =>
      refine absurd (fun w => ?_) hnot
      rw [h w]
      exact ⟨_, rfl⟩
  | learned h =>
      refine absurd (fun w => ?_) hnot
      obtain ⟨result, hloc, -⟩ := h w
      rw [hloc]
      exact ⟨_, rfl⟩
  | ended h =>
      rcases h.goes (byDefault job) hktop (fun _ _ => rfl) with hsync | hdone
      · exact absurd hsync hnot
      · exact hdone

end Collected

/-! ### What is loaded -/

section Loading

variable {D : Type} {n : Nat} {ar : Arith D} {lines : Fin n → List Str} {job : Job D n}

/-- The dictionary that `local_parser` makes of lines with different ids. -/
theorem localParser_perm {g : Str → Str × List D} {linelst : List Str} {var : Dict Str (List D)}
    (hparse : ∀ line ∈ linelst, parseLine ar line = some (g line))
    (hnodup : ((linelst.map g).map Prod.fst).Nodup) (h : localParser ar linelst = some var) :
    (Dict.pairs var).Perm (linelst.map g) := by
  rw [localParser, mapM_eq_some hparse, Option.map_some, Option.some.injEq] at h
  rw [← h]
  exact Kvs.pairs_foldl_insert_perm hnodup

theorem isNum_parseLine {IsNum : D → Prop} {line : Str} {v : Str × List D}
    (hnum : ∀ q, IsNum (ar.ofDecimal q))
    (h : parseLine ar line = some v) : ∀ x ∈ v.2, IsNum x := by
  intro x hx
  rw [parseLine] at h
  split at h
  · cases h
  · obtain ⟨tmp, -, rfl⟩ := Option.map_eq_some_iff.mp h
    obtain ⟨q, -, rfl⟩ := List.mem_map.mp hx
    exact hnum q

variable [Zero D] [Add D] [Div D]

/-- The lines have as many numbers each, not all of them 0, and begin with ids that are all
    different; none is the key of a list of ids. -/
structure Regular (ar : Arith D) (lines : Fin n → List Str) : Prop where
  length : ∃ d, ∀ w, ∀ line ∈ lines w, ∀ v, parseLine ar line = some v → v.2.length = d
  normed : ∀ w, ∀ line ∈ lines w, ∀ v, parseLine ar line = some v → v.2 ≠ [] →
    ar.sqrt (squareSum ar v.2) ≠ 0
  nodup : (((List.finRange n).flatMap lines).filterMap fun line =>
    (parseLine ar line).map Prod.fst).Nodup
  ne_bagKey : ∀ w, ∀ line ∈ lines w, ∀ v, parseLine ar line = some v →
    ∀ nodeId : Fin n, v.1 ≠ bagKey nodeId

/-- What `solve` makes of the lines that the workers load, each its own and for `default` all of
    them; the hash tables are iterated in any order. -/
structure Loaded (ar : Arith D) (lines : Fin n → List Str) (job : Job D n) : Prop where
  own : ∀ w, ∃ var, localParser ar (lines w) = some var ∧
    (job.itemVects w).Perm (normalize ar (Dict.pairs var))
  all : ∀ w, ∃ linelst var, linelst.Perm ((List.finRange n).flatMap lines) ∧
    localParser ar linelst = some var ∧
    (job.allItemVects w).Perm (normalize ar (Dict.pairs var))

/-- What a line is parsed to, where it is. -/
def lineVect (ar : Arith D) (line : Str) : Str × List D :=
  (parseLine ar line).getD ([], [])

/-- No line throws. -/
theorem Loaded.parse (h : Loaded ar lines job) {w : Fin n} {line : Str} (hline : line ∈ lines w) :
    parseLine ar line = some (lineVect ar line) := by
  obtain ⟨var, hvar, -⟩ := h.own w
  obtain ⟨vs, hvs, -⟩ := Option.map_eq_some_iff.mp hvar
  obtain ⟨v, hv⟩ := exists_of_mapM_eq_some hvs line hline
  rw [lineVect, hv, Option.getD_some]

theorem Loaded.parse_all (h : Loaded ar lines job) {line : Str}
    (hline : line ∈ (List.finRange n).flatMap lines) :
    parseLine ar line = some (lineVect ar line) := by
  obtain ⟨w, -, hline⟩ := List.mem_flatMap.mp hline
  exact h.parse hline

/-- All lines begin with ids of their own. -/
theorem Loaded.nodup_ids (h : Loaded ar lines job) (hregular : Regular ar lines) :
    ((((List.finRange n).flatMap lines).map (lineVect ar)).map Prod.fst).Nodup := by
  have hnodup := hregular.nodup
  rw [List.filterMap_congr (g := fun line => some (lineVect ar line).1) fun line hline => by
    rw [h.parse_all hline, Option.map_some]] at hnodup
  rw [List.map_map]
  rwa [← List.filterMap_eq_map]

/-- The items of all workers are those of all lines. -/
theorem Loaded.pooled_perm (h : Loaded ar lines job) (hregular : Regular ar lines) :
    (pooled job).Perm
      (normalize ar (((List.finRange n).flatMap lines).map (lineVect ar))) := by
  have hitems : ∀ w, (job.itemVects w).Perm (normalize ar ((lines w).map (lineVect ar))) := by
    intro w
    obtain ⟨var, hvar, hperm⟩ := h.own w
    have hnodup : (((lines w).map (lineVect ar)).map Prod.fst).Nodup := by
      apply List.Nodup.sublist _ (h.nodup_ids hregular)
      exact (((List.sublist_flatten_of_mem
        (List.mem_map_of_mem (List.mem_finRange w))).map (lineVect ar)).map Prod.fst)
    exact hperm.trans ((localParser_perm (fun line hline => h.parse hline) hnodup hvar).map _)
  rw [pooled, normalize, List.map_flatMap, List.map_flatMap]
  exact List.Perm.flatMap_left _ fun w _ => hitems w

theorem map_fst_normalize (vs : Vects D) :
    (normalize ar vs).map Prod.fst = vs.map Prod.fst := by
  rw [normalize, List.map_map]
  rfl

/-- The items of the workers, from the lines. -/
theorem Loaded.consistent (h : Loaded ar lines job) (hregular : Regular ar lines) :
    Consistent job := by
  have hids := h.nodup_ids hregular
  have hpooled := h.pooled_perm hregular
  constructor
  · rw [(hpooled.map Prod.fst).nodup_iff, map_fst_normalize]
    exact hids
  · intro iv hiv w
    have hid := (hpooled.map Prod.fst).mem_iff.mp (List.mem_map_of_mem hiv)
    rw [map_fst_normalize, List.map_map] at hid
    obtain ⟨line, hline, hid⟩ := List.mem_map.mp hid
    obtain ⟨v, -, hown⟩ := List.mem_flatMap.mp hline
    rw [← hid]
    exact hregular.ne_bagKey v line hown _ (h.parse hown) w
  · intro w
    obtain ⟨linelst, var, hlines, hvar, hperm⟩ := h.all w
    have hnodup : ((linelst.map (lineVect ar)).map Prod.fst).Nodup :=
      ((hlines.map (lineVect ar)).map Prod.fst).nodup_iff.mpr hids
    have hvects := (localParser_perm (fun line hline => h.parse_all (hlines.mem_iff.mp hline))
      hnodup hvar).trans (hlines.map (lineVect ar))
    exact hperm.trans ((hvects.map _).trans hpooled.symm)

/-! ### Numbers -/

variable [Mul D] [LE D] {IsNum : D → Prop}

theorem isNum_squareSum (har : ar.Closed IsNum) {v : List D} (h : ∀ x ∈ v, IsNum x) :
    IsNum (squareSum ar v) ∧ 0 ≤ squareSum ar v := by
  induction v using List.reverseRecOn with
  | nil => exact har.zero
  | append_singleton v x ih =>
      obtain ⟨hsum, hnonneg⟩ := ih fun y hy => h y (List.mem_append_left _ hy)
      obtain ⟨hnum, hsquare⟩ := har.square x (h x (by simp))
      rw [squareSum, List.foldl_append, ← squareSum]
      exact ⟨har.add _ _ hsum hnum, har.add_nonneg _ _ hnonneg hsquare⟩

/-- A line that has not only zeros is normalized to numbers. -/
theorem isNum_normalizeVect (har : ar.Closed IsNum) {v : List D} (h : ∀ x ∈ v, IsNum x)
    (hne : v ≠ [] → ar.sqrt (squareSum ar v) ≠ 0) : ∀ x ∈ normalizeVect ar v, IsNum x := by
  intro y hy
  obtain ⟨x, hx, rfl⟩ := List.mem_map.mp hy
  obtain ⟨hnum, hnonneg⟩ := isNum_squareSum har h
  exact har.div _ _ (h x hx) (har.sqrt _ hnum hnonneg) (hne (List.ne_nil_of_mem hx))

theorem isNum_dotProduct (har : ar.Closed IsNum) {a b : List D} (ha : ∀ x ∈ a, IsNum x)
    (hb : ∀ x ∈ b, IsNum x) : IsNum (dotProduct a b) := by
  have hfold : ∀ l : List (D × D), (∀ xy ∈ l, IsNum xy.1 ∧ IsNum xy.2) →
      IsNum (l.foldl (fun sum xy => sum + xy.1 * xy.2) 0) := by
    intro l
    induction l using List.reverseRecOn with
    | nil => exact fun _ => har.zero.1
    | append_singleton l xy ih =>
        intro hl
        obtain ⟨hx, hy⟩ := hl xy (by simp)
        rw [List.foldl_append]
        exact har.add _ _ (ih fun xy hxy => hl xy (List.mem_append_left _ hxy))
          (har.mul _ _ hx hy)
  apply hfold
  intro xy hxy
  exact ⟨ha _ (List.of_mem_zip hxy).1, hb _ (List.of_mem_zip hxy).2⟩

/-- No product of two items is a `NaN`. -/
theorem Loaded.comparable (har : ar.Closed IsNum) (h : Loaded ar lines job)
    (hregular : Regular ar lines) {iv : Str × List D} (hiv : iv ∈ pooled job) :
    Comparable (neighbours (pooled job) iv) := by
  have hnums : ∀ jv ∈ pooled job, ∀ x ∈ jv.2, IsNum x := by
    intro jv hjv
    have hmem := (h.pooled_perm hregular).mem_iff.mp hjv
    rw [normalize, List.map_map] at hmem
    obtain ⟨line, hline, rfl⟩ := List.mem_map.mp hmem
    obtain ⟨w, -, hline⟩ := List.mem_flatMap.mp hline
    have hparse := h.parse hline
    exact isNum_normalizeVect har (isNum_parseLine har.ofDecimal hparse)
      (hregular.normed w line hline _ hparse)
  have hscores : ∀ a ∈ neighbours (pooled job) iv, IsNum a.2 := by
    intro a ha
    obtain ⟨jv, hjv, rfl⟩ := List.mem_map.mp ha
    exact isNum_dotProduct har (hnums iv hiv) (hnums jv (List.mem_of_mem_filter hjv))
  exact fun a ha b hb => har.total a.2 b.2 (hscores a ha) (hscores b hb)

theorem Loaded.sortable (har : ar.Closed IsNum) (h : Loaded ar lines job)
    (hregular : Regular ar lines) (hsort : Sorts job.sort) : Sortable job :=
  ⟨hsort, fun _ hiv => h.comparable har hregular hiv⟩

end Loading

/-! ### Runs -/

section Runs

variable {D : Type} [Zero D] [Add D] [Mul D] [PartialOrder D] {n m : Nat} {ar : Arith D}
  {IsNum : D → Prop} {lines : Fin n → List Str} {job : Job D n} {getServer : Str → Fin m}
  {lib : Libs (Packed D)} {servers : Servers m (Packed D)}
  {st : Spmd.State n (Loc D n) (SrvCall m (Packed D)) (Servers m (Packed D))}

/-- What `solve` with `limit_storage` reaches. -/
abbrev Runs (lib : Libs (Packed D)) (getServer : Str → Fin m) (job : Job D n)
    (servers : Servers m (Packed D))
    (st : Spmd.State n (Loc D n) (SrvCall m (Packed D)) (Servers m (Packed D))) : Prop :=
  Reachable (Spmd.step (limitStorage job getServer) (Servers.handle lib))
    (atStart (pushes job) servers) st

/-- What `solve` with `default` reaches. -/
abbrev DefaultRuns (lib : Libs (Packed D)) (job : Job D n) (servers : Servers m (Packed D))
    (st : Spmd.State n (Loc D n) (SrvCall m (Packed D)) (Servers m (Packed D))) : Prop :=
  Reachable (Spmd.step (byDefault job) (Servers.handle lib)) (atStart (fun _ => []) servers) st

theorem stage_of_runs (hn : 0 < n) (hjob : Consistent job) (hsort : Sortable job)
    (h : Runs lib getServer job servers st) : Stage job getServer st := by
  apply h.invariant
  · apply Stage.push
    intro w
    exact ⟨[], pushes job w, rfl, rfl, by simp⟩
  · intro s l s' hs hstep
    exact (hs.step hn hjob hsort hstep).1

theorem stage_of_defaultRuns (hn : 0 < n) (hjob : Consistent job) (hsort : Sortable job)
    (h : DefaultRuns lib job servers st) : DefaultStage job st.loc := by
  apply h.invariant (P := fun s => DefaultStage job s.loc)
  · exact .push fun w => rfl
  · intro s l s' hs hstep
    exact (hs.step hn hjob hsort hstep).1

/-- Entries with the same products, sorted: the first ones of both have the same values. -/
theorem Selected.same_values {w : Fin n} {result result' : Results D} (hsort : Sortable job)
    (h : Selected job w result) (h' : Selected job w result') :
    ∀ iv ∈ job.itemVects w, ∃ r r', result.lookup iv.1 = some r ∧ result'.lookup iv.1 = some r' ∧
      r.map Prod.snd = r'.map Prod.snd := by
  intro iv hiv
  obtain ⟨r, hperm, -, hlookup⟩ := h iv hiv
  obtain ⟨r', hperm', -, hlookup'⟩ := h' iv hiv
  refine ⟨_, _, hlookup, hlookup', ?_⟩
  have hpool := mem_pooled hiv
  have hsorted := (hsort.perm hpool hperm).trans hperm
  have hsorted' := (hsort.perm hpool hperm').trans hperm'
  have hsame : (job.sort r).map Prod.snd = (job.sort r').map Prod.snd := by
    apply List.Perm.eq_of_pairwise
    · exact fun a b _ _ hab hba => le_antisymm hba hab
    · exact List.pairwise_map.mpr (hsort.pairwise hpool hperm)
    · exact List.pairwise_map.mpr (hsort.pairwise hpool hperm')
    · exact (hsorted.trans hsorted'.symm).map _
  rw [List.map_take, List.map_take, hsame]

/-- Where there are enough items, every run of `limit_storage` can be continued to its end. -/
theorem exists_done (hn : 0 < n) (hjob : Consistent job) (hsort : Sortable job)
    (h : Runs lib getServer job servers st) (hktop : job.ktop < (pooled job).length) :
    ∃ t, Reachable (Spmd.step (limitStorage job getServer) (Servers.handle lib)) st t ∧
      ∀ w, ∃ result, t.loc w = .done result := by
  obtain ⟨ls, t, hrun, ht, hstuck⟩ := exists_stuck
    (fun s : Spmd.State n (Loc D n) (SrvCall m (Packed D)) _ => ∑ v, ahead job v (s.loc v))
    (fun s l s' hs hstep => hs.step hn hjob hsort hstep) (stage_of_runs hn hjob hsort h)
  exact ⟨t, ⟨ls, hrun⟩, ht.goes hktop hstuck⟩

variable [Div D]

/-- In every interleaving `limit_storage` ends with the `ktop` most similar of all other items
    for every item; and where there are so many, every run can be continued to that end. -/
theorem limit_storage_mostSimilar (hn : 0 < n) (har : ar.Closed IsNum)
    (hload : Loaded ar lines job) (hregular : Regular ar lines) (hsort : Sorts job.sort)
    (h : Runs lib getServer job servers st) :
    (∀ w result, st.loc w = .done result → MostSimilar job w result) ∧
    (job.ktop < (pooled job).length →
      ∃ t, Reachable (Spmd.step (limitStorage job getServer) (Servers.handle lib)) st t ∧
        ∀ w, ∃ result, t.loc w = .done result) := by
  have hjob := hload.consistent hregular
  have hsort := hload.sortable har hregular hsort
  have hstage := stage_of_runs hn hjob hsort h
  exact ⟨fun w result hloc => (hstage.selected hloc).mostSimilar hsort,
    exists_done hn hjob hsort h⟩

/-- The same of `default`, and both methods find the same similarities in the same order. -/
theorem default_agrees (hn : 0 < n) (har : ar.Closed IsNum)
    (hload : Loaded ar lines job) (hregular : Regular ar lines) (hsort : Sorts job.sort)
    (h : DefaultRuns lib job servers st) :
    (∀ w result, st.loc w = .done result → MostSimilar job w result ∧
      ∀ (getServer : Str → Fin m) servers' st' result', Runs lib getServer job servers' st' →
        st'.loc w = .done result' → ∀ iv ∈ job.itemVects w, ∃ r r',
          result.lookup iv.1 = some r ∧ result'.lookup iv.1 = some r' ∧
          r.map Prod.snd = r'.map Prod.snd) ∧
    (job.ktop < (pooled job).length →
      ∃ t, Reachable (Spmd.step (byDefault job) (Servers.handle lib)) st t ∧
        ∀ w, ∃ result, t.loc w = .done result) := by
  have hjob := hload.consistent hregular
  have hsort := hload.sortable har hregular hsort
  have hstage := stage_of_defaultRuns hn hjob hsort h
  constructor
  · intro w result hloc
    have hselected := hstage.selected hloc
    refine ⟨hselected.mostSimilar hsort, ?_⟩
    intro getServer servers' st' result' h' hloc'
    exact hselected.same_values hsort ((stage_of_runs hn hjob hsort h').selected hloc')
  · intro hktop
    obtain ⟨ls, t, hrun, ht, hstuck⟩ := exists_stuck
      (fun s : Spmd.State n (Loc D n) (SrvCall m (Packed D)) _ => ∑ v, ahead job v (s.loc v))
      (fun s l s' hs hstep => DefaultStage.step hn hjob hsort hs hstep) hstage
    exact ⟨t, ⟨ls, hrun⟩, ht.goes hktop hstuck⟩

end Runs

/-! ### Two workers -/

/-- Rational numbers, with the roots of squares. -/
def rationals : Arith ℚ where
  ofDecimal := fun q => q
  square := fun x => x * x
  sqrt := Rat.sqrt

/-- Each worker has loaded two lines. -/
def twoLines (w : Fin 2) : List Str :=
  if w.val = 0 then [lit "a,3,4", lit "b,5,0"] else [lit "c,8,6", lit "d,0,2"]

/-- The two most similar of three other items are looked for. -/
def nearest : Job ℚ 2 where
  ktop := 2
  sort := fun l => l.mergeSort fun a b => b.2 ≤ a.2
  itemVects := fun w =>
    if w.val = 0 then [(lit "b", [1, 0]), (lit "a", [3 / 5, 4 / 5])]
    else [(lit "c", [4 / 5, 3 / 5]), (lit "d", [0, 1])]
  allItemVects := fun _ =>
    [(lit "d", [0, 1]), (lit "a", [3 / 5, 4 / 5]), (lit "c", [4 / 5, 3 / 5]), (lit "b", [1, 0])]

/-- A library without functions of any use. -/
def noLib : Libs (Packed ℚ) :=
  { update := fun _ a _ => a, filter := fun _ _ _ => true }

theorem closed_rationals : rationals.Closed fun _ => True where
  total := fun a b _ _ => le_total a b
  zero := ⟨trivial, le_rfl⟩
  ofDecimal := fun _ => trivial
  add := fun _ _ _ _ => trivial
  add_nonneg := fun _ _ => add_nonneg
  mul := fun _ _ _ _ => trivial
  div := fun _ _ _ _ _ => trivial
  square := fun a _ => ⟨trivial, mul_self_nonneg a⟩
  sqrt := fun _ _ _ => trivial

theorem loaded_nearest : Loaded rationals twoLines nearest where
  own := by
    have hown : ∀ w, ∃ var ∈ localParser rationals (twoLines w),
        (nearest.itemVects w).Perm (normalize rationals (Dict.pairs var)) := by decide +kernel
    exact hown
  all := by
    have hall : ∀ w, ∃ var ∈ localParser rationals ((List.finRange 2).flatMap twoLines),
        (nearest.allItemVects w).Perm (normalize rationals (Dict.pairs var)) := by decide +kernel
    exact fun w => ⟨_, (hall w).choose, .refl _, (hall w).choose_spec⟩

theorem regular_twoLines : Regular rationals twoLines where
  length := by
    refine ⟨2, ?_⟩
    have hlength : ∀ w, ∀ line ∈ twoLines w, ∀ v ∈ parseLine rationals line, v.2.length = 2 := by
      decide +kernel
    exact hlength
  normed := by
    have hne : ∀ w, ∀ line ∈ twoLines w, ∀ v ∈ parseLine rationals line,
        rationals.sqrt (squareSum rationals v.2) ≠ 0 := by decide +kernel
    exact fun w line hline v hv _ => hne w line hline v hv
  nodup := by decide +kernel
  ne_bagKey := by
    have hne : ∀ w, ∀ line ∈ twoLines w, ∀ v ∈ parseLine rationals line,
        ∀ nodeId : Fin 2, v.1 ≠ bagKey nodeId := by decide +kernel
    exact hne

theorem sorts_nearest : Sorts nearest.sort where
  perm := fun l _ => List.mergeSort_perm l _
  pairwise := by
    intro l _
    have htrans : ∀ a b c : Str × ℚ, decide (b.2 ≤ a.2) = true → decide (c.2 ≤ b.2) = true →
        decide (c.2 ≤ a.2) = true := by
      intro a b c hab hbc
      exact decide_eq_true (le_trans (of_decide_eq_true hbc) (of_decide_eq_true hab))
    have htotal : ∀ a b : Str × ℚ, (decide (b.2 ≤ a.2) || decide (a.2 ≤ b.2)) = true := by
      intro a b
      rw [Bool.or_eq_true, decide_eq_true_eq, decide_eq_true_eq]
      exact le_total b.2 a.2
    exact (List.pairwise_mergeSort htrans htotal l).imp fun h => of_decide_eq_true h

theorem limit_storage_mostSimilar_two : ∃ t,
    Runs noLib (fun _ => (0 : Fin 1)) nearest (fun _ => {}) t ∧
      (∀ w, ∃ result, t.loc w = .done result ∧ MostSimilar nearest w result) ∧
      ∃ result r, t.loc 0 = .done result ∧ result.lookup (lit "a") = some r ∧
        r.map Prod.snd = [24 / 25, 4 / 5] := by
  have hstart : Runs noLib (fun _ => (0 : Fin 1)) nearest (fun _ => {}) _ := .refl _
  obtain ⟨-, hends⟩ := limit_storage_mostSimilar (by decide) closed_rationals loaded_nearest
    regular_twoLines sorts_nearest hstart
  obtain ⟨t, ht, hdone⟩ := hends (by decide)
  have hruns : Runs noLib (fun _ => (0 : Fin 1)) nearest (fun _ => {}) t := hstart.trans ht
  obtain ⟨hsimilar, -⟩ := limit_storage_mostSimilar (by decide) closed_rationals loaded_nearest
    regular_twoLines sorts_nearest hruns
  refine ⟨t, hruns, fun w => ?_, ?_⟩
  · obtain ⟨result, hloc⟩ := hdone w
    exact ⟨result, hloc, hsimilar w result hloc⟩
  · obtain ⟨result, hloc⟩ := hdone 0
    obtain ⟨r, hr, -, hdesc, hlargest⟩ :=
      hsimilar 0 result hloc (lit "a", [3 / 5, 4 / 5]) (by decide +kernel)
    have hvs : (([24 / 25, 4 / 5, 3 / 5] : List ℚ) : Multiset ℚ) =
        (neighbours (pooled nearest) (lit "a", [3 / 5, 4 / 5]) :
          Multiset (Str × ℚ)).map Prod.snd := by decide +kernel
    exact ⟨result, r, hloc, hr, hlargest.map_val_eq_take rfl hdesc hvs (by decide +kernel)⟩

theorem default_agrees_two : ∃ t t',
    DefaultRuns (m := 1) noLib nearest (fun _ => {}) t ∧
    Runs noLib (fun _ => (0 : Fin 1)) nearest (fun _ => {}) t' ∧
      ∀ w, ∃ result result', t.loc w = .done result ∧ t'.loc w = .done result' ∧
        MostSimilar nearest w result ∧ ∀ iv ∈ nearest.itemVects w, ∃ r r',
          result.lookup iv.1 = some r ∧ result'.lookup iv.1 = some r' ∧
          r.map Prod.snd = r'.map Prod.snd := by
  have hstart : DefaultRuns (m := 1) noLib nearest (fun _ => {}) _ := .refl _
  obtain ⟨-, hends⟩ := default_agrees (by decide) closed_rationals loaded_nearest
    regular_twoLines sorts_nearest hstart
  obtain ⟨t, ht, hdone⟩ := hends (by decide)
  have hruns : DefaultRuns (m := 1) noLib nearest (fun _ => {}) t := hstart.trans ht
  have hstart' : Runs noLib (fun _ => (0 : Fin 1)) nearest (fun _ => {}) _ := .refl _
  obtain ⟨t', ht', hdone'⟩ := exists_done (by decide)
    (loaded_nearest.consistent regular_twoLines)
    (loaded_nearest.sortable closed_rationals regular_twoLines sorts_nearest) hstart' (by decide)
  have hruns' : Runs noLib (fun _ => (0 : Fin 1)) nearest (fun _ => {}) t' := hstart'.trans ht'
  refine ⟨t, t', hruns, hruns', fun w => ?_⟩
  obtain ⟨result, hloc⟩ := hdone w
  obtain ⟨result', hloc'⟩ := hdone' w
  obtain ⟨hagrees, -⟩ := default_agrees (by decide) closed_rationals loaded_nearest
    regular_twoLines sorts_nearest hruns
  obtain ⟨hsimilar, hsame⟩ := hagrees w result hloc
  exact ⟨result, result', hloc, hloc', hsimilar, hsame _ _ t' result' hruns' hloc'⟩

end Paracel.Similarity
