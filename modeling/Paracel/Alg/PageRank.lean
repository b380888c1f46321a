import Mathlib.Algebra.BigOperators.Fin
import Mathlib.Algebra.Field.Rat
import Mathlib.Data.List.Perm.Subperm
import Paracel.Graph.Digraph
import Paracel.Ps.Shared

/-!
# PageRank

`alg/pagerank/pr.hpp`: the workers hold the edges of a graph by their sources.
`init_paras` brings the edges into every vertex together under a key of that
vertex, and each worker reads these lists for its own vertices; no barrier stands
between the last push of one worker and the first read of another. A worker that
reads a list which nobody has pushed yet ends at an `assert`. The rounds
then pull, recompute and push the ranks between barriers, and in the end every
worker fetches all of them. `iter_commit` is never called, so the clock stays 0
and every read goes to a server. `sync()` is taken as `paracel_sync()`. Numbers are
those of a field.
-/

namespace Paracel.PageRank

open StepSystem MergeFold

/-- A list of vertices that have an edge to one, with the number of edges of each. -/
abbrev Links (K : Type) := List (Str × K)

/-- What the program keeps on the servers, packed. -/
inductive Packed (K : Type) where
  | links (l : Links K)
  | pr (x : K)

instance instInhabitedPacked {K : Type} : Inhabited (Packed K) := ⟨.links []⟩

/-- What a worker has loaded, and the order in which it iterates a hash table with given keys. -/
structure Data where
  localGraph : Graph.Digraph Str
  order : List Str → List Str
  orders : ∀ keys, (order keys).Perm keys

/-- `paracel::endswith`. -/
def endswith (str key : Str) : Bool :=
  key.isSuffixOf str

/-- `tear_lambda`: up to the first underscore. -/
def tear (str : Str) : Str :=
  str.takeWhile (· ≠ 95)

/-- The key of the edges into a vertex. -/
def linksKey (b : Str) : Str := b ++ lit "_links"

/-- The key of the rank of a vertex. -/
def prKey (a : Str) : Str := a ++ lit "_pr"

/-- `libpr_update.so`. -/
def libprUpdate : Str := lit "/mfs/user/wuhong/paracel/build/lib/libpr_update.so"

/-- `init_updater`. -/
def initUpdater : Symbol := ⟨libprUpdate, lit "init_updater"⟩

/-- `pr_filter`. -/
def prFilter : Symbol := ⟨libprUpdate, lit "pr_filter"⟩

/-- `local_update`. -/
def localUpdate {K : Type} (a b : Links K) : Links K :=
  a ++ b

/-- `local_filter`. -/
def localFilter (key : Str) : Bool :=
  endswith key (lit "_pr")

/-- The updater on packed values; it only meets packed links. -/
def linksUpdater {K : Type} : Packed K → Packed K → Packed K
  | .links a, .links b => .links (localUpdate a b)
  | .links a, .pr _ => .links a
  | .pr _, b => b

/-- The shared libraries, with the one of the program. -/
def prLib {K : Type} (other : Libs (Packed K)) : Libs (Packed K) where
  update func := if func = initUpdater then linksUpdater else other.update func
  filter func := if func = prFilter then fun key _ => localFilter key else other.filter func

/-- The links in a reply. -/
def readLinks {K : Type} (r : Option (Reply (Packed K))) : Links K :=
  match readVal r with
  | .links l => l
  | .pr _ => []

/-- The links in the last replies of a segment. -/
def linkReplies {K : Type} (size : Nat) (rs : List (Option (Reply (Packed K)))) :
    List (Links K) :=
  (rs.drop (rs.length - size)).map readLinks

/-- The rank in a packed value. -/
def Packed.toPr {K : Type} [Zero K] : Packed K → K
  | .pr x => x
  | .links _ => 0

/-- The pairs in a reply of `pullall_special`. -/
def dctPairs {K : Type} (r : Option (Reply (Packed K))) : List (Str × Packed K) :=
  Dict.pairs (dctVal r)

/-- A dictionary that gets a value for each key of a list. -/
def fillWith {V : Type} (keys : List Str) (vals : List V) (dct : Dict Str V) : Dict Str V :=
  (keys.zip vals).foldl (fun d kv => d.insert kv.1 kv.2) dct

section Worker

variable {K : Type} [Field K] (data : Data)

/-- `cnt_lambda`. -/
def cntLambda (kvmap : Dict Str K) (a : Str) : Dict Str K :=
  match kvmap.lookup a with
  | none => kvmap.insert a 1
  | some x => kvmap.insert a (x + 1)

/-- `kvinit_lambda`. -/
def kvinitLambda (kvmap : Dict Str K) (klstmap : Dict Str (Links K)) (a b : Str) :
    Dict Str (Links K) :=
  klstmap.insert b (((klstmap.lookup b).getD []) ++ [(a, (kvmap.lookup a).getD 0)])

/-- `kvmap` with the number of edges of each vertex that has some. -/
def cntMap : Dict Str K :=
  data.localGraph.traverse (fun a _ _ kvmap => cntLambda kvmap a) ∅

/-- `klstmap` with the edges that the worker has loaded. -/
def kvinitMap : Dict Str (Links K) :=
  data.localGraph.traverse (fun a b _ klstmap => kvinitLambda (cntMap data) klstmap a b) ∅

/-- The keys of `kvmap_stale`, in the order of the first reads. -/
def staleKeys (klstmap : Dict Str (Links K)) : List Str :=
  ((data.order klstmap.keys).flatMap fun b =>
      ((klstmap.lookup b).getD []).map Prod.fst).foldl
    (fun keys a => if a ∈ keys then keys else keys ++ [a]) []

/-- The keys that are read before round `rd` is worked out; the first reads are among them. -/
def pullKeys (rd : Nat) (klstmap : Dict Str (Links K)) : List Str :=
  (if rd = 0 then staleKeys data klstmap else []) ++ data.order (staleKeys data klstmap)

/-- The map of a round. -/
def mapRound (dampingFactor : K) (stale : Dict Str K) (klstmap : Dict Str (Links K))
    (kvmap : Dict Str K) : Dict Str K :=
  (data.order klstmap.keys).foldl
    (fun kvmap b =>
      let sigma := ((klstmap.lookup b).getD []).foldl
        (fun sigma item => sigma + (stale.lookup item.1).getD 0 / item.2) 0
      kvmap.insert b ((1 - dampingFactor) + dampingFactor * sigma))
    kvmap

/-- The last pull. -/
def lastPull (kvmap : Dict Str K) (rs : List (Option (Reply (Packed K)))) : Dict Str K :=
  let kvmapTmp : Dict Str (Packed K) :=
    (rs.flatMap dctPairs).foldl (fun d kv => d.insert kv.1 kv.2) ∅
  (data.order kvmapTmp.keys).foldl
    (fun kvmap key => kvmap.insert (tear key) ((kvmapTmp.lookup key).getD default).toPr) kvmap

end Worker

/-- Where a worker is: in `init_paras` before the `allreduce`, in the segment that pushes the
    first ranks, in the one that pulls or that pushes those of a round, and in the last pull. -/
inductive Loc (K : Type) where
  | init
  | push (klstmap : Dict Str (Links K)) (kvmap : Dict Str K)
  | pull (rd : Nat) (klstmap : Dict Str (Links K)) (kvmap : Dict Str K)
  | reduce (rd : Nat) (klstmap : Dict Str (Links K)) (kvmap : Dict Str K)
  | last (klstmap : Dict Str (Links K)) (kvmap : Dict Str K)

/-- The collective operations of the program. -/
inductive Meet where
  | sync
  | allreduce (nodeSz : Nat)

/-- What is added to an `allreduce`. -/
def Meet.nodeSz : Meet → Nat
  | .sync => 0
  | .allreduce nodeSz => nodeSz

section Program

variable {n m : Nat} {K : Type} [Field K] (dampingFactor : K) (getServer : Str → Fin m)
  (rounds : Nat) (data : Fin n → Data)

/-- The loops that push `kvmap`. -/
def pushes (w : Fin n) (kvmap : Dict Str K) : List (SrvCall m (Packed K)) :=
  ((data w).order kvmap.keys).map fun a =>
    .paracelWrite getServer (prKey a) (.pr ((kvmap.lookup a).getD 0))

/-- The calls that a worker makes before it next waits for the others. -/
def calls (w : Fin n) : Loc K → List (SrvCall m (Packed K))
  | .init =>
      paracelRegisterBupdate m initUpdater ++
        ((data w).order (kvinitMap (K := K) (data w)).keys).map (fun b =>
          .paracelBupdate getServer (linksKey b)
            (.links (((kvinitMap (data w)).lookup b).getD [])) none) ++
        ((data w).order (cntMap (K := K) (data w)).keys).map fun a =>
          .paracelRead getServer (linksKey a)
  | .push _ kvmap => pushes getServer data w kvmap
  | .pull rd klstmap _ =>
      (pullKeys (data w) rd klstmap).map fun a => .paracelRead getServer (prKey a)
  | .reduce _ _ kvmap => pushes getServer data w kvmap
  | .last klstmap _ =>
      (if rounds = 0 then
        (staleKeys (data w) klstmap).map fun a => .paracelRead getServer (prKey a) else []) ++
        paracelReadSpecial m prFilter

/-- The collective operation that a worker enters then. -/
def meet (w : Fin n) : Loc K → Option Meet
  | .init => some (.allreduce (cntMap (K := K) (data w)).keys.length)
  | .push _ _ | .pull _ _ _ | .reduce _ _ _ => some .sync
  | .last _ _ => none

/-- Where it goes on. -/
def next (w : Fin n) (l : Loc K) (rs : List (Option (Reply (Packed K)))) (c : Fin n → Meet) :
    Loc K :=
  match l with
  | .init =>
      let keys := (data w).order (cntMap (K := K) (data w)).keys
      let nodeSz := ∑ x, (c x).nodeSz
      .push (fillWith keys (linkReplies keys.length rs) ∅)
        (keys.foldl (fun kvmap a => kvmap.insert a (1 / (nodeSz : K))) (cntMap (data w)))
  | .push klstmap kvmap => if 0 < rounds then .pull 0 klstmap kvmap else .last klstmap kvmap
  | .pull rd klstmap kvmap =>
      let stale := fillWith (pullKeys (data w) rd klstmap) (rs.map fun r => (readVal r).toPr) ∅
      .reduce rd klstmap (mapRound (data w) dampingFactor stale klstmap kvmap)
  | .reduce rd klstmap kvmap =>
      if rd + 1 < rounds then .pull (rd + 1) klstmap kvmap else .last klstmap kvmap
  | .last klstmap kvmap => .last klstmap kvmap

/-- `solve`. -/
def solve : Segments.Program n (Loc K) (SrvCall m (Packed K)) (Option (Reply (Packed K))) Meet where
  calls := calls getServer rounds data
  meet := fun w l _ => meet data w l
  next := next dampingFactor rounds data
  kind
    | .sync => 0
    | .allreduce _ => 1

end Program

/-! ### One worker -/

section Local

variable {K : Type} [Field K] (data : Data)

/-- The edges that a worker has loaded. -/
def edgesOf : List (Str × Str × ℚ) := Graph.edges data.localGraph.adj

/-- How many of them leave a vertex. -/
def outdegree (a : Str) : Nat :=
  (edgesOf data).countP fun e => e.1 = a

/-- A worker has a vertex when it has an edge from it. -/
def Owns (a : Str) : Prop :=
  ∃ e ∈ edgesOf data, e.1 = a

instance instDecidableOwns (a : Str) : Decidable (Owns data a) :=
  inferInstanceAs (Decidable (∃ e ∈ edgesOf data, e.1 = a))

/-- A worker has an edge into a vertex. -/
def Enters (b : Str) : Prop :=
  ∃ e ∈ edgesOf data, e.2.1 = b

instance instDecidableEnters (b : Str) : Decidable (Enters data b) :=
  inferInstanceAs (Decidable (∃ e ∈ edgesOf data, e.2.1 = b))

/-- The edges into a vertex that a worker has loaded. -/
def ownLinks (b : Str) : Links K :=
  ((edgesOf data).filter fun e => e.2.1 = b).map fun e => (e.1, (outdegree data e.1 : K))

/-- A dictionary has a value for some keys, and no others. -/
def Table {V : Type} (d : Dict Str V) (p : Str → Prop) [DecidablePred p] (f : Str → V) : Prop :=
  ∀ a, d.lookup a = if p a then some (f a) else none

omit [Field K] in
theorem Table.mem_keys {V : Type} {d : Dict Str V} {p : Str → Prop} [DecidablePred p]
    {f : Str → V} (h : Table d p f) (a : Str) : a ∈ d.keys ↔ p a := by
  rw [← AList.mem_keys, ← AList.lookup_isSome, h a]
  by_cases ha : p a <;> simp [ha]

theorem lookup_foldl_cntLambda (es : List (Str × Str × ℚ)) (kvmap : Dict Str K) (a : Str) :
    (es.foldl (fun kvmap e => cntLambda kvmap e.1) kvmap).lookup a =
      if es.countP (fun e => e.1 = a) = 0 then kvmap.lookup a
      else some ((kvmap.lookup a).getD 0 + (es.countP fun e => e.1 = a : Nat)) := by
  induction es generalizing kvmap with
  | nil => rfl
  | cons e es ih =>
      rw [List.foldl_cons, ih, List.countP_cons]
      by_cases he : e.1 = a
      · subst he
        have hnew : (cntLambda kvmap e.1).lookup e.1 = some ((kvmap.lookup e.1).getD 0 + 1) := by
          unfold cntLambda
          cases hold : kvmap.lookup e.1 <;> simp
        simp only [hnew, decide_true, if_true, Nat.add_eq_zero_iff, Nat.one_ne_zero, and_false,
          if_false, Option.getD_some, Nat.cast_add, Nat.cast_one]
        by_cases hzero : es.countP (fun e' => e'.1 = e.1) = 0
        · rw [if_pos hzero, hzero, Nat.cast_zero, zero_add]
        · rw [if_neg hzero, add_assoc, add_comm (1 : K)]
      · have hnew : (cntLambda kvmap e.1).lookup a = kvmap.lookup a := by
          unfold cntLambda
          cases kvmap.lookup e.1 <;> simp [AList.lookup_insert_ne (Ne.symm he)]
        have hcount : (if decide (e.1 = a) = true then 1 else 0) = 0 := if_neg (by simpa using he)
        rw [hnew, hcount, Nat.add_zero]

theorem outdegree_eq_zero {a : Str} : outdegree data a = 0 ↔ ¬Owns data a := by
  rw [outdegree, List.countP_eq_zero, Owns, not_exists]
  simp only [decide_eq_true_eq, not_and]

/-- `kvmap` after the first traversal: how many edges leave each vertex. -/
theorem cntMap_table : Table (cntMap data) (Owns data) fun a => (outdegree data a : K) := by
  intro a
  rw [cntMap, Graph.Digraph.traverse, lookup_foldl_cntLambda, ← edgesOf, ← outdegree]
  by_cases ha : Owns data a
  · rw [if_neg fun h => (outdegree_eq_zero data).mp h ha, if_pos ha, AList.lookup_empty,
      Option.getD_none, zero_add]
  · rw [if_pos ((outdegree_eq_zero data).mpr ha), if_neg ha, AList.lookup_empty]

theorem lookup_foldl_kvinitLambda (es : List (Str × Str × ℚ)) (kvmap : Dict Str K)
    (klstmap : Dict Str (Links K)) (b : Str) :
    (es.foldl (fun klstmap e => kvinitLambda kvmap klstmap e.1 e.2.1) klstmap).lookup b =
      if (es.filter fun e => e.2.1 = b) = [] then klstmap.lookup b
      else some (((klstmap.lookup b).getD []) ++
        (es.filter fun e => e.2.1 = b).map fun e => (e.1, (kvmap.lookup e.1).getD 0)) := by
  induction es generalizing klstmap with
  | nil => rfl
  | cons e es ih =>
      rw [List.foldl_cons, ih]
      by_cases he : e.2.1 = b
      · subst he
        by_cases hnil : (es.filter fun e' => e'.2.1 = e.2.1) = []
        · simp [kvinitLambda, hnil]
        · simp [kvinitLambda, hnil]
      · have hnew : (kvinitLambda kvmap klstmap e.1 e.2.1).lookup b = klstmap.lookup b :=
          AList.lookup_insert_ne (Ne.symm he)
        rw [hnew, List.filter_cons_of_neg (by simpa using he)]

/-- `klstmap` after the second traversal. -/
theorem kvinitMap_table : Table (kvinitMap data) (Enters data) (ownLinks (K := K) data) := by
  intro b
  have hlinks : (((edgesOf data).filter fun e => e.2.1 = b).map fun e =>
      (e.1, ((cntMap (K := K) data).lookup e.1).getD 0)) = ownLinks data b := by
    apply List.map_congr_left
    intro e he
    rw [cntMap_table data e.1, if_pos ⟨e, (List.mem_filter.mp he).1, rfl⟩, Option.getD_some]
  have hnil : ((edgesOf data).filter fun e => e.2.1 = b) = [] ↔ ¬Enters data b := by
    rw [List.filter_eq_nil_iff, Enters, not_exists]
    simp only [decide_eq_true_eq, not_and]
  rw [kvinitMap, Graph.Digraph.traverse, lookup_foldl_kvinitLambda, AList.lookup_empty,
    Option.getD_none, List.nil_append, ← edgesOf, hlinks]
  by_cases hb : Enters data b
  · rw [if_neg fun h => hnil.mp h hb, if_pos hb]
  · rw [if_pos (hnil.mpr hb), if_neg hb]

end Local

section Loops

variable {V : Type}

/-- A loop that sets a value for each key of a list. -/
theorem lookup_foldl_set (g : Str → V) (keys : List Str) (d : Dict Str V) (a : Str) :
    (keys.foldl (fun d k => d.insert k (g k)) d).lookup a =
      if a ∈ keys then some (g a) else d.lookup a := by
  induction keys generalizing d with
  | nil => rfl
  | cons k keys ih =>
      rw [List.foldl_cons, ih]
      by_cases ha : a = k
      · subst ha
        simp
      · simp [ha]

theorem lookup_fillWith (g : Str → V) (keys : List Str) (d : Dict Str V) (a : Str) :
    (fillWith keys (keys.map g) d).lookup a = if a ∈ keys then some (g a) else d.lookup a := by
  rw [← lookup_foldl_set g keys d a, fillWith, List.zip_map_right, List.foldl_map]
  congr 1
  induction keys generalizing d with
  | nil => rfl
  | cons k keys ih => exact ih _

end Loops

/-! ### Keys -/

theorem linksKey_inj {a b : Str} : linksKey a = linksKey b ↔ a = b :=
  List.append_left_inj _

theorem prKey_inj {a b : Str} : prKey a = prKey b ↔ a = b :=
  List.append_left_inj _

theorem prKey_ne_linksKey (a b : Str) : prKey a ≠ linksKey b := by
  intro h
  have hlast : some (114 : UInt8) = some 115 := by
    have hget := congrArg List.getLast? h
    rwa [prKey, linksKey, List.getLast?_append, List.getLast?_append] at hget
  exact absurd hlast (by decide)

theorem localFilter_iff {key : Str} : localFilter key = true ↔ ∃ a, key = prKey a := by
  rw [localFilter, endswith, List.isSuffixOf_iff_suffix]
  exact exists_congr fun a => eq_comm

theorem tear_prKey {a : Str} (ha : 95 ∉ a) : tear (prKey a) = a := by
  have hall : ∀ c ∈ a, (decide (c ≠ 95)) = true := by
    intro c hc
    exact decide_eq_true fun h => ha (h ▸ hc)
  rw [tear, prKey, List.takeWhile_append_of_pos hall]
  exact List.append_nil a

/-! ### A round of a worker -/

section Rounds

variable {K : Type} [Field K] (data : Data)

/-- The rank that a round gives a vertex. -/
def rankOf (dampingFactor : K) (links : Links K) (pr : Str → K) : K :=
  (1 - dampingFactor) + dampingFactor * (links.map fun item => pr item.1 / item.2).sum

omit [Field K] in
theorem mem_staleKeys {klstmap : Dict Str (Links K)} {a : Str} :
    a ∈ staleKeys data klstmap ↔
      ∃ b ∈ klstmap.keys, a ∈ ((klstmap.lookup b).getD []).map Prod.fst := by
  have hfold : ∀ as keys : List Str, a ∈ as.foldl (fun keys a =>
      if a ∈ keys then keys else keys ++ [a]) keys ↔ a ∈ keys ∨ a ∈ as := by
    intro as
    induction as with
    | nil => simp
    | cons a' as ih =>
        intro keys
        rw [List.foldl_cons, ih]
        by_cases ha' : a' ∈ keys
        · rw [if_pos ha', List.mem_cons, or_left_comm]
          constructor
          · intro h
            exact .inr h
          · intro h
            rcases h with rfl | h
            · exact .inl ha'
            · exact h
        · rw [if_neg ha', List.mem_append, List.mem_singleton, List.mem_cons, or_assoc]
  rw [staleKeys, hfold]
  simp only [List.not_mem_nil, false_or, List.mem_flatMap, (data.orders _).mem_iff]

omit [Field K] in
theorem mem_pullKeys {rd : Nat} {klstmap : Dict Str (Links K)} {a : Str} :
    a ∈ pullKeys data rd klstmap ↔ a ∈ staleKeys data klstmap := by
  rw [pullKeys, List.mem_append, (data.orders _).mem_iff]
  by_cases hrd : rd = 0
  · rw [if_pos hrd, or_self]
  · rw [if_neg hrd]
    simp

theorem lookup_mapRound (dampingFactor : K) {stale : Dict Str K} {pr : Str → K}
    {klstmap : Dict Str (Links K)} {kvmap : Dict Str K}
    (hstale : ∀ a ∈ staleKeys data klstmap, stale.lookup a = some (pr a)) (b : Str) :
    (mapRound data dampingFactor stale klstmap kvmap).lookup b =
      if b ∈ klstmap.keys then
        some (rankOf dampingFactor ((klstmap.lookup b).getD []) pr) else kvmap.lookup b := by
  rw [mapRound, lookup_foldl_set fun b => (1 - dampingFactor) + dampingFactor *
    ((klstmap.lookup b).getD []).foldl
      (fun sigma item => sigma + (stale.lookup item.1).getD 0 / item.2) 0]
  by_cases hb : b ∈ klstmap.keys
  · rw [if_pos ((data.orders _).mem_iff.mpr hb), if_pos hb, rankOf, List.sum_eq_foldl,
      List.foldl_map]
    congr 3
    apply List.foldl_ext
    intro sigma item hitem
    rw [hstale item.1 ((mem_staleKeys data).mpr ⟨b, hb, List.mem_map.mpr ⟨item, hitem, rfl⟩⟩),
      Option.getD_some]
  · rw [if_neg fun h => hb ((data.orders _).mem_iff.mp h), if_neg hb]

/-- Pairs that agree on a key give it their value. -/
theorem lookup_foldl_insert_of_agree {V : Type} {kvs : List (Str × V)} {k : Str} {v : V}
    (hmem : (k, v) ∈ kvs) (hagree : ∀ kv ∈ kvs, kv.1 = k → kv.2 = v) (d : Dict Str V) :
    (kvs.foldl (fun d kv => d.insert kv.1 kv.2) d).lookup k = some v := by
  induction kvs using List.reverseRecOn with
  | nil => cases hmem
  | append_singleton kvs kv ih =>
      rw [List.foldl_append, List.foldl_cons, List.foldl_nil]
      by_cases hkey : kv.1 = k
      · rw [← hkey, AList.lookup_insert,
          hagree kv (List.mem_append_right _ (List.mem_singleton_self kv)) hkey]
      · rw [AList.lookup_insert_ne (Ne.symm hkey)]
        rcases List.mem_append.mp hmem with hold | hlast
        · exact ih hold fun kv' hkv' => hagree kv' (List.mem_append_left _ hkv')
        · exact absurd (congrArg Prod.fst (List.mem_singleton.mp hlast)).symm hkey

/-- What the last pull makes of the ranks of all vertices: a table of them, where no name of a
    vertex has an underscore. -/
theorem lastPull_table {kvmap : Dict Str K} {rs : List (Option (Reply (Packed K)))}
    {p : Str → Prop} [DecidablePred p] {f : Str → K}
    (hkvmap : ∀ a, (kvmap.lookup a).isSome → p a)
    (hrs : ∀ kv, kv ∈ rs.flatMap dctPairs ↔ ∃ a, p a ∧ kv = (prKey a, .pr (f a)))
    (hnames : ∀ a, p a → 95 ∉ a) : Table (lastPull data kvmap rs) p f := by
  let kvmapTmp : Dict Str (Packed K) :=
    (rs.flatMap dctPairs).foldl (fun d kv => d.insert kv.1 kv.2) ∅
  have hsome : ∀ a, p a → kvmapTmp.lookup (prKey a) = some (.pr (f a)) := by
    intro a ha
    apply lookup_foldl_insert_of_agree ((hrs _).mpr ⟨a, ha, rfl⟩)
    intro kv hkv hkey
    obtain ⟨a', -, rfl⟩ := (hrs kv).mp hkv
    rw [prKey_inj.mp hkey]
  have hkeys : ∀ key, key ∈ data.order kvmapTmp.keys → ∃ a, p a ∧ key = prKey a := by
    intro key hkey
    have hmem := (data.orders _).mem_iff.mp hkey
    rw [← AList.mem_keys, ← AList.lookup_isSome] at hmem
    by_cases hin : key ∈ (rs.flatMap dctPairs).map Prod.fst
    · obtain ⟨kv, hkv, rfl⟩ := List.mem_map.mp hin
      obtain ⟨a, ha, rfl⟩ := (hrs kv).mp hkv
      exact ⟨a, ha, rfl⟩
    · rw [Kvs.lookup_foldl_insert_of_notMem hin, AList.lookup_empty] at hmem
      cases hmem
  have hloop : lastPull data kvmap rs = ((data.order kvmapTmp.keys).map fun key =>
      (tear key, ((kvmapTmp.lookup key).getD default).toPr)).foldl
        (fun d kv => d.insert kv.1 kv.2) kvmap := by
    rw [List.foldl_map]
    rfl
  intro b
  rw [hloop]
  by_cases hb : p b
  · rw [if_pos hb]
    apply lookup_foldl_insert_of_agree
    · refine List.mem_map.mpr ⟨prKey b, ?_, ?_⟩
      · rw [(data.orders _).mem_iff, ← AList.mem_keys, ← AList.lookup_isSome, hsome b hb]
        rfl
      · rw [tear_prKey (hnames b hb), hsome b hb]
        rfl
    · intro kv hkv hkey
      obtain ⟨key, hmem, rfl⟩ := List.mem_map.mp hkv
      obtain ⟨a, ha, rfl⟩ := hkeys key hmem
      have hab : a = b := by rwa [tear_prKey (hnames a ha)] at hkey
      rw [← hab]
      show ((kvmapTmp.lookup (prKey a)).getD default).toPr = f a
      rw [hsome a ha]
      rfl
  · rw [if_neg hb, Kvs.lookup_foldl_insert_of_notMem]
    · rw [← Option.not_isSome_iff_eq_none]
      exact fun h => hb (hkvmap b h)
    · intro hmem
      obtain ⟨kv, hkv, hkey⟩ := List.mem_map.mp hmem
      obtain ⟨key, hin, rfl⟩ := List.mem_map.mp hkv
      obtain ⟨a, ha, rfl⟩ := hkeys key hin
      have hab : a = b := by rwa [tear_prKey (hnames a ha)] at hkey
      exact hb (hab ▸ ha)

end Rounds

/-! ### All workers together -/

section Together

variable {n : Nat} {K : Type} [Field K] (data : Fin n → Data)

/-- Some worker has the vertex. -/
def IsNode (a : Str) : Prop :=
  ∃ w, Owns (data w) a

instance instDecidableIsNode (a : Str) : Decidable (IsNode data a) :=
  inferInstanceAs (Decidable (∃ w, Owns (data w) a))

/-- No two workers have edges from one vertex, which is how `fmap` distributes them. -/
def Mapped : Prop :=
  ∀ w w' a, Owns (data w) a → Owns (data w') a → w = w'

/-- The edges of all workers. -/
def pooled : List (Str × Str × ℚ) :=
  (List.finRange n).flatMap fun w => edgesOf (data w)

/-- The vertices that some edge leaves. -/
def nodes : List Str :=
  ((pooled data).map fun e => e.1).dedup

/-- The edges into a vertex, with how many edges leave the other end. -/
def inLinks (b : Str) : Links K :=
  ((pooled data).filter fun e => e.2.1 = b).map fun e =>
    (e.1, ((pooled data).countP fun e' => e'.1 = e.1 : Nat))

/-- The ranks after `rd` rounds in which a vertex gets its rank over the edges of `links`. -/
def prAfter (dampingFactor : K) (links : Str → Links K) : Nat → Str → K
  | 0 => fun _ => 1 / ((nodes data).length : K)
  | rd + 1 => fun b => rankOf dampingFactor (links b) (prAfter dampingFactor links rd)

theorem mem_nodes {a : Str} : a ∈ nodes data ↔ IsNode data a := by
  simp only [nodes, pooled, List.mem_dedup, List.mem_map, List.mem_flatMap, List.mem_finRange,
    true_and]
  constructor
  · intro h
    obtain ⟨e, ⟨w, he⟩, ha⟩ := h
    exact ⟨w, e, he, ha⟩
  · intro h
    obtain ⟨w, e, he, ha⟩ := h
    exact ⟨e, ⟨w, he⟩, ha⟩

variable {data}

/-- The edges from a vertex are all with the worker that has it. -/
theorem countP_pooled (hmap : Mapped data) {w : Fin n} {a : Str} (ha : Owns (data w) a) :
    ((pooled data).countP fun e => e.1 = a) = outdegree (data w) a := by
  have hzero : ∀ w', w' ≠ w → outdegree (data w') a = 0 := by
    intro w' hw'
    rw [outdegree_eq_zero]
    exact fun h => hw' (hmap w' w a h ha)
  rw [pooled, List.countP_flatMap, ← Fin.sum_univ_def, Finset.sum_eq_single w]
  · rfl
  · exact fun w' _ hw' => hzero w' hw'
  · exact fun h => absurd (Finset.mem_univ w) h

/-- The edges into a vertex that the workers have loaded are all there are. -/
theorem flatMap_ownLinks (hmap : Mapped data) (b : Str) :
    ((List.finRange n).flatMap fun w => ownLinks (K := K) (data w) b) = inLinks data b := by
  rw [inLinks]
  have hcount : ∀ w, ownLinks (K := K) (data w) b =
      ((edgesOf (data w)).filter fun e => e.2.1 = b).map fun e =>
        (e.1, (((pooled data).countP fun e' => e'.1 = e.1 : Nat) : K)) := by
    intro w
    apply List.map_congr_left
    intro e he
    rw [countP_pooled hmap ⟨e, (List.mem_filter.mp he).1, rfl⟩]
  simp only [hcount]
  rw [← List.map_flatMap, ← List.filter_flatMap]
  rfl

/-- What `allreduce` makes of the sizes: how many vertices there are. -/
theorem sum_cntMap (hmap : Mapped data) :
    ∑ w, (cntMap (K := K) (data w)).keys.length = (nodes data).length := by
  have hkeys : ∀ w a, a ∈ (cntMap (K := K) (data w)).keys ↔ Owns (data w) a :=
    fun w a => (cntMap_table (data w)).mem_keys a
  have hperm : ((List.finRange n).flatMap fun w => (cntMap (K := K) (data w)).keys).Perm
      (nodes data) := by
    apply (List.perm_ext_iff_of_nodup _ (List.nodup_dedup _)).mpr
    · intro a
      refine Iff.trans ?_ (mem_nodes data).symm
      rw [List.mem_flatMap]
      simp only [List.mem_finRange, true_and, hkeys]
      rfl
    · rw [List.nodup_flatMap]
      refine ⟨fun w _ => (cntMap (data w)).keys_nodup, ?_⟩
      apply (List.nodup_finRange n).imp
      intro w w' hne a hw hw'
      exact hne (hmap w w' a ((hkeys w a).mp hw) ((hkeys w' a).mp hw'))
  rw [← hperm.length_eq, List.length_flatMap, Fin.sum_univ_def]

end Together

/-! ### The segment of `init_paras` -/

/-- Packed links. -/
def Packed.toLinks {K : Type} : Packed K → Option (Links K)
  | .links l => some l
  | .pr _ => none

theorem toLinks_updater {K : Type} (a b : Packed K) :
    (linksUpdater a b).toLinks = Option.merge (· ++ ·) a.toLinks b.toLinks := by
  cases a <;> cases b <;> rfl

section Servers

variable {n m : Nat} {K : Type} [Field K] {dampingFactor : K} {getServer : Str → Fin m}
  {rounds : Nat} {data : Fin n → Data} {other : Libs (Packed K)}
  {servers : Servers m (Packed K)} {log : List (Fin n × SrvCall m (Packed K))}

/-- The vertices of a worker, in the order of its loops over `kvmap`. -/
def ownKeys (K : Type) [Field K] (data : Data) : List Str :=
  data.order (cntMap (K := K) data).keys

theorem mem_ownKeys {x : Data} {a : Str} : a ∈ ownKeys K x ↔ Owns x a := by
  rw [ownKeys, (x.orders _).mem_iff, (cntMap_table x).mem_keys]

theorem nodup_ownKeys (x : Data) : (ownKeys K x).Nodup :=
  (x.orders _).nodup_iff.mpr (cntMap x).keys_nodup

/-- The vertices that a worker pushes edges for, in the order of its loop over `klstmap`. -/
def enteredKeys (K : Type) [Field K] (data : Data) : List Str :=
  data.order (kvinitMap (K := K) data).keys

theorem mem_enteredKeys {x : Data} {b : Str} : b ∈ enteredKeys K x ↔ Enters x b := by
  rw [enteredKeys, (x.orders _).mem_iff, (kvinitMap_table x).mem_keys]

/-- The pushes of `klstmap`. -/
def linkPushes (getServer : Str → Fin m) (x : Data) : List (SrvCall m (Packed K)) :=
  (enteredKeys K x).map fun b =>
    .paracelBupdate getServer (linksKey b) (.links (ownLinks x b)) none

theorem calls_init (rounds : Nat) (w : Fin n) :
    calls getServer rounds data w (.init : Loc K) =
      (paracelRegisterBupdate m initUpdater ++ linkPushes getServer (data w)) ++
        (ownKeys K (data w)).map fun a => .paracelRead getServer (linksKey a) := by
  have hpushes : linkPushes getServer (data w) = (enteredKeys K (data w)).map fun b =>
      .paracelBupdate getServer (linksKey b)
        (.links (((kvinitMap (K := K) (data w)).lookup b).getD [])) none := by
    apply List.map_congr_left
    intro b hb
    rw [kvinitMap_table (data w) b, if_pos (mem_enteredKeys.mp hb), Option.getD_some]
  rw [hpushes]
  rfl

/-- The calls of the segment, one by one. -/
theorem mem_calls_init {w : Fin n} {c : SrvCall m (Packed K)}
    (h : c ∈ calls getServer rounds data w .init) :
    (∃ i, c = ⟨i, .registerBupdate initUpdater⟩) ∨
      (∃ b l, c = .paracelBupdate getServer (linksKey b) (.links l) none) ∨
      ∃ a, c = .paracelRead getServer (linksKey a) := by
  rw [calls_init, List.mem_append, List.mem_append] at h
  rcases h with (h | h) | h
  · obtain ⟨i, -, rfl⟩ := List.mem_map.mp h
    exact .inl ⟨i, rfl⟩
  · obtain ⟨b, -, rfl⟩ := List.mem_map.mp h
    exact .inr (.inl ⟨b, _, rfl⟩)
  · obtain ⟨a, -, rfl⟩ := List.mem_map.mp h
    exact .inr (.inr ⟨a, rfl⟩)

/-- The links for a vertex that some calls push. -/
def linksOf (b : Str) (cs : List (SrvCall m (Packed K))) : Links K :=
  ((deltasOf (linksKey b) (cs.flatMap fun c => c.req.pairs)).filterMap Packed.toLinks).flatten

omit [Field K] in
theorem linksOf_sublist (b : Str) {cs cs' : List (SrvCall m (Packed K))} (h : cs.Sublist cs') :
    (linksOf b cs).Sublist (linksOf b cs') :=
  (((h.flatMap _).filterMap _).filterMap _).flatten

omit [Field K] in
theorem linksOf_perm (b : Str) {cs cs' : List (SrvCall m (Packed K))} (h : cs.Perm cs') :
    (linksOf b cs).Perm (linksOf b cs') :=
  (((h.flatMap_right _).filterMap _).filterMap _).flatten

omit [Field K] in
theorem linksOf_append (b : Str) (cs cs' : List (SrvCall m (Packed K))) :
    linksOf b (cs ++ cs') = linksOf b cs ++ linksOf b cs' := by
  simp [linksOf]

omit [Field K] in
theorem linksOf_flatMap {ι : Type} (b : Str) (f : ι → List (SrvCall m (Packed K)))
    (is : List ι) : linksOf b (is.flatMap f) = is.flatMap fun i => linksOf b (f i) := by
  induction is with
  | nil => rfl
  | cons i is ih => rw [List.flatMap_cons, linksOf_append, ih, List.flatMap_cons]

omit [Field K] in
theorem linksOf_nil_of_pairs (b : Str) {cs : List (SrvCall m (Packed K))}
    (h : ∀ c ∈ cs, c.req.pairs = []) : linksOf b cs = [] := by
  have hnil : (cs.flatMap fun c => c.req.pairs) = [] := List.flatMap_eq_nil_iff.mpr h
  rw [linksOf, hnil]
  rfl

theorem linksOf_linkPushes (x : Data) (b : Str) :
    linksOf b (linkPushes (K := K) getServer x) = ownLinks x b := by
  have hkeys : ∀ bs : List Str, bs.Nodup →
      linksOf b (bs.map fun b => (.paracelBupdate getServer (linksKey b) (.links (ownLinks x b))
        none : SrvCall m (Packed K))) = if b ∈ bs then ownLinks x b else [] := by
    intro bs
    induction bs with
    | nil => exact fun _ => rfl
    | cons b' bs ih =>
        intro hnodup
        rw [List.nodup_cons] at hnodup
        have hone : linksOf b [(.paracelBupdate getServer (linksKey b') (.links (ownLinks x b'))
            none : SrvCall m (Packed K))] = if b' = b then ownLinks x b else [] := by
          by_cases hb : b' = b
          · subst hb
            simp [linksOf, SrvCall.paracelBupdate, Request.pairs, deltasOf_cons, Packed.toLinks]
          · have hkey : linksKey b' ≠ linksKey b := fun h => hb (linksKey_inj.mp h)
            simp [linksOf, SrvCall.paracelBupdate, Request.pairs, deltasOf_cons, hb, hkey]
        rw [List.map_cons, ← List.singleton_append, linksOf_append, hone, ih hnodup.2]
        by_cases hb : b' = b
        · subst hb
          simp [hnodup.1]
        · simp [hb, Ne.symm hb]
  have hnodup : (enteredKeys K x).Nodup := (x.orders _).nodup_iff.mpr (kvinitMap x).keys_nodup
  rw [linkPushes, hkeys _ hnodup]
  by_cases hb : Enters x b
  · rw [if_pos (mem_enteredKeys.mpr hb)]
  · rw [if_neg fun h => hb (mem_enteredKeys.mp h), eq_comm, ownLinks, List.map_eq_nil_iff,
      List.filter_eq_nil_iff]
    intro e he hin
    exact hb ⟨e, he, of_decide_eq_true hin⟩

omit [Field K] in
theorem linksOf_register (b : Str) :
    linksOf b (paracelRegisterBupdate m initUpdater : List (SrvCall m (Packed K))) = [] := by
  apply linksOf_nil_of_pairs
  intro c hc
  obtain ⟨i, -, rfl⟩ := List.mem_map.mp hc
  rfl

theorem linksOf_calls (rounds : Nat) (w : Fin n) (b : Str) :
    linksOf b (calls getServer rounds data w (.init : Loc K)) = ownLinks (data w) b := by
  have hreads : linksOf b ((ownKeys K (data w)).map fun a =>
      (.paracelRead getServer (linksKey a) : SrvCall m (Packed K))) = [] := by
    apply linksOf_nil_of_pairs
    intro c hc
    obtain ⟨a, -, rfl⟩ := List.mem_map.mp hc
    rfl
  rw [calls_init, linksOf_append, linksOf_append, linksOf_register, hreads, linksOf_linkPushes,
    List.nil_append, List.append_nil]

/-- The servers after part of the calls of the segment: every worker that has pushed had
    registered the updater on all servers before, so the lists under a key are put together. -/
structure Collected (pre : List (Fin n × SrvCall m (Packed K))) (servers : Servers m (Packed K))
    (lib : Libs (Packed K)) (getServer : Str → Fin m) : Prop where
  updater : ∀ w i, (w, ⟨i, .registerBupdate initUpdater⟩) ∈ pre →
    Servers.updater lib servers i = linksUpdater
  links : ∀ b, servers.value getServer (linksKey b) = mergeAll linksUpdater none
    (deltasOf (linksKey b) ((pre.map Prod.snd).flatMap fun c => c.req.pairs))
  pr : ∀ a, servers.value getServer (prKey a) = none
  placed : Servers.Placed getServer servers

section Collected

variable {pre : List (Fin n × SrvCall m (Packed K))}

omit [Field K] in
theorem collected_nil :
    Collected (n := n) [] (fun _ => {} : Servers m (Packed K)) (prLib other) getServer where
  updater := fun _ _ h => absurd h List.not_mem_nil
  links := fun _ => rfl
  pr := fun _ => rfl
  placed := Servers.placed_empty

omit [Field K] in
/-- A worker registers the updater on a server. -/
theorem Collected.register (h : Collected pre servers (prLib other) getServer) (w : Fin n)
    (i : Fin m) : Collected (pre ++ [(w, ⟨i, .registerBupdate initUpdater⟩)])
      (Servers.handle (prLib other) servers ⟨i, .registerBupdate initUpdater⟩).2 (prLib other)
      getServer where
  updater := by
    intro w' j hj
    rw [Servers.updater_register]
    split
    · simp [prLib]
    · rename_i hne
      rcases List.mem_append.mp hj with hj | hj
      · exact h.updater w' j hj
      · cases List.mem_singleton.mp hj
        exact absurd rfl hne
  links := by
    intro b
    rw [Servers.value_register, h.links b]
    simp [Request.pairs]
  pr := by
    intro a
    rw [Servers.value_register, h.pr a]
  placed := h.placed.handle (.quiet _ rfl)

omit [Field K] in
/-- A worker that has registered it everywhere pushes the edges into a vertex. -/
theorem Collected.push (h : Collected pre servers (prLib other) getServer) {w : Fin n}
    (hforce : ∀ i, (w, ⟨i, .registerBupdate initUpdater⟩) ∈ pre) (b : Str) (l : Links K) :
    Collected (pre ++ [(w, .paracelBupdate getServer (linksKey b) (.links l) none)])
      (Servers.handle (prLib other) servers
        (.paracelBupdate getServer (linksKey b) (.links l) none)).2 (prLib other) getServer where
  updater := by
    intro w' j _
    rw [Servers.updater_bupdate]
    exact h.updater w j (hforce j)
  links := by
    intro b'
    rw [Servers.value_paracelBupdate, List.map_append, List.flatMap_append, deltasOf_append,
      mergeAll_append, ← h.links b']
    by_cases hb : b' = b
    · subst hb
      rw [if_pos rfl]
      have hchosen : chosen (prLib other) ((servers (getServer (linksKey b'))).envs 3)
          none = linksUpdater := h.updater w _ (hforce _)
      simp [SrvCall.paracelBupdate, Request.pairs, deltasOf_cons, hchosen]
    · have hkey : linksKey b ≠ linksKey b' := fun heq => hb (linksKey_inj.mp heq).symm
      rw [if_neg hkey.symm]
      simp [SrvCall.paracelBupdate, Request.pairs, deltasOf_cons, hkey]
  pr := by
    intro a
    rw [Servers.value_paracelBupdate, if_neg (prKey_ne_linksKey a b), h.pr a]
  placed := h.placed.handle (.bupdate _ _ _)

omit [Field K] in
theorem Collected.read (h : Collected pre servers (prLib other) getServer) (w : Fin n) (a : Str) :
    Collected (pre ++ [(w, .paracelRead getServer (linksKey a))])
      (Servers.handle (prLib other) servers (.paracelRead getServer (linksKey a))).2 (prLib other)
      getServer where
  updater := by
    intro w' j hj
    rw [Servers.handle_read_snd]
    rcases List.mem_append.mp hj with hj | hj
    · exact h.updater w' j hj
    · cases List.mem_singleton.mp hj
  links := by
    intro b
    rw [Servers.handle_read_snd, h.links b]
    simp [SrvCall.paracelRead, Request.pairs]
  pr := by
    rw [Servers.handle_read_snd]
    exact h.pr
  placed := by
    rw [Servers.handle_read_snd]
    exact h.placed

end Collected

/-- Before it pushes edges, a worker has registered the updater everywhere. -/
theorem registered_of_before {w : Fin n} {b : Str} {l : Links K}
    {pre post : List (Fin n × SrvCall m (Packed K))}
    (hlogs : (⟨fun _ => .init, fun _ => {}⟩ :
      Segments.Config n (Loc K) (Servers m (Packed K))).Logs
      (solve dampingFactor getServer rounds data) log)
    (hlog : log = pre ++ (w, .paracelBupdate getServer (linksKey b) (.links l) none) :: post)
    (i : Fin m) : (w, ⟨i, .registerBupdate initUpdater⟩) ∈ pre := by
  have hw : Spmd.callsOf w log = paracelRegisterBupdate m initUpdater ++
      (linkPushes getServer (data w) ++ (ownKeys K (data w)).map fun a =>
        .paracelRead getServer (linksKey a)) := by
    rw [← List.append_assoc]
    exact (hlogs w).trans (calls_init rounds w)
  apply Segments.mem_callsOf_of_before hlog hw
  · intro hin
    obtain ⟨j, -, hj⟩ := List.mem_map.mp hin
    cases hj
  · exact List.mem_map.mpr ⟨i, List.mem_finRange i, rfl⟩

theorem collected_of_append
    (hlogs : (⟨fun _ => .init, fun _ => {}⟩ :
      Segments.Config n (Loc K) (Servers m (Packed K))).Logs
      (solve dampingFactor getServer rounds data) log)
    (pre post : List (Fin n × SrvCall m (Packed K))) (hlog : log = pre ++ post) :
    Collected pre (Spmd.replay (Servers.handle (prLib other)) (fun _ => {}) (pre.map Prod.snd))
      (prLib other) getServer := by
  induction pre using List.reverseRecOn generalizing post with
  | nil => exact collected_nil
  | append_singleton pre e ih =>
      obtain ⟨w, c⟩ := e
      rw [List.append_assoc, List.singleton_append] at hlog
      have h := ih _ hlog
      have hmem : c ∈ calls getServer rounds data w .init :=
        hlogs.mem (e := (w, c)) (by rw [hlog]; simp)
      rw [List.map_append, Spmd.replay_append]
      rcases mem_calls_init hmem with ⟨i, rfl⟩ | ⟨b, l, rfl⟩ | ⟨a, rfl⟩
      · exact h.register w i
      · exact h.push (registered_of_before hlogs hlog) b l
      · exact h.read w a

omit [Field K] in
/-- What a read of links finds then: those pushed so far. -/
theorem Collected.readLinks {pre : List (Fin n × SrvCall m (Packed K))}
    (h : Collected pre servers (prLib other) getServer) (b : Str) :
    PageRank.readLinks (Servers.handle (prLib other) servers
      (.paracelRead getServer (linksKey b))).1 = linksOf b (pre.map Prod.snd) := by
  have hobs : (servers.value getServer (linksKey b)).bind Packed.toLinks =
      mergeAll (· ++ ·) none ((deltasOf (linksKey b)
        ((pre.map Prod.snd).flatMap fun c => c.req.pairs)).filterMap Packed.toLinks) := by
    rw [h.links b, mergeAll_bind toLinks_updater]
    rfl
  have hread : ∀ v : Option (Packed K), (match v.getD default with
      | .links l => l
      | .pr _ => []) = (v.bind Packed.toLinks).getD [] := by
    intro v
    cases v with
    | none => rfl
    | some v => cases v <;> rfl
  rw [PageRank.readLinks, Servers.readVal_read, hread, hobs, mergeAll_flatten, linksOf]
  split
  · rename_i hnil
    rw [hnil]
    rfl
  · rfl

end Servers

/-! ### What segments leave -/

/-- Lists of links, one for each vertex, of which each has at least the edges that the worker
    of the vertex has loaded, and no edge that is not there. -/
def Linked {n : Nat} {K : Type} [Field K] (data : Fin n → Data) (links : Str → Links K) : Prop :=
  ∀ w a, Owns (data w) a →
    (ownLinks (data w) a).Subperm (links a) ∧ (links a).Subperm (inLinks data a)

/-- The ranks of all vertices are on the servers, and no others. -/
structure Holds {n m : Nat} {K : Type} (data : Fin n → Data) (getServer : Str → Fin m)
    (servers : Servers m (Packed K)) (pr : Str → K) : Prop where
  pr : ∀ a, IsNode data a → servers.value getServer (prKey a) = some (.pr (pr a))
  other : ∀ a, ¬IsNode data a → servers.value getServer (prKey a) = none
  placed : Servers.Placed getServer servers

section Servers

variable {n m : Nat} {K : Type} [Field K] {dampingFactor : K} {getServer : Str → Fin m}
  {rounds : Nat} {data : Fin n → Data} {servers : Servers m (Packed K)} {loc : Fin n → Loc K}
  {log : List (Fin n × SrvCall m (Packed K))}

theorem isNode_of_mem_inLinks {a : Str} {item : Str × K} (h : item ∈ inLinks data a) :
    IsNode data item.1 := by
  obtain ⟨e, he, rfl⟩ := List.mem_map.mp h
  obtain ⟨w, -, hw⟩ := List.mem_flatMap.mp (List.mem_filter.mp he).1
  exact ⟨w, e, hw, rfl⟩

omit [Field K] in
/-- Lists of a worker each make one of all workers, where no two have one vertex. -/
theorem exists_links (hmap : Mapped data) (g : Fin n → Str → Links K) :
    ∃ links : Str → Links K, ∀ w a, Owns (data w) a → links a = g w a := by
  refine ⟨fun a => if h : ∃ w, Owns (data w) a then g h.choose a else [], ?_⟩
  intro w a ha
  have hnode : ∃ w, Owns (data w) a := ⟨w, ha⟩
  refine (dif_pos hnode).trans ?_
  rw [hmap _ _ a hnode.choose_spec ha]

/-- The segment of `init_paras` leaves no ranks, and every worker has some of the edges into
    each of its vertices, its own among them. -/
theorem after_init (other : Libs (Packed K)) (hmap : Mapped data)
    (hlogs : (⟨fun _ => .init, fun _ => {}⟩ :
      Segments.Config n (Loc K) (Servers m (Packed K))).Logs
      (solve dampingFactor getServer rounds data) log) :
    Collected log (Spmd.replay (Servers.handle (prLib other)) (fun _ => {}) (log.map Prod.snd))
        (prLib other) getServer ∧
      ∃ links, Linked data links ∧ ∀ w, linkReplies (ownKeys K (data w)).length
        (Segments.repliesOf (Servers.handle (prLib other)) w (fun _ => {}) log) =
          (ownKeys K (data w)).map links := by
  refine ⟨collected_of_append hlogs log [] (List.append_nil log).symm, ?_⟩
  have hreplies := fun w => Segments.exists_last_replies (Servers.handle (prLib other))
    (fun _ => {}) (nodup_ownKeys (K := K) (data w)) ((hlogs w).trans (calls_init rounds w))
  choose g hdrop hreply using hreplies
  obtain ⟨links, hlinks⟩ := exists_links hmap fun w a => readLinks (g w a)
  refine ⟨links, ?_, ?_⟩
  · intro w a ha
    obtain ⟨pre, post, hlog, hpre, hga⟩ := hreply w a (mem_ownKeys.mpr ha)
    have hread : links a = linksOf a (pre.map Prod.snd) := by
      rw [hlinks w a ha, hga]
      exact (collected_of_append hlogs pre _ hlog).readLinks a
    rw [hread]
    constructor
    · have hown : linksOf a (paracelRegisterBupdate m initUpdater ++
          linkPushes getServer (data w)) = ownLinks (K := K) (data w) a := by
        rw [linksOf_append, linksOf_register, linksOf_linkPushes, List.nil_append]
      rw [← hown]
      apply List.Sublist.subperm
      apply linksOf_sublist
      exact hpre.sublist.trans (List.filter_sublist.map _)
    · have hall : (linksOf a (log.map Prod.snd)).Perm (inLinks data a) := by
        refine (linksOf_perm a hlogs.perm).trans (.of_eq ?_)
        rw [linksOf_flatMap, ← flatMap_ownLinks hmap]
        apply List.flatMap_congr
        intro x _
        exact linksOf_calls rounds x a
      refine List.Subperm.trans (List.Sublist.subperm ?_) hall.subperm
      apply linksOf_sublist
      rw [hlog, List.map_append]
      exact List.sublist_append_left _ _
  · intro w
    rw [linkReplies, hdrop w, List.map_map]
    apply List.map_congr_left
    intro a ha
    exact (hlinks w a (mem_ownKeys.mp ha)).symm

/-- A segment of pushes leaves the ranks that the workers have. -/
theorem after_pushes (other : Libs (Packed K)) {kvmap : Fin n → Dict Str K} {pr : Str → K}
    (htable : ∀ w, Table (kvmap w) (Owns (data w)) pr)
    (hlogs : (⟨loc, servers⟩ : Segments.Config n (Loc K) _).Logs
      (solve dampingFactor getServer rounds data) log)
    (hcalls : ∀ w, calls getServer rounds data w (loc w) = pushes getServer data w (kvmap w))
    (hother : ∀ a, ¬IsNode data a → servers.value getServer (prKey a) = none)
    (hplaced : Servers.Placed getServer servers) :
    Holds data getServer (Spmd.replay (Servers.handle (prLib other)) servers
      (log.map Prod.snd)) pr := by
  have hpush : ∀ w c, c ∈ pushes getServer data w (kvmap w) ↔
      ∃ a, Owns (data w) a ∧ c = .paracelWrite getServer (prKey a) (.pr (pr a)) := by
    intro w c
    simp only [pushes, List.mem_map, ((data w).orders _).mem_iff, (htable w).mem_keys]
    apply exists_congr
    intro a
    apply and_congr_right
    intro ha
    rw [htable w a, if_pos ha, Option.getD_some]
    exact eq_comm
  have hmem : ∀ c ∈ log.map Prod.snd, ∃ a, IsNode data a ∧
      c = .paracelWrite getServer (prKey a) (.pr (pr a)) := by
    intro c hc
    obtain ⟨e, he, rfl⟩ := List.mem_map.mp hc
    have hin : e.2 ∈ calls getServer rounds data e.1 (loc e.1) := hlogs.mem he
    rw [hcalls, hpush] at hin
    obtain ⟨a, ha, hc⟩ := hin
    exact ⟨a, ⟨e.1, ha⟩, hc⟩
  constructor
  · intro a ha
    obtain ⟨w, hw⟩ := ha
    apply Servers.value_of_write
    · have hcallsOf : Spmd.callsOf w log = pushes getServer data w (kvmap w) :=
        (hlogs w).trans (hcalls w)
      have hin : (.paracelWrite getServer (prKey a) (.pr (pr a))) ∈ Spmd.callsOf w log := by
        rw [hcallsOf, hpush]
        exact ⟨a, hw, rfl⟩
      exact List.mem_map.mpr ⟨_, Segments.mem_of_mem_callsOf hin, rfl⟩
    · intro c hc
      obtain ⟨a', -, rfl⟩ := hmem c hc
      refine ⟨_, _, rfl, fun hkey => ?_⟩
      rw [prKey_inj.mp hkey]
  · intro a ha
    rw [← hother a ha]
    apply Servers.value_of_writes_ne
    intro c hc
    obtain ⟨a', ha', rfl⟩ := hmem c hc
    refine ⟨_, _, rfl, fun hkey => ha ?_⟩
    rw [← prKey_inj.mp hkey]
    exact ha'
  · apply hplaced.replay
    intro c hc
    obtain ⟨a', -, rfl⟩ := hmem c hc
    exact .write _ _

/-- The ranks that a worker pulls are of vertices that some worker has. -/
theorem isNode_of_mem_staleKeys {w : Fin n} {klstmap : Dict Str (Links K)} {links : Str → Links K}
    (hlinked : Linked data links) (hklst : Table klstmap (Owns (data w)) links) {a : Str}
    (ha : a ∈ staleKeys (data w) klstmap) : IsNode data a := by
  obtain ⟨b, hb, hin⟩ := (mem_staleKeys (data w)).mp ha
  have hown := (hklst.mem_keys b).mp hb
  rw [hklst b, if_pos hown, Option.getD_some] at hin
  obtain ⟨item, hitem, rfl⟩ := List.mem_map.mp hin
  exact isNode_of_mem_inLinks ((hlinked w b hown).2.subset hitem)

/-- A segment of pulls: the map of the round gives every vertex its next rank. -/
theorem after_pull (other : Libs (Packed K)) {rd : Nat} {klstmap : Fin n → Dict Str (Links K)}
    {kvmap : Fin n → Dict Str K} {links : Str → Links K} {pr : Str → K}
    (hlinked : Linked data links) (hklst : ∀ w, Table (klstmap w) (Owns (data w)) links)
    (hkvmap : ∀ w, Table (kvmap w) (Owns (data w)) pr) (h : Holds data getServer servers pr)
    (hlogs : (⟨fun w => .pull rd (klstmap w) (kvmap w), servers⟩ :
      Segments.Config n (Loc K) _).Logs (solve dampingFactor getServer rounds data) log) :
    Spmd.replay (Servers.handle (prLib other)) servers (log.map Prod.snd) = servers ∧
      ∀ w, Table (mapRound (data w) dampingFactor
        (fillWith (pullKeys (data w) rd (klstmap w)) ((Segments.repliesOf
          (Servers.handle (prLib other)) w servers log).map fun r => (readVal r).toPr) ∅)
        (klstmap w) (kvmap w)) (Owns (data w)) fun b => rankOf dampingFactor (links b) pr := by
  obtain ⟨hafter, hreplies⟩ := Servers.of_reads (prLib other) hlogs (by
    intro w c hc
    obtain ⟨a, -, rfl⟩ := List.mem_map.mp hc
    exact ⟨prKey a, rfl⟩)
  refine ⟨hafter, fun w => ?_⟩
  have hvals : (Segments.repliesOf (Servers.handle (prLib other)) w servers log).map
      (fun r => (readVal r).toPr) = (pullKeys (data w) rd (klstmap w)).map fun a =>
        ((servers.value getServer (prKey a)).getD default).toPr := by
    rw [hreplies w, List.map_map]
    refine (List.map_map ..).trans (List.map_congr_left fun a _ => ?_)
    exact congrArg Packed.toPr (Servers.readVal_read (prKey a))
  have hstale : ∀ a ∈ staleKeys (data w) (klstmap w),
      (fillWith (pullKeys (data w) rd (klstmap w)) ((Segments.repliesOf
        (Servers.handle (prLib other)) w servers log).map fun r => (readVal r).toPr)
          ∅).lookup a = some (pr a) := by
    intro a ha
    have hnode := isNode_of_mem_staleKeys hlinked (hklst w) ha
    rw [hvals, lookup_fillWith, if_pos ((mem_pullKeys (data w)).mpr ha), h.pr a hnode]
    rfl
  intro b
  rw [lookup_mapRound (data w) dampingFactor hstale]
  by_cases hb : Owns (data w) b
  · rw [if_pos (((hklst w).mem_keys b).mpr hb), if_pos hb, hklst w b, if_pos hb, Option.getD_some]
  · rw [if_neg fun hin => hb (((hklst w).mem_keys b).mp hin), if_neg hb, hkvmap w b, if_neg hb]

/-- The calls of the last segment, one by one. -/
theorem mem_calls_last {w : Fin n} {klstmap : Dict Str (Links K)} {kvmap : Dict Str K}
    {c : SrvCall m (Packed K)} (h : c ∈ calls getServer rounds data w (.last klstmap kvmap)) :
    (∃ key, c = .paracelRead getServer key) ∨ ∃ i func, c = ⟨i, .pullallSpecial (some func)⟩ := by
  rcases List.mem_append.mp h with h | h
  · by_cases hrounds : rounds = 0
    · rw [if_pos hrounds] at h
      obtain ⟨a, -, rfl⟩ := List.mem_map.mp h
      exact .inl ⟨_, rfl⟩
    · rw [if_neg hrounds] at h
      cases h
  · obtain ⟨i, -, rfl⟩ := List.mem_map.mp h
    exact .inr ⟨i, _, rfl⟩

/-- What a worker fetches in the end. -/
theorem after_last (other : Libs (Packed K)) {klstmap : Fin n → Dict Str (Links K)}
    {kvmap : Fin n → Dict Str K} {pr : Str → K} {w : Fin n} (h : Holds data getServer servers pr)
    (hmem : ∀ e ∈ log,
      e.2 ∈ calls getServer rounds data e.1 (.last (klstmap e.1) (kvmap e.1)))
    (hcalls : Spmd.callsOf w log =
      calls getServer rounds data w (.last (klstmap w) (kvmap w))) (kv : Str × Packed K) :
    kv ∈ (Segments.repliesOf (Servers.handle (prLib other)) w servers log).flatMap dctPairs ↔
      ∃ a, IsNode data a ∧ kv = (prKey a, .pr (pr a)) := by
  have hquiet : ∀ e ∈ log, e.2.req.quiet := by
    intro e he
    rcases mem_calls_last (hmem e he) with ⟨key, hkey⟩ | ⟨i, func, hc⟩
    · rw [hkey]
      rfl
    · rw [hc]
      rfl
  have hreplies : Segments.repliesOf (Servers.handle (prLib other)) w servers log =
      (calls getServer rounds data w (.last (klstmap w) (kvmap w))).map fun c =>
        (Servers.handle (prLib other) servers c).1 := by
    rw [← hcalls]
    apply Segments.repliesOf_eq_map
      (P := fun s : Servers m (Packed K) => ∀ i, (s i).tblStore = (servers i).tblStore)
    · intro e he s hs i
      rw [Servers.handle_snd]
      by_cases hi : i = e.2.indx
      · subst hi
        rw [Function.update_self]
        exact (tblStore_thrdExec_quiet (hquiet e he)).trans (hs _)
      · rw [Function.update_of_ne hi]
        exact hs i
    · intro e he _ s hs
      exact Servers.handle_fst_congr (mem_calls_last (hmem e he)) hs
    · exact fun i => rfl
  have hspecial : ∀ i, kv ∈ dctPairs (Servers.handle (prLib other) servers
      ⟨i, .pullallSpecial (some prFilter)⟩).1 ↔
      (servers i).tblStore.get kv.1 = some kv.2 ∧ localFilter kv.1 := by
    intro i
    have hfilter : (prLib other).filter prFilter = fun key _ => localFilter key := by
      simp [prLib]
    rw [dctPairs, Servers.mem_dctVal, hfilter]
  have hread : ∀ key, dctPairs (Servers.handle (prLib other) servers
      (.paracelRead getServer key)).1 = [] := by
    intro key
    simp only [dctPairs, dctVal, Servers.handle, SrvCall.paracelRead, serve_sent, thrdExec]
    cases ((servers (getServer key)).mem (Request.pull key : Request (Packed K)).port
      ).tblStore.get key <;> rfl
  rw [hreplies, List.mem_flatMap]
  constructor
  · intro hkv
    obtain ⟨r, hr, hkv⟩ := hkv
    obtain ⟨c, hc, rfl⟩ := List.mem_map.mp hr
    rcases List.mem_append.mp hc with hc | hc
    · by_cases hrounds : rounds = 0
      · rw [if_pos hrounds] at hc
        obtain ⟨a, -, rfl⟩ := List.mem_map.mp hc
        rw [hread] at hkv
        cases hkv
      · rw [if_neg hrounds] at hc
        cases hc
    · obtain ⟨i, -, rfl⟩ := List.mem_map.mp hc
      obtain ⟨hget, hfilter⟩ := (hspecial i).mp hkv
      obtain ⟨a, ha⟩ := localFilter_iff.mp hfilter
      have hvalue : servers.value getServer (prKey a) = some kv.2 := by
        rw [← ha, Servers.value, h.placed i kv.1 (by rw [hget]; rfl), hget]
      by_cases hnode : IsNode data a
      · rw [h.pr a hnode, Option.some.injEq] at hvalue
        exact ⟨a, hnode, Prod.ext ha hvalue.symm⟩
      · rw [h.other a hnode] at hvalue
        cases hvalue
  · intro hkv
    obtain ⟨a, ha, rfl⟩ := hkv
    refine ⟨_, List.mem_map.mpr ⟨⟨getServer (prKey a), .pullallSpecial (some prFilter)⟩,
      List.mem_append_right _ (List.mem_map.mpr ⟨_, List.mem_finRange _, rfl⟩), rfl⟩, ?_⟩
    rw [hspecial]
    exact ⟨h.pr a ha, localFilter_iff.mpr ⟨a, rfl⟩⟩

end Servers

/-! ### Runs -/

/-- Where all workers are at the start of a segment, and what the servers then hold. -/
inductive Stage {n m : Nat} {K : Type} [Field K] (data : Fin n → Data) (dampingFactor : K)
    (getServer : Str → Fin m) (rounds : Nat) :
    Segments.Config n (Loc K) (Servers m (Packed K)) → Prop where
  | init : Stage data dampingFactor getServer rounds ⟨fun _ => .init, fun _ => {}⟩
  | push (servers) (klstmap : Fin n → Dict Str (Links K))
      (kvmap : Fin n → Dict Str K) (links : Str → Links K) (hlinked : Linked data links)
      (hklst : ∀ w, Table (klstmap w) (Owns (data w)) links)
      (hkvmap : ∀ w, Table (kvmap w) (Owns (data w)) (prAfter data dampingFactor links 0))
      (hnone : ∀ a, servers.value getServer (prKey a) = none)
      (hplaced : Servers.Placed getServer servers) :
      Stage data dampingFactor getServer rounds
        ⟨fun w => .push (klstmap w) (kvmap w), servers⟩
  | pull (servers) (klstmap : Fin n → Dict Str (Links K))
      (kvmap : Fin n → Dict Str K) (links : Str → Links K) (hlinked : Linked data links)
      (hklst : ∀ w, Table (klstmap w) (Owns (data w)) links) (rd : Nat) (hrd : rd < rounds)
      (hkvmap : ∀ w, Table (kvmap w) (Owns (data w)) (prAfter data dampingFactor links rd))
      (hholds : Holds data getServer servers (prAfter data dampingFactor links rd)) :
      Stage data dampingFactor getServer rounds
        ⟨fun w => .pull rd (klstmap w) (kvmap w), servers⟩
  | reduce (servers) (klstmap : Fin n → Dict Str (Links K))
      (kvmap : Fin n → Dict Str K) (links : Str → Links K) (hlinked : Linked data links)
      (hklst : ∀ w, Table (klstmap w) (Owns (data w)) links) (rd : Nat) (hrd : rd < rounds)
      (hkvmap : ∀ w, Table (kvmap w) (Owns (data w)) (prAfter data dampingFactor links (rd + 1)))
      (hholds : Holds data getServer servers (prAfter data dampingFactor links rd)) :
      Stage data dampingFactor getServer rounds
        ⟨fun w => .reduce rd (klstmap w) (kvmap w), servers⟩
  | last (servers) (klstmap : Fin n → Dict Str (Links K))
      (kvmap : Fin n → Dict Str K) (links : Str → Links K) (hlinked : Linked data links)
      (hklst : ∀ w, Table (klstmap w) (Owns (data w)) links)
      (hkvmap : ∀ w, Table (kvmap w) (Owns (data w)) (prAfter data dampingFactor links rounds))
      (hholds : Holds data getServer servers (prAfter data dampingFactor links rounds)) :
      Stage data dampingFactor getServer rounds
        ⟨fun w => .last (klstmap w) (kvmap w), servers⟩

section Runs

variable {n m : Nat} {K : Type} [Field K] {dampingFactor : K} {getServer : Str → Fin m}
  {rounds : Nat} {data : Fin n → Data} {other : Libs (Packed K)}
  {log : List (Fin n × SrvCall m (Packed K))}
  {cfg cfg' : Segments.Config n (Loc K) (Servers m (Packed K))}

/-- What the `allreduce` brings together. -/
theorem sum_nodeSz (hmap : Mapped data) {c : Fin n → Meet}
    (h : ∀ w, some (c w) = meet data w (.init : Loc K)) :
    ∑ w, (c w).nodeSz = (nodes data).length := by
  rw [← sum_cntMap (K := K) hmap]
  apply Finset.sum_congr rfl
  intro w _
  rw [Option.some.inj (h w)]
  rfl

/-- One segment leads from a stage to the next. -/
theorem Stage.leads (hn : 0 < n) (hmap : Mapped data)
    (h : Stage data dampingFactor getServer rounds cfg)
    (hleads : Segments.Leads (solve dampingFactor getServer rounds data)
      (Servers.handle (prLib other)) cfg cfg') :
    Stage data dampingFactor getServer rounds cfg' := by
  obtain ⟨log, c, hseg⟩ := hleads
  have hlogs := hseg.logs
  rw [hseg.eq]
  cases h with
  | init =>
      obtain ⟨hcollected, links, hlinked, hread⟩ := after_init other hmap hlogs
      have hsize := sum_nodeSz (K := K) hmap fun w => (hseg.offers w).symm
      apply Stage.push _ _ _ links hlinked _ _ hcollected.pr hcollected.placed
      · intro w a
        show (fillWith (ownKeys K (data w)) (linkReplies (ownKeys K (data w)).length _) ∅).lookup
          a = _
        rw [hread w, lookup_fillWith, AList.lookup_empty]
        simp only [mem_ownKeys]
      · intro w a
        show ((ownKeys K (data w)).foldl (fun (kvmap : Dict Str K) a => kvmap.insert a _)
          _).lookup a = _
        rw [lookup_foldl_set, hsize, cntMap_table (data w) a]
        simp only [mem_ownKeys]
        by_cases ha : Owns (data w) a
        · rw [if_pos ha, if_pos ha]
          rfl
        · rw [if_neg ha, if_neg ha, if_neg ha]
  | push servers klstmap kvmap links hlinked hklst hkvmap hnone hplaced =>
      have hholds := after_pushes other hkvmap hlogs (fun _ => rfl) (fun a _ => hnone a) hplaced
      by_cases hpos : 0 < rounds
      · simp only [solve, next, if_pos hpos]
        exact .pull _ _ _ links hlinked hklst 0 hpos hkvmap hholds
      · simp only [solve, next, if_neg hpos]
        obtain rfl : rounds = 0 := by omega
        exact .last _ _ _ links hlinked hklst hkvmap hholds
  | pull servers klstmap kvmap links hlinked hklst rd hrd hkvmap hholds =>
      obtain ⟨hafter, hmapped⟩ := after_pull other hlinked hklst hkvmap hholds hlogs
      simp only [solve, next, Segments.Config.after, hafter]
      exact .reduce _ _ _ links hlinked hklst rd hrd hmapped hholds
  | reduce servers klstmap kvmap links hlinked hklst rd hrd hkvmap hholds =>
      have hholds' := after_pushes other hkvmap hlogs (fun _ => rfl) hholds.other hholds.placed
      by_cases hmore : rd + 1 < rounds
      · simp only [solve, next, if_pos hmore]
        exact .pull _ _ _ links hlinked hklst (rd + 1) hmore hkvmap hholds'
      · simp only [solve, next, if_neg hmore]
        obtain rfl : rounds = rd + 1 := by omega
        exact .last _ _ _ links hlinked hklst hkvmap hholds'
  | last servers klstmap kvmap links hlinked hklst hkvmap hholds =>
      have hnone := hseg.offers ⟨0, hn⟩
      cases hnone

/-- Every vertex that a worker has is also at the end of an edge that it has loaded. Then it has
    pushed a list for the vertex before it reads one. -/
def Entered (data : Fin n → Data) : Prop :=
  ∀ w a, Owns (data w) a → Enters (data w) a

/-- No call of such workers asks for a key that is not there. -/
theorem Stage.calls_ok (hentered : Entered data)
    (h : Stage data dampingFactor getServer rounds cfg)
    (hlogs : cfg.Logs (solve dampingFactor getServer rounds data) log) (w : Fin n) :
    ∀ r ∈ Segments.repliesOf (Servers.handle (prLib other)) w cfg.store log, readOk r := by
  cases h with
  | init =>
      apply Servers.replies_ok (prLib other) getServer hlogs
      · intro w c hc
        have hmem : c ∈ calls getServer rounds data w .init := hc
        rcases mem_calls_init hmem with ⟨i, rfl⟩ | ⟨b, l, rfl⟩ | ⟨a, rfl⟩
        · exact .quiet _ rfl
        · exact .bupdate _ _ _
        · exact .quiet _ rfl
      · refine fun w => ⟨_, _, calls_init rounds w, fun c hc => ?_, fun c hc => ?_⟩
        · rcases List.mem_append.mp hc with hc | hc
          · obtain ⟨i, -, rfl⟩ := List.mem_map.mp hc
            exact .inl nofun
          · obtain ⟨b, -, rfl⟩ := List.mem_map.mp hc
            exact .inl nofun
        · obtain ⟨a, ha, rfl⟩ := List.mem_map.mp hc
          have hpushed := mem_enteredKeys (K := K).mpr (hentered w a (mem_ownKeys.mp ha))
          exact .inr ⟨_, rfl, .inl ⟨_, List.mem_append_right _
            (List.mem_map.mpr ⟨a, hpushed, rfl⟩), rfl⟩⟩
  | push servers klstmap kvmap =>
      apply Servers.replies_ok_of_present (prLib other) getServer hlogs
      intro w c hc
      obtain ⟨a, -, rfl⟩ := List.mem_map.mp hc
      exact ⟨.write _ _, .inl nofun⟩
  | reduce servers klstmap kvmap =>
      apply Servers.replies_ok_of_present (prLib other) getServer hlogs
      intro w c hc
      obtain ⟨a, -, rfl⟩ := List.mem_map.mp hc
      exact ⟨.write _ _, .inl nofun⟩
  | pull servers klstmap kvmap links hlinked hklst rd hrd hkvmap hholds =>
      apply Servers.replies_ok_of_present (prLib other) getServer hlogs
      intro w c hc
      obtain ⟨a, ha, rfl⟩ := List.mem_map.mp hc
      have hnode := isNode_of_mem_staleKeys hlinked (hklst w) ((mem_pullKeys (data w)).mp ha)
      exact ⟨.quiet _ rfl, .inr ⟨_, rfl, Option.isSome_of_eq_some (hholds.pr a hnode)⟩⟩
  | last servers klstmap kvmap links hlinked hklst hkvmap hholds =>
      apply Servers.replies_ok_of_present (prLib other) getServer hlogs
      intro w c hc
      rcases List.mem_append.mp hc with hc | hc
      · by_cases hrounds : rounds = 0
        · rw [if_pos hrounds] at hc
          obtain ⟨a, ha, rfl⟩ := List.mem_map.mp hc
          have hnode := isNode_of_mem_staleKeys hlinked (hklst w) ha
          exact ⟨.quiet _ rfl, .inr ⟨_, rfl, Option.isSome_of_eq_some (hholds.pr a hnode)⟩⟩
        · rw [if_neg hrounds] at hc
          cases hc
      · obtain ⟨i, -, rfl⟩ := List.mem_map.mp hc
        exact ⟨.quiet _ rfl, .inl nofun⟩

/-- The states of the program, from servers that hold nothing. -/
abbrev Runs (dampingFactor : K) (getServer : Str → Fin m) (rounds : Nat) (data : Fin n → Data)
    (other : Libs (Packed K))
    (st : Segments.State n (Loc K) (SrvCall m (Packed K)) (Option (Reply (Packed K)))
      (Servers m (Packed K))) : Prop :=
  Reachable (Segments.checked readOk (solve dampingFactor getServer rounds data)
      (Servers.handle (prLib other)))
    (Segments.start (solve dampingFactor getServer rounds data)
      ⟨fun _ => .init, fun _ => {}⟩) st

variable {st : Segments.State n (Loc K) (SrvCall m (Packed K)) (Option (Reply (Packed K)))
  (Servers m (Packed K))}

/-- Every segment that a run comes to starts from a stage. -/
theorem stage_of_visits (hn : 0 < n) (hmap : Mapped data)
    (h : Segments.Visits (solve dampingFactor getServer rounds data)
      (Servers.handle (prLib other)) ⟨fun _ => .init, fun _ => {}⟩ cfg) :
    Stage data dampingFactor getServer rounds cfg :=
  h.invariant .init fun _ _ hstage hleads => hstage.leads hn hmap hleads

/-- How many segments are left, at most. -/
def level (rounds : Nat) : Loc K → Nat
  | .init => 2 * rounds + 5
  | .push _ _ => 2 * rounds + 4
  | .pull rd _ _ => 2 * (rounds - rd) + 3
  | .reduce rd _ _ => 2 * (rounds - rd) + 2
  | .last _ _ => 0

theorem level_next {w : Fin n} {l : Loc K} (hl : ∀ klstmap kvmap, l ≠ .last klstmap kvmap)
    (rs : List (Option (Reply (Packed K)))) (c : Fin n → Meet) :
    level rounds (next dampingFactor rounds data w l rs c) < level rounds l := by
  cases l with
  | init => simp [next, level]
  | push klstmap kvmap =>
      by_cases hpos : 0 < rounds
      · simp [next, hpos, level]
      · simp [next, hpos, level]
  | pull rd klstmap kvmap => simp [next, level]
  | reduce rd klstmap kvmap =>
      by_cases hmore : rd + 1 < rounds
      · simp only [next, if_pos hmore, level]
        omega
      · simp [next, if_neg hmore, level]
  | last klstmap kvmap => exact absurd rfl (hl klstmap kvmap)

/-- All workers are in the last pull, or all go on with one operation. -/
theorem Stage.agree (h : Stage data dampingFactor getServer rounds cfg) {sem} :
    (∀ w, ∃ klstmap kvmap, cfg.loc w = .last klstmap kvmap) ∨
      ∃ c, (∀ w, cfg.offer (solve dampingFactor getServer rounds data) sem log w = some (c w)) ∧
        (solve dampingFactor getServer rounds data).Matched c := by
  cases h with
  | init => exact .inr ⟨_, fun _ => rfl, fun _ _ => rfl⟩
  | push servers klstmap kvmap => exact .inr ⟨fun _ => .sync, fun _ => rfl, fun _ _ => rfl⟩
  | pull servers klstmap kvmap => exact .inr ⟨fun _ => .sync, fun _ => rfl, fun _ _ => rfl⟩
  | reduce servers klstmap kvmap => exact .inr ⟨fun _ => .sync, fun _ => rfl, fun _ _ => rfl⟩
  | last servers klstmap kvmap => exact .inl fun w => ⟨_, _, rfl⟩

/-- Every run of such workers can be continued until all have all ranks. -/
theorem Runs.exists_last (hn : 0 < n) (hmap : Mapped data) (hentered : Entered data)
    (h : Runs dampingFactor getServer rounds data other st) :
    ∃ t, Reachable (Segments.checked readOk (solve dampingFactor getServer rounds data)
        (Servers.handle (prLib other))) st t ∧
      ∀ w, (∃ klstmap kvmap, (t.loc w).base = .last klstmap kvmap) ∧ (t.loc w).todo = [] := by
  have hlast : ∀ {cfg : Segments.Config n (Loc K) (Servers m (Packed K))} {w log sem},
      (∃ klstmap kvmap, cfg.loc w = .last klstmap kvmap) →
      cfg.offer (solve dampingFactor getServer rounds data) sem log w = none := by
    intro cfg w log sem h
    obtain ⟨klstmap, kvmap, hw⟩ := h
    simp only [Segments.Config.offer, solve, hw, meet]
  have hanswered : Segments.Answered readOk (solve dampingFactor getServer rounds data)
      (Servers.handle (prLib other)) ⟨fun _ => .init, fun _ => {}⟩ :=
    fun _ _ hvisits => (stage_of_visits hn hmap hvisits).calls_ok hentered
  obtain ⟨t, ht, hhalted⟩ := hanswered.exists_halted (fun loc => level rounds (loc ⟨0, hn⟩))
    (by
      intro cfg log hvisits _
      rcases (stage_of_visits hn hmap hvisits).agree with hall | hmatched
      · exact .inl fun w => hlast (hall w)
      · exact .inr hmatched)
    (by
      intro cfg cfg' hvisits hleads
      obtain ⟨log, c, hseg⟩ := hleads
      rw [hseg.loc]
      apply level_next
      intro klstmap kvmap hw
      have hoffer := hseg.offers ⟨0, hn⟩
      rw [hlast ⟨klstmap, kvmap, hw⟩] at hoffer
      cases hoffer) h
  refine ⟨t, ht, fun w => ⟨?_, (hhalted w).1⟩⟩
  have hmeet := (hhalted w).2
  cases hbase : (t.loc w).base with
  | last klstmap kvmap => exact ⟨_, _, rfl⟩
  | init | push | pull | reduce =>
      rw [hbase] at hmeet
      cases hmeet

/-- What the ranks are that every worker has in the end, in every run that ends: those after
    `rounds` rounds in which a vertex gets its rank over some list of the edges into it. The list
    has the edges that the worker of the vertex has loaded, and may lack those of others; every
    round is worked out from the ranks of the round before. If each worker has an edge into each
    vertex that it has, every run can be continued to this end. -/
theorem pagerank_rounds (hn : 0 < n) (hmap : Mapped data)
    (hnames : ∀ a, IsNode data a → 95 ∉ a)
    (h : Reachable (Segments.checked readOk (solve dampingFactor getServer rounds data)
        (Servers.handle (prLib other)))
      (Segments.start (solve dampingFactor getServer rounds data)
        ⟨fun _ => .init, fun _ => {}⟩) st) :
    (Entered data → ∃ t, Reachable (Segments.checked readOk
        (solve dampingFactor getServer rounds data) (Servers.handle (prLib other))) st t ∧
      ∀ w, (∃ klstmap kvmap, (t.loc w).base = .last klstmap kvmap) ∧ (t.loc w).todo = []) ∧
    ∃ links, Linked data links ∧
      ∀ w klstmap kvmap, (st.loc w).base = .last klstmap kvmap → (st.loc w).todo = [] →
        Table (lastPull (data w) kvmap (st.loc w).got) (IsNode data)
          (prAfter data dampingFactor links rounds) := by
  refine ⟨fun hentered => Runs.exists_last hn hmap hentered h, ?_⟩
  obtain ⟨cfg, log, hvisits, hwithin⟩ := Segments.exists_within (Segments.reachable_of_checked h)
  cases stage_of_visits hn hmap hvisits with
  | last servers klstmap kvmap links hlinked hklst hkvmap hholds =>
      refine ⟨links, hlinked, fun w klst kv hbase hdone => ?_⟩
      rw [hwithin.base w] at hbase
      cases hbase
      have hcalls : Spmd.callsOf w log =
          calls getServer rounds data w (.last (klstmap w) (kvmap w)) := by
        have htodo := hwithin.todo w
        rwa [hdone, List.append_nil] at htodo
      rw [hwithin.got]
      apply lastPull_table _ _ _ hnames
      · intro a ha
        rw [hkvmap w a] at ha
        by_cases hown : Owns (data w) a
        · exact ⟨w, hown⟩
        · rw [if_neg hown] at ha
          cases ha
      · exact after_last other hholds (fun e he => hwithin.mem he) hcalls
  | init | push | pull | reduce =>
      refine ⟨inLinks data, fun w a ha => ⟨?_, .refl _⟩, fun w klst kv hbase _ => ?_⟩
      · rw [← flatMap_ownLinks hmap, List.flatMap_def]
        apply List.Sublist.subperm
        exact List.sublist_flatten_of_mem (List.mem_map.mpr ⟨w, List.mem_finRange w, rfl⟩)
      · rw [hwithin.base w] at hbase
        cases hbase

end Runs

/-! ### One worker after another -/

section Serial

variable {n m : Nat} {K : Type} [Field K] {dampingFactor : K} {getServer : Str → Fin m}
  {rounds : Nat} {data : Fin n → Data} {other : Libs (Packed K)}

/-- What a worker reads when it starts after those before it have read. -/
theorem linkReplies_serial (w : Fin n) :
    linkReplies (ownKeys K (data w)).length (Segments.repliesOf (Servers.handle (prLib other)) w
      (fun _ => {}) (Segments.serialLog fun x => calls getServer rounds data x (.init : Loc K))) =
      (ownKeys K (data w)).map fun a =>
        (((List.finRange n).take w).flatMap fun x => ownLinks (data x) a) ++
          ownLinks (data w) a := by
  let serve := Servers.handle (m := m) (prLib other)
  let before := ((List.finRange n).take w).flatMap fun x =>
    calls getServer rounds data x (.init : Loc K)
  let own := paracelRegisterBupdate m initUpdater ++ linkPushes (K := K) getServer (data w)
  let servers := Spmd.replay serve (fun _ => {}) (before ++ own)
  have hreads : Segments.answers serve servers ((ownKeys K (data w)).map fun a =>
      .paracelRead getServer (linksKey a)) = (ownKeys K (data w)).map fun a =>
        (serve servers (.paracelRead getServer (linksKey a))).1 := by
    rw [Segments.answers_eq_map, List.map_map]
    · rfl
    · intro c hc
      obtain ⟨a, -, rfl⟩ := List.mem_map.mp hc
      exact Servers.handle_read_snd _
  -- the calls before the first read of the worker, as a part of the log
  let pre := (((List.finRange n).take w).flatMap fun x =>
    (calls getServer rounds data x (.init : Loc K)).map fun c => (x, c)) ++
      own.map fun c => (w, c)
  have hpre : pre.map Prod.snd = before ++ own := by
    rw [List.map_append, List.map_flatMap, List.map_map]
    congr 1
    · apply List.flatMap_congr
      intro x _
      rw [List.map_map]
      exact List.map_id _
    · exact List.map_id _
  have hcollected : Collected pre servers (prLib other) getServer := by
    have hlogs := Segments.logs_serialLog (solve (0 : K) getServer rounds data)
      (⟨fun _ => .init, fun _ => {}⟩ : Segments.Config n (Loc K) (Servers m (Packed K)))
    have hlog := Segments.serialLog_eq (fun x => calls getServer rounds data x (.init : Loc K)) w
    rw [calls_init rounds w, List.map_append, ← List.append_assoc, List.append_assoc] at hlog
    have h : Collected pre (Spmd.replay serve (fun _ => {}) (pre.map Prod.snd)) (prLib other)
        getServer := collected_of_append hlogs pre _ hlog
    rwa [hpre] at h
  have hlinks : ∀ a, linksOf a (before ++ own) =
      (((List.finRange n).take w).flatMap fun x => ownLinks (data x) a) ++
        ownLinks (data w) a := by
    intro a
    rw [linksOf_append, linksOf_flatMap, linksOf_append, linksOf_register, linksOf_linkPushes,
      List.nil_append]
    congr 1
    apply List.flatMap_congr
    intro x _
    exact linksOf_calls rounds x a
  rw [Segments.repliesOf_serialLog, calls_init, Segments.answers_append, ← Spmd.replay_append]
  show linkReplies _ (Segments.answers serve _ own ++ Segments.answers serve servers _) = _
  rw [linkReplies, hreads, List.length_append, List.length_map, Nat.add_sub_cancel,
    List.drop_left, List.map_map]
  apply List.map_congr_left
  intro a _
  rw [← hlinks a, ← hpre]
  exact hcollected.readLinks a

/-- One worker after another: before a read of the links of a vertex come the pushes to it of the
    worker and of those before. -/
theorem pushed_before {w x : Fin n} {a : Str}
    {pre post : List (Fin n × SrvCall m (Packed K))}
    (hlog : Segments.serialLog (fun x => calls getServer rounds data x (.init : Loc K)) =
      pre ++ (w, .paracelRead getServer (linksKey a)) :: post)
    (hx : x ≤ w) (hent : Enters (data x) a) :
    (x, .paracelBupdate getServer (linksKey a) (.links (ownLinks (data x) a)) none) ∈ pre := by
  have hpushed : (.paracelBupdate getServer (linksKey a) (.links (ownLinks (data x) a)) none :
      SrvCall m (Packed K)) ∈ paracelRegisterBupdate m initUpdater ++
        linkPushes getServer (data x) :=
    List.mem_append_right _ (List.mem_map.mpr ⟨a, mem_enteredKeys.mpr hent, rfl⟩)
  rcases hx.lt_or_eq with hlt | rfl
  · apply Segments.mem_of_serialLog hlog hlt
    rw [calls_init]
    exact List.mem_append_left _ hpushed
  · have hcalls := (Segments.callsOf_serialLog
      (fun x => calls getServer rounds data x (.init : Loc K)) x).trans (calls_init rounds x)
    apply Segments.mem_callsOf_of_before hlog hcalls _ hpushed
    intro hin
    rcases List.mem_append.mp hin with hin | hin
    · obtain ⟨i, -, hi⟩ := List.mem_map.mp hin
      cases hi
    · obtain ⟨b, -, hb⟩ := List.mem_map.mp hin
      exact absurd (congrArg SrvCall.req hb) nofun

/-- What a worker reads then is there, if it or one before it has loaded an edge into each vertex
    that it has. -/
theorem serial_ok (hloaded : ∀ w a, Owns (data w) a → ∃ x ≤ w, Enters (data x) a) (w : Fin n) :
    ∀ r ∈ Segments.repliesOf (Servers.handle (prLib other)) w (fun _ => {})
      (Segments.serialLog fun x => calls getServer rounds data x (.init : Loc K)), readOk r := by
  intro r hr
  obtain ⟨pre, c, post, hlog, rfl⟩ := Segments.exists_of_mem_repliesOf hr
  have hlogs := Segments.logs_serialLog (solve (0 : K) getServer rounds data)
    (⟨fun _ => .init, fun _ => {}⟩ : Segments.Config n (Loc K) (Servers m (Packed K)))
  have hmem : ∀ e ∈ pre ++ (w, c) :: post, e.2 ∈ calls getServer rounds data e.1 (.init : Loc K) :=
    fun e he => hlogs.mem (e := e) (hlog ▸ he)
  apply Servers.readOk_after (prLib other) getServer
  · intro c' hc'
    obtain ⟨e, he, rfl⟩ := List.mem_map.mp hc'
    rcases mem_calls_init (hmem e (List.mem_append_left _ he)) with ⟨i, hc⟩ | ⟨b, l, hc⟩ | ⟨a, hc⟩
    · exact hc ▸ .quiet _ rfl
    · exact hc ▸ .bupdate _ _ _
    · exact hc ▸ .quiet _ rfl
  · have hc : c ∈ calls getServer rounds data w .init :=
      hmem (w, c) (List.mem_append_right _ List.mem_cons_self)
    rw [calls_init, List.mem_append, List.mem_append] at hc
    rcases hc with (hc | hc) | hc
    · obtain ⟨i, -, rfl⟩ := List.mem_map.mp hc
      exact .inl nofun
    · obtain ⟨b, -, rfl⟩ := List.mem_map.mp hc
      exact .inl nofun
    · obtain ⟨a, ha, rfl⟩ := List.mem_map.mp hc
      obtain ⟨x, hx, hent⟩ := hloaded w a (mem_ownKeys.mp ha)
      have hbefore := pushed_before hlog hx hent
      exact .inr ⟨_, rfl, .inl ⟨_, List.mem_map.mpr ⟨_, hbefore, rfl⟩, rfl⟩⟩

/-- Nothing makes the workers wait until all edges are pushed: if each vertex that a worker has is
    at the end of an edge that it or a worker before it has loaded, some run has every worker work
    out all its ranks over the edges that it and the workers before it have loaded. -/
theorem exists_serial_links (dampingFactor : K)
    (hloaded : ∀ w a, Owns (data w) a → ∃ x ≤ w, Enters (data x) a) :
    ∃ st, Runs dampingFactor getServer rounds data other st ∧
      ∀ w, ∃ klstmap kvmap, (st.loc w).base = .push klstmap kvmap ∧
        Table klstmap (Owns (data w)) fun a =>
          (((List.finRange n).take w).flatMap fun x => ownLinks (data x) a) ++
            ownLinks (data w) a := by
  let prog := solve dampingFactor getServer rounds data
  let first : Segments.Config n (Loc K) (Servers m (Packed K)) := ⟨fun _ => .init, fun _ => {}⟩
  let log := Segments.serialLog fun w => calls getServer rounds data w (.init : Loc K)
  let c : Fin n → Meet := fun w => .allreduce (cntMap (K := K) (data w)).keys.length
  let pushing : Segments.Config n (Loc K) (Servers m (Packed K)) :=
    ⟨fun w => next dampingFactor rounds data w .init
      (Segments.repliesOf (Servers.handle (prLib other)) w (fun _ => {}) log) c,
      first.after (Servers.handle (prLib other)) log⟩
  have hsegment : Segments.Segment prog (Servers.handle (prLib other)) first log c pushing :=
    { logs := Segments.callsOf_serialLog _
      offers := fun _ => rfl
      matched := fun _ _ => rfl
      loc := fun _ => rfl
      store := rfl }
  refine ⟨Segments.start prog pushing, hsegment.reaches_checked (serial_ok hloaded),
    fun w => ⟨_, _, rfl, ?_⟩⟩
  intro a
  show (fillWith (ownKeys K (data w)) (linkReplies (ownKeys K (data w)).length _) ∅).lookup a = _
  rw [linkReplies_serial w, lookup_fillWith, AList.lookup_empty]
  simp only [mem_ownKeys]

end Serial

/-! ### Two workers with edges between their vertices -/

/-- A worker with the edges from `a` and `b`, or from `c` and `d`. -/
def twoPages (w : Fin 2) : Data where
  localGraph := Graph.Digraph.constructFromTriples
    (if w.val = 0 then [([97], [98], 1), ([98], [97], 1), ([97], [99], 1)]
      else [([99], [100], 1), ([100], [99], 1), ([99], [97], 1)])
  order := id
  orders := fun _ => .refl _

theorem owns_twoPages {w : Fin 2} {a : Str} (h : Owns (twoPages w) a) :
    a ∈ if w.val = 0 then [[97], [98]] else [([99] : Str), [100]] := by
  have hedges : ∀ w, ∀ e ∈ edgesOf (twoPages w),
      e.1 ∈ if w.val = 0 then [[97], [98]] else [([99] : Str), [100]] := by
    decide
  obtain ⟨e, he, rfl⟩ := h
  exact hedges w e he

theorem entered_twoPages : Entered twoPages := by
  have hall : ∀ w : Fin 2, ∀ a ∈ (if w.val = 0 then [[97], [98]] else [([99] : Str), [100]]),
      Enters (twoPages w) a := by
    decide
  exact fun w a h => hall w a (owns_twoPages h)

/-- Shared libraries that hold the updater of the links under every symbol. -/
def linksLib : Libs (Packed ℚ) :=
  { update := fun _ => linksUpdater, filter := fun _ _ _ => true }

theorem pagerank_rounds_two : ∃ t links,
    Runs (1 / 2) (fun _ => (0 : Fin 1)) 2 twoPages linksLib t ∧ Linked twoPages links ∧
      ∀ w, ∃ kvmap, Table (lastPull (twoPages w) kvmap (t.loc w).got) (IsNode twoPages)
        (prAfter twoPages (1 / 2 : ℚ) links 2) := by
  have hmap : Mapped twoPages := by
    have hnames : ∀ w w' : Fin 2, ∀ a ∈ (if w.val = 0 then [[97], [98]] else [([99] : Str), [100]]),
      a ∈ (if w'.val = 0 then [[97], [98]] else [([99] : Str), [100]]) → w = w' := by decide
    intro w w' a h h'
    exact hnames w w' a (owns_twoPages h) (owns_twoPages h')
  have hnames : ∀ a, IsNode twoPages a → 95 ∉ a := by
    have hall : ∀ w : Fin 2, ∀ a ∈ (if w.val = 0 then [[97], [98]] else [([99] : Str), [100]]),
        95 ∉ a := by decide
    intro a h
    obtain ⟨w, hw⟩ := h
    exact hall w a (owns_twoPages hw)
  have hstart : Runs (1 / 2) (fun _ => (0 : Fin 1)) 2 twoPages linksLib _ := .refl _
  obtain ⟨hends, -⟩ := pagerank_rounds (by decide) hmap hnames hstart
  obtain ⟨t, ht, hdone⟩ := hends entered_twoPages
  obtain ⟨-, links, hlinked, hall⟩ := pagerank_rounds (by decide) hmap hnames ht
  refine ⟨t, links, ht, hlinked, fun w => ?_⟩
  obtain ⟨⟨klstmap, kvmap, hbase⟩, htodo⟩ := hdone w
  exact ⟨kvmap, hall w klstmap kvmap hbase htodo⟩

/-- The first worker has lost the edge from `c` into `a`. -/
theorem exists_serial_links_two :
    (inLinks twoPages [97] : Links ℚ) = [([98], 1), ([99], 2)] ∧
    ∃ st klstmap kvmap, Runs (1 / 2) (fun _ => (0 : Fin 1)) 2 twoPages linksLib st ∧
      (st.loc 0).base = .push klstmap kvmap ∧ klstmap.lookup [97] = some [([98], 1)] := by
  obtain ⟨st, hst, hall⟩ :
      ∃ st, Runs (1 / 2) (fun _ => (0 : Fin 1)) 2 twoPages linksLib st ∧ _ :=
    exists_serial_links (1 / 2 : ℚ) fun w a h => ⟨w, le_rfl, entered_twoPages w a h⟩
  obtain ⟨klstmap, kvmap, hbase, htable⟩ := hall 0
  refine ⟨?_, st, klstmap, kvmap, hst, hbase, ?_⟩
  · decide
  · rw [htable]
    decide

end Paracel.PageRank
