import Mathlib.Data.List.Induction
import Mathlib.Tactic.Ring
import Paracel.Graph.Adjacency

/-!
# Undirected graphs

`undirected_graph` of `include/graph.hpp`. An edge is stored under both of its ends,
so it is counted twice in the degrees, but a self-loop is one entry only.
`selfloops` halves the number of these entries, as if there were two for each.
-/

namespace Paracel.Graph

/-- `undirected_graph`. -/
structure UndirectedGraph (T : Type) where
  vSz : Nat := 0
  eSz : Nat := 0
  adj : Adj T := ∅

namespace UndirectedGraph

variable {T : Type} [DecidableEq T]

/-- `add_edge` with a weight. -/
def addEdge (g : UndirectedGraph T) (v w : T) (wgt : ℚ) : UndirectedGraph T :=
  let adj := put (put g.adj v w wgt) w v wgt
  { vSz := Dict.size adj, eSz := g.eSz + 1, adj := adj }

/-- `add_edge` without a weight. -/
def addEdgeUnit (g : UndirectedGraph T) (v w : T) : UndirectedGraph T := g.addEdge v w 1

/-- `construct_from_dict`. -/
def constructFromDict (edgeInfo : Adj T) : UndirectedGraph T :=
  (Dict.pairs edgeInfo).foldl (fun g edge =>
    (Dict.pairs edge.2).foldl (fun g kv => g.addEdge edge.1 kv.1 kv.2) g) {}

/-- `construct_from_tuples`. -/
def constructFromTuples (tpls : List (T × T)) : UndirectedGraph T :=
  tpls.foldl (fun g tpl => g.addEdgeUnit tpl.1 tpl.2) {}

/-- `construct_from_triples`. -/
def constructFromTriples (tpls : List (T × T × ℚ)) : UndirectedGraph T :=
  tpls.foldl (fun g tpl => g.addEdge tpl.1 tpl.2.1 tpl.2.2) {}

/-- `adjacent`. -/
def adjacent (g : UndirectedGraph T) (v : T) : Dict T ℚ :=
  if v ∈ g.adj then row g.adj v else ∅

/-- `degree`. -/
def degree (g : UndirectedGraph T) (v : T) : Nat :=
  if v ∈ g.adj then Dict.size (row g.adj v) else 0

omit [DecidableEq T] in
/-- `vertex_bag`. -/
def vertexBag (g : UndirectedGraph T) : List T := g.adj.keys

/-- `selfloops`. -/
def selfloops (g : UndirectedGraph T) : Nat :=
  let cnt := (edges g.adj).countP fun e => e.1 = e.2.1
  cnt / 2

/-! ### Construction -/

/-- The ends of the edges that were added. -/
def endpoints (tpls : List (T × T × ℚ)) : Finset T :=
  (tpls.flatMap fun tpl => [tpl.1, tpl.2.1]).toFinset

/-- An edge was added between two vertices. -/
def Edge (tpls : List (T × T × ℚ)) (v w : T) : Prop :=
  ∃ tpl ∈ tpls, ends tpl = (v, w) ∨ ends tpl = (w, v)

section Construction

variable {g : UndirectedGraph T} {v w x y : T} {c : ℚ} {tpls : List (T × T × ℚ)}

theorem adjacent_eq_row (g : UndirectedGraph T) (v : T) : g.adjacent v = row g.adj v := by
  unfold adjacent
  split
  · rfl
  · rename_i h
    exact (row_of_notMem h).symm

theorem adjacency (g : UndirectedGraph T) :
    Adjacency (fun grp v => (grp.adjacent v, grp)) (· = g)
      fun v w => ∃ c, wgt g.adj v w = some c where
  keeps _ hgrp _ := hgrp
  mem grp hgrp v w := by
    show w ∈ (grp.adjacent v).keys ↔ _
    rw [hgrp, adjacent_eq_row]
    exact mem_row

theorem constructFromDict_eq (edgeInfo : Adj T) :
    constructFromDict edgeInfo = constructFromTriples (edges edgeInfo) := by
  simp only [constructFromDict, constructFromTriples, edges, List.foldl_flatMap, List.foldl_map]

theorem constructFromTuples_eq (tpls : List (T × T)) :
    constructFromTuples tpls = constructFromTriples (tpls.map fun tpl => (tpl.1, tpl.2, 1)) := by
  rw [constructFromTriples, List.foldl_map]
  rfl

theorem constructFromTriples_concat (tpls : List (T × T × ℚ)) (tpl : T × T × ℚ) :
    constructFromTriples (tpls ++ [tpl]) =
      (constructFromTriples tpls).addEdge tpl.1 tpl.2.1 tpl.2.2 := by
  rw [constructFromTriples, List.foldl_concat]
  rfl

theorem wgt_addEdge :
    wgt (g.addEdge v w c).adj x y =
      if x = v ∧ y = w ∨ x = w ∧ y = v then some c else wgt g.adj x y := by
  show wgt (put (put g.adj v w c) w v c) x y = _
  rw [wgt_put, wgt_put]
  split
  · rename_i h
    rw [if_pos (.inr h)]
  · rename_i h
    simp only [h, or_false]

theorem mem_addEdge : x ∈ (g.addEdge v w c).adj ↔ x = w ∨ x = v ∨ x ∈ g.adj := by
  show x ∈ put (put g.adj v w c) w v c ↔ _
  rw [mem_put, mem_put]

theorem endsSet_addEdge :
    endsSet (g.addEdge v w c).adj = insert (w, v) (insert (v, w) (endsSet g.adj)) := by
  show endsSet (put (put g.adj v w c) w v c) = _
  rw [endsSet_put, endsSet_put]

/-- An edge leads back with the same weight. -/
theorem wgt_symm (tpls : List (T × T × ℚ)) (v w : T) :
    wgt (constructFromTriples tpls).adj v w = wgt (constructFromTriples tpls).adj w v := by
  induction tpls using List.reverseRecOn with
  | nil => rfl
  | append_singleton tpls tpl ih =>
      rw [constructFromTriples_concat, wgt_addEdge, wgt_addEdge, ih]
      refine if_congr ?_ rfl rfl
      rw [or_comm, and_comm, and_comm (a := v = tpl.1)]

/-- The edges are those that were added, in both directions. -/
theorem exists_wgt_iff :
    (∃ c, wgt (constructFromTriples tpls).adj v w = some c) ↔ Edge tpls v w := by
  rw [← mem_endsSet, Edge]
  induction tpls using List.reverseRecOn with
  | nil => simp [constructFromTriples, endsSet, edges, Dict.pairs]
  | append_singleton tpls tpl ih =>
      rw [constructFromTriples_concat, endsSet_addEdge, exists_mem_concat, ← ih,
        Finset.mem_insert, Finset.mem_insert]
      simp only [ends, Prod.mk.injEq, eq_comm (a := v), eq_comm (a := w)]
      tauto

/-- The vertices are the ends of the edges that were added. -/
theorem mem_adj_iff :
    v ∈ (constructFromTriples tpls).adj ↔ ∃ tpl ∈ tpls, v = tpl.1 ∨ v = tpl.2.1 := by
  induction tpls using List.reverseRecOn with
  | nil => simp [constructFromTriples]
  | append_singleton tpls tpl ih =>
      rw [constructFromTriples_concat, mem_addEdge, exists_mem_concat, ← ih]
      tauto

theorem mem_endpoints : v ∈ endpoints tpls ↔ v ∈ (constructFromTriples tpls).adj := by
  rw [mem_adj_iff, endpoints, List.mem_toFinset, List.mem_flatMap]
  simp

/-- The vertices that were joined are vertices of the graph. -/
theorem mem_endpoints_of_edge (h : Edge tpls v w) : w ∈ endpoints tpls := by
  obtain ⟨tpl, htpl, h⟩ := h
  rw [mem_endpoints, mem_adj_iff]
  refine ⟨tpl, htpl, ?_⟩
  rcases h with h | h
  · exact .inr (congrArg Prod.snd h).symm
  · exact .inl (congrArg Prod.fst h).symm

omit [DecidableEq T] in
instance (tpls : List (T × T × ℚ)) : Std.Symm (Edge tpls) where
  symm _ _ := by
    rintro ⟨tpl, htpl, h⟩
    exact ⟨tpl, htpl, h.symm⟩

theorem eSz_constructFromTriples (tpls : List (T × T × ℚ)) :
    (constructFromTriples tpls).eSz = tpls.length := by
  induction tpls using List.reverseRecOn with
  | nil => rfl
  | append_singleton tpls tpl ih =>
      rw [constructFromTriples_concat, List.length_append, ← ih]
      rfl

theorem vSz_constructFromTriples (tpls : List (T × T × ℚ)) :
    (constructFromTriples tpls).vSz = Dict.size (constructFromTriples tpls).adj := by
  induction tpls using List.reverseRecOn with
  | nil => rfl
  | append_singleton tpls tpl ih =>
      rw [constructFromTriples_concat]
      rfl

end Construction

/-! ### The handshake law -/

section Handshake

variable {tpls : List (T × T × ℚ)}

/-- Edges with different pairs of ends, in whatever order the ends are given. -/
def Distinct (tpls : List (T × T × ℚ)) : Prop :=
  tpls.Pairwise fun tpl tpl' => ends tpl ≠ ends tpl' ∧ ends tpl ≠ (ends tpl').swap

/-- The number of self-loops that were added. -/
def loops (tpls : List (T × T × ℚ)) : Nat :=
  tpls.countP fun tpl => tpl.1 = tpl.2.1

/-- What the law says of a graph with these edges. -/
structure Handshake (tpls : List (T × T × ℚ)) (g : UndirectedGraph T) : Prop where
  symm : ∀ v w, wgt g.adj v w = wgt g.adj w v
  edges : g.eSz = tpls.length
  vertices : g.vSz = (endpoints tpls).card
  selfloops : g.selfloops = loops tpls
  degrees : (g.vertexBag.map g.degree).sum + g.selfloops = 2 * g.eSz

theorem vSz_eq_card_endpoints (tpls : List (T × T × ℚ)) :
    (constructFromTriples tpls).vSz = (endpoints tpls).card := by
  rw [vSz_constructFromTriples, Dict.size, ← List.toFinset_card_of_nodup (AList.keys_nodup _)]
  congr 1
  ext v
  rw [List.mem_toFinset, ← AList.mem_keys, mem_endpoints]

/-- The degrees count the entries. -/
theorem sum_degree (g : UndirectedGraph T) :
    (g.vertexBag.map g.degree).sum = (Graph.edges g.adj).length := by
  rw [vertexBag, ← Dict.pairs_keys, List.map_map, Graph.edges, List.length_flatMap]
  congr 1
  refine List.map_congr_left ?_
  rintro ⟨v, r⟩ hr
  have hlookup := Dict.mem_pairs.mp hr
  have hmem : v ∈ g.adj := Dict.mem_of_lookup hlookup
  show g.degree v = ((Dict.pairs r).map fun kv => (v, kv.1, kv.2)).length
  rw [degree, if_pos hmem, row_of_lookup hlookup, List.length_map, Dict.size, ← Dict.pairs_keys,
    List.length_map]

/-- An edge that differs from those before it is not stored yet. -/
theorem notMem_endsSet {tpl : T × T × ℚ} (hdistinct : Distinct (tpls ++ [tpl])) :
    Distinct tpls ∧ (tpl.1, tpl.2.1) ∉ endsSet (constructFromTriples tpls).adj ∧
      (tpl.2.1, tpl.1) ∉ endsSet (constructFromTriples tpls).adj := by
  obtain ⟨hinit, -, hlast⟩ := List.pairwise_append.mp hdistinct
  have hnew : ∀ tpl' ∈ tpls, ends tpl' ≠ ends tpl ∧ ends tpl' ≠ (ends tpl).swap := fun tpl' h =>
    hlast tpl' h tpl List.mem_cons_self
  refine ⟨hinit, ?_, ?_⟩
  · rw [mem_endsSet, exists_wgt_iff]
    rintro ⟨tpl', htpl', h | h⟩
    · exact (hnew tpl' htpl').1 h
    · exact (hnew tpl' htpl').2 h
  · rw [mem_endsSet, exists_wgt_iff]
    rintro ⟨tpl', htpl', h | h⟩
    · exact (hnew tpl' htpl').2 h
    · exact (hnew tpl' htpl').1 h

theorem loops_concat (tpls : List (T × T × ℚ)) (tpl : T × T × ℚ) :
    loops (tpls ++ [tpl]) = loops tpls + if tpl.1 = tpl.2.1 then 1 else 0 := by
  simp [loops, List.countP_append, List.countP_singleton]

/-- The entries: two for each edge, but one for a self-loop. -/
theorem length_edges_add_loops (hdistinct : Distinct tpls) :
    (Graph.edges (constructFromTriples tpls).adj).length + loops tpls = 2 * tpls.length := by
  induction tpls using List.reverseRecOn with
  | nil => rfl
  | append_singleton tpls tpl ih =>
      obtain ⟨hinit, hnew, hback⟩ := notMem_endsSet hdistinct
      have hsum := ih hinit
      rw [length_edges] at hsum
      rw [constructFromTriples_concat, length_edges, endsSet_addEdge, loops_concat,
        List.length_append, List.length_singleton]
      by_cases hloop : tpl.1 = tpl.2.1
      · rw [if_pos hloop, ← hloop, Finset.insert_idem, Finset.card_insert_of_notMem (hloop ▸ hnew)]
        omega
      · have hne : (tpl.2.1, tpl.1) ∉ insert (tpl.1, tpl.2.1)
            (endsSet (constructFromTriples tpls).adj) := by
          rw [Finset.mem_insert, not_or]
          exact ⟨fun h => hloop (congrArg Prod.snd h), hback⟩
        rw [if_neg hloop, Finset.card_insert_of_notMem hne, Finset.card_insert_of_notMem hnew]
        omega

/-- The entries that are self-loops. -/
theorem countP_loops (hdistinct : Distinct tpls) :
    ((Graph.edges (constructFromTriples tpls).adj).countP fun e => e.1 = e.2.1) = loops tpls := by
  have hset : ∀ adj : Adj T, ((Graph.edges adj).countP fun e => e.1 = e.2.1) =
      ((endsSet adj).filter fun e => e.1 = e.2).card := fun adj =>
    (countP_edges adj fun e => e.1 = e.2).trans
      (congrArg Finset.card (Finset.filter_congr fun _ _ => decide_eq_true_iff))
  rw [hset]
  induction tpls using List.reverseRecOn with
  | nil => rfl
  | append_singleton tpls tpl ih =>
      obtain ⟨hinit, hnew, -⟩ := notMem_endsSet hdistinct
      rw [constructFromTriples_concat, endsSet_addEdge, loops_concat, ← ih hinit,
        Finset.filter_insert, Finset.filter_insert]
      by_cases hloop : tpl.1 = tpl.2.1
      · have hne : (tpl.1, tpl.1) ∉ (endsSet (constructFromTriples tpls).adj).filter
            fun e => e.1 = e.2 := fun h => hnew (hloop ▸ (Finset.mem_filter.mp h).1)
        rw [if_pos hloop, ← hloop, if_pos rfl, Finset.insert_idem,
          Finset.card_insert_of_notMem hne, if_pos rfl]
      · rw [if_neg (Ne.symm hloop), if_neg hloop, if_neg hloop, Nat.add_zero]

/-- The ways to construct a graph, with the edges that are added one after another. -/
inductive Constructed : List (T × T × ℚ) → UndirectedGraph T → Prop where
  | calls (tpls : List (T × T × ℚ)) :
      Constructed tpls (tpls.foldl (fun g tpl => g.addEdge tpl.1 tpl.2.1 tpl.2.2) {})
  | dict (edgeInfo : Adj T) : Constructed (Graph.edges edgeInfo) (constructFromDict edgeInfo)
  | tuples (tpls : List (T × T)) :
      Constructed (tpls.map fun tpl => (tpl.1, tpl.2, 1)) (constructFromTuples tpls)
  | triples (tpls : List (T × T × ℚ)) : Constructed tpls (constructFromTriples tpls)

theorem Constructed.eq {g : UndirectedGraph T} (h : Constructed tpls g) :
    g = constructFromTriples tpls := by
  cases h with
  | calls => rfl
  | dict edgeInfo => exact constructFromDict_eq edgeInfo
  | tuples tpls => exact constructFromTuples_eq tpls
  | triples => rfl

/-- The law holds exactly when no self-loop was added. -/
theorem handshake_iff {g : UndirectedGraph T} (hg : Constructed tpls g)
    (hdistinct : Distinct tpls) : Handshake tpls g ↔ ∀ tpl ∈ tpls, tpl.1 ≠ tpl.2.1 := by
  cases hg.eq
  have hloops : (constructFromTriples tpls).selfloops = loops tpls / 2 :=
    congrArg (· / 2) (countP_loops hdistinct)
  have hnone : loops tpls = 0 ↔ ∀ tpl ∈ tpls, tpl.1 ≠ tpl.2.1 := by
    simp [loops, List.countP_eq_zero]
  rw [← hnone]
  constructor
  · intro hlaw
    have hselfloops := hlaw.selfloops
    rw [hloops] at hselfloops
    omega
  · intro hzero
    have hsum := length_edges_add_loops hdistinct
    refine ⟨wgt_symm tpls, eSz_constructFromTriples tpls, vSz_eq_card_endpoints tpls, ?_, ?_⟩
    · rw [hloops, hzero]
    · rw [sum_degree, hloops, eSz_constructFromTriples]
      omega

theorem handshake_iff_path :
    Handshake [(1, 2, 1), (2, 3, 1)] (constructFromTuples [(1, 2), (2, 3)]) ↔
      ∀ tpl ∈ [((1 : Nat), (2 : Nat), (1 : ℚ)), (2, 3, 1)], tpl.1 ≠ tpl.2.1 :=
  handshake_iff (.tuples [(1, 2), (2, 3)]) (by
    rw [Distinct]
    decide)

/-- A single self-loop is not counted. -/
theorem not_handshake_selfloop :
    ¬∀ (tpls : List (Nat × Nat × ℚ)) (g : UndirectedGraph Nat), Constructed tpls g →
      Distinct tpls → Handshake tpls g := by
  intro hall
  have hlaw := hall [(7, 7, 1)] _ (.triples _) (List.pairwise_singleton _ _)
  have hcnt : (constructFromTriples [((7 : Nat), (7 : Nat), (1 : ℚ))]).selfloops = 0 := by
    decide +kernel
  have hselfloops := hlaw.selfloops
  rw [hcnt] at hselfloops
  exact absurd hselfloops (by decide)

end Handshake

end UndirectedGraph

end Paracel.Graph
