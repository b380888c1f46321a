import Mathlib.Data.List.Induction
import Paracel.Graph.Adjacency

/-!
# Bipartite graphs

`bigraph` of `include/graph.hpp`. The keys of `adj` are the left vertices; `e_sz`
counts the calls of `add_edge`, so that an edge that is added again is counted
again. Where the answer to a query needs `adj[v]`, the graph after it is part of the
result.
-/

namespace Paracel.Graph

/-- `bigraph`. -/
structure Bigraph (T : Type) where
  vSz : Nat := 0
  eSz : Nat := 0
  adj : Adj T := ∅

namespace Bigraph

variable {T S : Type}

/-- `get_data`. -/
def getData (g : Bigraph T) : Adj T := g.adj

/-- `traverse` over all edges. -/
def traverse (g : Bigraph T) (func : T → T → ℚ → S → S) (env : S) : S :=
  (edges g.adj).foldl (fun env e => func e.1 e.2.1 e.2.2 env) env

/-- `left_vertex_bag`. -/
def leftVertexBag (g : Bigraph T) : List T := g.adj.keys

/-- `v`. -/
def v (g : Bigraph T) : Nat := g.vSz

/-- `e`. -/
def e (g : Bigraph T) : Nat := g.eSz

variable [DecidableEq T]

/-- `add_edge` with a weight. -/
def addEdge (g : Bigraph T) (v w : T) (wgt : ℚ) : Bigraph T :=
  let adj := put g.adj v w wgt
  { vSz := Dict.size adj, eSz := g.eSz + 1, adj := adj }

/-- `construct_from_dict`. -/
def constructFromDict (g : Bigraph T) (edgeInfo : Adj T) : Bigraph T :=
  (Dict.pairs edgeInfo).foldl (fun g edge =>
    (Dict.pairs edge.2).foldl (fun g kv => g.addEdge edge.1 kv.1 kv.2) g) g

/-- `construct_from_triples`. -/
def constructFromTriples (g : Bigraph T) (tpls : List (T × T × ℚ)) : Bigraph T :=
  tpls.foldl (fun g tpl => g.addEdge tpl.1 tpl.2.1 tpl.2.2) g

/-- `is_connected`. -/
def isConnected (g : Bigraph T) (a b : T) : Bool × Bigraph T :=
  (b ∈ row g.adj a, { g with adj := touch g.adj a })

/-- `get_wgt`; where there is no edge, `operator[]` inserts one of weight 0. -/
def getWgt (g : Bigraph T) (a b : T) : ℚ × Bigraph T :=
  match wgt g.adj a b with
  | some c => (c, g)
  | none => (0, { g with adj := put g.adj a b 0 })

/-- `traverse` over the edges from a vertex. -/
def traverseFrom (g : Bigraph T) (v : T) (func : T → T → ℚ → S → S) (env : S) : S × Bigraph T :=
  ((edgesFrom g.adj v).foldl (fun env e => func e.1 e.2.1 e.2.2 env) env,
    { g with adj := touch g.adj v })

/-- `adjacent`. -/
def adjacent (g : Bigraph T) (v : T) : Dict T ℚ × Bigraph T :=
  (row g.adj v, { g with adj := touch g.adj v })

/-- `outdegree`. -/
def outdegree (g : Bigraph T) (v : T) : Nat × Bigraph T :=
  (Dict.size (row g.adj v), { g with adj := touch g.adj v })

/-- `indegree`. -/
def indegree (g : Bigraph T) (vertex : T) : Nat :=
  (edges g.adj).countP fun e => vertex = e.2.1

/-! ### Construction -/

section Construction

variable {tpls : List (T × T × ℚ)}

theorem constructFromDict_eq (g : Bigraph T) (edgeInfo : Adj T) :
    g.constructFromDict edgeInfo = g.constructFromTriples (edges edgeInfo) := by
  simp only [constructFromDict, constructFromTriples, edges, List.foldl_flatMap, List.foldl_map]

theorem constructFromTriples_concat (g : Bigraph T) (tpls : List (T × T × ℚ))
    (tpl : T × T × ℚ) :
    g.constructFromTriples (tpls ++ [tpl]) =
      (g.constructFromTriples tpls).addEdge tpl.1 tpl.2.1 tpl.2.2 := by
  rw [constructFromTriples, List.foldl_concat]
  rfl

theorem adj_constructFromTriples (tpls : List (T × T × ℚ)) :
    (constructFromTriples {} tpls).adj = putAll ∅ tpls := by
  induction tpls using List.reverseRecOn with
  | nil => rfl
  | append_singleton tpls tpl ih =>
      rw [constructFromTriples_concat, putAll_concat, ← ih]
      rfl

theorem v_constructFromTriples (tpls : List (T × T × ℚ)) :
    (constructFromTriples {} tpls).v = Dict.size (putAll ∅ tpls) := by
  rw [← adj_constructFromTriples]
  induction tpls using List.reverseRecOn with
  | nil => rfl
  | append_singleton tpls tpl ih =>
      rw [constructFromTriples_concat]
      rfl

theorem e_constructFromTriples (tpls : List (T × T × ℚ)) :
    (constructFromTriples {} tpls).e = tpls.length := by
  induction tpls using List.reverseRecOn with
  | nil => rfl
  | append_singleton tpls tpl ih =>
      rw [constructFromTriples_concat, List.length_append, ← ih]
      rfl

omit [DecidableEq T] in
/-- The number of edges that `traverse` visits. -/
theorem traverse_count (g : Bigraph T) :
    g.traverse (fun _ _ _ cnt => cnt + 1) 0 = (edges g.adj).length := by
  rw [traverse, List.foldl_add_const, Nat.zero_add, Nat.one_mul]

end Construction

end Bigraph

end Paracel.Graph
