import Mathlib.Data.List.Induction
import Paracel.Graph.Adjacency

/-!
# Directed graphs

`digraph` of `include/graph.hpp`. The edges are kept twice, under their sources in
`adj` and under their targets in `reverse_adj`; `reverse` swaps the two. `add_edge`
makes both of its ends keys of `adj`, but only the target a key of `reverse_adj`. So
a vertex to which no edge leads is lost when the graph is reversed, and `v_sz` still
counts it.
-/

namespace Paracel.Graph

/-- `digraph`. -/
structure Digraph (T : Type) where
  vSz : Nat := 0
  eSz : Nat := 0
  adj : Adj T := ∅
  reverseAdj : Adj T := ∅

namespace Digraph

variable {T : Type}

/-- `reverse`. -/
def reverse (g : Digraph T) : Digraph T :=
  { g with adj := g.reverseAdj, reverseAdj := g.adj }

/-- `vertex_bag`. -/
def vertexBag (g : Digraph T) : List T := g.adj.keys

/-- `get_data`. -/
def getData (g : Digraph T) : Adj T := g.adj

/-- `traverse` over all edges. -/
def traverse {S : Type} (g : Digraph T) (func : T → T → ℚ → S → S) (env : S) : S :=
  (edges g.adj).foldl (fun env e => func e.1 e.2.1 e.2.2 env) env

variable [DecidableEq T]

/-- `add_edge` with a weight. -/
def addEdge (g : Digraph T) (v w : T) (wgt : ℚ) : Digraph T :=
  let adj := put g.adj v w wgt
  let adj := if w ∈ adj then adj else adj.insert w ∅
  { vSz := Dict.size adj, eSz := g.eSz + 1, adj := adj, reverseAdj := put g.reverseAdj w v wgt }

/-- `construct_from_triples`. -/
def constructFromTriples (tpls : List (T × T × ℚ)) : Digraph T :=
  tpls.foldl (fun g tpl => g.addEdge tpl.1 tpl.2.1 tpl.2.2) {}

/-- `adjacent`, with the graph after `adj[v]`. -/
def adjacent (g : Digraph T) (v : T) : Dict T ℚ × Digraph T :=
  (row g.adj v, { g with adj := touch g.adj v })

/-- `reverse_adjacent`, with the graph after `reverse_adj[v]`. -/
def reverseAdjacent (g : Digraph T) (v : T) : Dict T ℚ × Digraph T :=
  (row g.reverseAdj v, { g with reverseAdj := touch g.reverseAdj v })

/-- `traverse` over the edges from a vertex, with the graph after `adj[v]`. -/
def traverseFrom {S : Type} (g : Digraph T) (v : T) (func : T → T → ℚ → S → S) (env : S) :
    S × Digraph T :=
  ((edgesFrom g.adj v).foldl (fun env e => func e.1 e.2.1 e.2.2 env) env,
    { g with adj := touch g.adj v })

/-- `outdegree`, with the graph after `adj[v]`. -/
def outdegree (g : Digraph T) (v : T) : Nat × Digraph T :=
  (Dict.size (row g.adj v), { g with adj := touch g.adj v })

/-- `indegree`. -/
def indegree (g : Digraph T) (vertex : T) : Nat :=
  (edges g.adj).countP fun e => vertex = e.2.1

/-- An edge was added from one vertex to another. -/
def Edge (tpls : List (T × T × ℚ)) (v w : T) : Prop :=
  ∃ tpl ∈ tpls, ends tpl = (v, w)

/-! ### Both directions -/

/-- What the calls that build a graph do. -/
inductive Op (T : Type) where
  | addEdge (v w : T) (wgt : ℚ)
  | reverse

/-- The graph after one more call. -/
def Op.apply (g : Digraph T) : Op T → Digraph T
  | .addEdge v w wgt => g.addEdge v w wgt
  | .reverse => g.reverse

/-- The graph after these calls. -/
def build (ops : List (Op T)) : Digraph T :=
  ops.foldl Op.apply {}

/-- The same edges under their targets as under their sources, and a number of vertices that is
    right for one of the two. -/
structure Ok (g : Digraph T) : Prop where
  wgt : ∀ v w, Graph.wgt g.reverseAdj w v = Graph.wgt g.adj v w
  vSz : g.vSz = Dict.size g.adj ∨ g.vSz = Dict.size g.reverseAdj

section Build

variable {g : Digraph T} {v w x y : T} {c : ℚ}

/-- Asking for the neighbours of a vertex leaves those of every vertex as they are. -/
theorem adjacency (g : Digraph T) :
    Adjacency adjacent (fun grp => ∀ v, row grp.adj v = row g.adj v)
      fun v w => ∃ c, Graph.wgt g.adj v w = some c where
  keeps grp hgrp v x := by
    show row (touch grp.adj v) x = _
    rw [row_touch, hgrp]
  mem grp hgrp v w := by
    show w ∈ row grp.adj v ↔ _
    rw [hgrp]
    exact mem_row

theorem adj_addEdge (g : Digraph T) (v w : T) (c : ℚ) :
    (g.addEdge v w c).adj = touch (put g.adj v w c) w := rfl

theorem mem_addEdge : x ∈ (g.addEdge v w c).adj ↔ x = w ∨ x = v ∨ x ∈ g.adj := by
  rw [adj_addEdge, mem_touch, mem_put]

theorem wgt_addEdge :
    Graph.wgt (g.addEdge v w c).adj x y =
      if x = v ∧ y = w then some c else Graph.wgt g.adj x y := by
  rw [adj_addEdge, wgt_touch, wgt_put]

theorem constructFromTriples_concat (tpls : List (T × T × ℚ)) (tpl : T × T × ℚ) :
    constructFromTriples (tpls ++ [tpl]) =
      (constructFromTriples tpls).addEdge tpl.1 tpl.2.1 tpl.2.2 := by
  rw [constructFromTriples, List.foldl_concat]
  rfl

/-- The edges are those that were added. -/
theorem exists_wgt_iff {tpls : List (T × T × ℚ)} :
    (∃ c, Graph.wgt (constructFromTriples tpls).adj v w = some c) ↔ Edge tpls v w := by
  unfold Edge
  induction tpls using List.reverseRecOn with
  | nil => simp [constructFromTriples]
  | append_singleton tpls tpl ih =>
      rw [constructFromTriples_concat, exists_mem_concat, ← ih, wgt_addEdge]
      by_cases h : v = tpl.1 ∧ w = tpl.2.1
      · rw [if_pos h, h.1, h.2]
        exact iff_of_true ⟨_, rfl⟩ (.inr rfl)
      · rw [if_neg h]
        refine (or_iff_left fun heq => h ?_).symm
        exact ⟨(congrArg Prod.fst heq).symm, (congrArg Prod.snd heq).symm⟩

theorem ok_addEdge (h : Ok g) : Ok (g.addEdge v w c) where
  wgt x y := by
    rw [wgt_addEdge]
    show Graph.wgt (put g.reverseAdj w v c) y x = _
    rw [wgt_put, h.wgt]
    exact if_congr and_comm rfl rfl
  vSz := .inl rfl

theorem ok_reverse (h : Ok g) : Ok g.reverse where
  wgt v w := (h.wgt w v).symm
  vSz := h.vSz.symm

theorem ok_apply (h : Ok g) (op : Op T) : Ok (op.apply g) := by
  cases op with
  | addEdge v w c => exact ok_addEdge h
  | reverse => exact ok_reverse h

theorem ok_build (ops : List (Op T)) : Ok (build ops) := by
  induction ops using List.reverseRecOn with
  | nil => exact ⟨fun _ _ => rfl, .inl rfl⟩
  | append_singleton ops op ih =>
      rw [build, List.foldl_concat]
      exact ok_apply ih op

end Build

/-! ### Reversal -/

/-- What the reversal of a graph should do. -/
structure Reverses (g : Digraph T) : Prop where
  wgt : ∀ v w, Graph.wgt g.reverse.adj w v = Graph.wgt g.adj v w
  vertexSet : ∀ v, v ∈ g.reverse.vertexBag ↔ v ∈ g.vertexBag
  vSz : g.reverse.vSz = g.reverse.vertexBag.length
  outdegree : ∀ v, (g.reverse.outdegree v).1 = g.indegree v
  indegree : ∀ v, g.reverse.indegree v = (g.outdegree v).1
  restores : g.reverse.reverse = g

/-- The keys of `adj` are those of `reverse_adj`. -/
def SameKeys (g : Digraph T) : Prop :=
  ∀ v, v ∈ g.adj ↔ v ∈ g.reverseAdj

section Reverse

variable {g : Digraph T}

/-- The number of edges to a vertex, counted under their targets. -/
theorem size_row_of_transposed {a b : Adj T} (h : ∀ v w, wgt b w v = wgt a v w) (v : T) :
    Dict.size (row b v) = (edges a).countP fun e => v = e.2.1 := by
  have hperm : (edges b).Perm ((edges a).map fun e => (e.2.1, e.1, e.2.2)) := by
    refine (List.perm_ext_iff_of_nodup (nodup_edges b) ?_).mpr ?_
    · refine (nodup_edges a).map ?_
      rintro ⟨v, w, c⟩ ⟨v', w', c'⟩ heq
      cases heq
      rfl
    · rintro ⟨w, v, c⟩
      rw [mem_edges, h, ← mem_edges, List.mem_map]
      constructor
      · intro he
        exact ⟨(v, w, c), he, rfl⟩
      · rintro ⟨⟨v', w', c'⟩, he, heq⟩
        cases heq
        exact he
  rw [size_row, hperm.countP_eq, List.countP_map]
  refine List.countP_congr fun e _ => ?_
  simp [eq_comm]

theorem reverses_iff (h : Ok g) : Reverses g ↔ SameKeys g := by
  constructor
  · intro hlaw v
    exact (hlaw.vertexSet v).symm
  · intro hkeys
    have hsize : Dict.size g.adj = Dict.size g.reverseAdj :=
      ((List.perm_ext_iff_of_nodup g.adj.keys_nodup g.reverseAdj.keys_nodup).mpr hkeys).length_eq
    refine ⟨h.wgt, fun v => (hkeys v).symm, ?_, ?_, ?_, rfl⟩
    · rcases h.vSz with hv | hv
      · exact hv.trans hsize
      · exact hv
    · exact fun v => size_row_of_transposed h.wgt v
    · exact fun v => (size_row_of_transposed (fun x y => (h.wgt y x).symm) v).symm

/-! ### Runs -/

/-- The ends of the edge that a call adds. -/
def Op.Ends (v : T) : Op T → Prop
  | .addEdge x w _ => v = w ∨ v = x
  | .reverse => False

/-- The target of the edge that a call adds. -/
def Op.Target (v : T) : Op T → Prop
  | .addEdge _ w _ => v = w
  | .reverse => False

/-- Every end of an edge that is added is the target of one. -/
def Entered (ops : List (Op T)) : Prop :=
  ∀ v, (∃ op ∈ ops, op.Ends v) → ∃ op ∈ ops, op.Target v

variable {ops : List (Op T)}

theorem build_concat (ops : List (Op T)) (op : Op T) :
    build (ops ++ [op]) = op.apply (build ops) := by
  rw [build, List.foldl_concat]
  rfl

/-- As long as no reversal has lost a vertex, `adj` has all vertices and `reverse_adj` the targets
    as keys. -/
theorem mem_build (h : ∀ pre, pre ++ [.reverse] <+: ops → SameKeys (build pre)) (v : T) :
    (v ∈ (build ops).adj ↔ ∃ op ∈ ops, op.Ends v) ∧
      (v ∈ (build ops).reverseAdj ↔ ∃ op ∈ ops, op.Target v) := by
  induction ops using List.reverseRecOn with
  | nil => simp [build]
  | append_singleton ops op ih =>
      obtain ⟨hadj, hrev⟩ := ih fun pre hpre => h pre (hpre.trans (List.prefix_append _ _))
      rw [build_concat, exists_mem_concat, exists_mem_concat, ← hadj, ← hrev]
      cases op with
      | addEdge x w c =>
          refine ⟨?_, ?_⟩
          · show v ∈ ((build ops).addEdge x w c).adj ↔ v ∈ (build ops).adj ∨ v = w ∨ v = x
            rw [mem_addEdge, ← or_assoc, or_comm]
          · show v ∈ put (build ops).reverseAdj w x c ↔ v ∈ (build ops).reverseAdj ∨ v = w
            rw [mem_put, or_comm]
      | reverse =>
          have hkeys := h ops (List.prefix_refl _) v
          refine ⟨?_, ?_⟩
          · show v ∈ (build ops).reverseAdj ↔ v ∈ (build ops).adj ∨ False
            rw [or_false, hkeys]
          · show v ∈ (build ops).adj ↔ v ∈ (build ops).reverseAdj ∨ False
            rw [or_false, hkeys]

/-- Then a reversal keeps the vertices if every one is the target of an edge. -/
theorem sameKeys_build_iff (h : ∀ pre, pre ++ [.reverse] <+: ops → SameKeys (build pre)) :
    SameKeys (build ops) ↔ Entered ops := by
  refine forall_congr' fun v => ?_
  rw [(mem_build h v).1, (mem_build h v).2]
  refine iff_iff_implies_and_implies.trans (and_iff_left ?_)
  rintro ⟨op, hop, htarget⟩
  refine ⟨op, hop, ?_⟩
  cases op with
  | addEdge x w c => exact .inl htarget
  | reverse => exact htarget.elim

/-- All reversals of a run do what they should exactly when, at each of them, every vertex is the
    target of one of the edges added before it. -/
theorem reverses_iff_entered (ops : List (Op T)) :
    (∀ pre, pre ++ [.reverse] <+: ops → Reverses (build pre)) ↔
      ∀ pre, pre ++ [.reverse] <+: ops → Entered pre := by
  simp only [reverses_iff (ok_build _)]
  constructor
  · intro h pre hpre
    refine (sameKeys_build_iff fun pre' hpre' => h pre' ?_).mp (h pre hpre)
    exact hpre'.trans ((List.prefix_append _ _).trans hpre)
  · intro h pre
    -- by induction over the run up to the reversal, as the earlier ones have lost no vertex
    induction hlen : pre.length using Nat.strong_induction_on generalizing pre with
    | _ n ih =>
        intro hpre
        refine (sameKeys_build_iff fun pre' hpre' => ?_).mpr (h pre hpre)
        have hlt := hpre'.length_le
        rw [List.length_append, List.length_singleton, hlen] at hlt
        refine ih pre'.length (by omega) pre' rfl ?_
        exact hpre'.trans ((List.prefix_append _ _).trans hpre)

end Reverse

/-- Of a single edge only the target is left after a reversal, and still two vertices are
    counted. -/
theorem not_reverses_singleEdge :
    ¬∀ ops pre : List (Op Nat), pre ++ [.reverse] <+: ops → Reverses (build pre) := by
  intro hall
  have hlaw := hall [.addEdge 1 2 1, .reverse] [.addEdge 1 2 1] (List.prefix_refl _)
  have hsource : 1 ∈ (build [.addEdge 1 2 1]).vertexBag := by decide +kernel
  have hlost : 1 ∉ (build [.addEdge 1 2 1]).reverse.vertexBag := by decide +kernel
  exact hlost ((hlaw.vertexSet 1).mpr hsource)

end Digraph

end Paracel.Graph
