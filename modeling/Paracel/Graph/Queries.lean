import Paracel.Graph.Bigraph
import Paracel.Graph.Digraph

/-!
# Queries on graphs

The queries of `bigraph` and `digraph` of `include/graph.hpp`. All but `indegree` ask
for `adj[v]`, `reverse_adj[v]` or `adj[v][w]`, and what is missing is inserted: a
vertex without edges, or an edge of weight 0. (`undirected_graph` looks with `count`
first.) A query that finds what it asks for leaves the data alone. What is inserted
into `reverse_adj` is not seen before the graph is reversed.
-/

namespace Paracel.Graph

variable {T : Type}

/-- What a query returns; for `traverse`, what it hands to `func`. -/
inductive Answer (T : Type) where
  | connected (b : Bool)
  | wgt (c : ℚ)
  | dict (d : Dict T ℚ)
  | size (n : Nat)
  | calls (l : List (T × T × ℚ))

/-- Notes what it is handed. -/
def record (v w : T) (c : ℚ) (calls : List (T × T × ℚ)) : List (T × T × ℚ) :=
  calls ++ [(v, w, c)]

/-- The queries of `bigraph`. -/
inductive Bigraph.Query (T : Type) where
  | isConnected (a b : T)
  | getWgt (a b : T)
  | adjacent (v : T)
  | outdegree (v : T)
  | indegree (v : T)
  | traverse (v : T)

/-- The queries of `digraph`. -/
inductive Digraph.Query (T : Type) where
  | adjacent (v : T)
  | reverseAdjacent (v : T)
  | outdegree (v : T)
  | indegree (v : T)
  | traverse (v : T)

/-- What is asked for in `adj`. -/
inductive Access (T : Type) where
  | nothing
  | vertex (v : T)
  | edge (v w : T)

/-- The vertex or edge that a query asks for in `adj`. -/
def Bigraph.Query.access : Bigraph.Query T → Access T
  | .isConnected a _ => .vertex a
  | .getWgt a b => .edge a b
  | .adjacent v | .outdegree v | .traverse v => .vertex v
  | .indegree _ => .nothing

/-- The vertex that a query asks for in `adj`. -/
def Digraph.Query.access : Digraph.Query T → Access T
  | .adjacent v | .outdegree v | .traverse v => .vertex v
  | .reverseAdjacent _ | .indegree _ => .nothing

variable [DecidableEq T]

/-- The answer to a query, and the graph after it. -/
def Bigraph.ask (g : Bigraph T) : Bigraph.Query T → Answer T × Bigraph T
  | .isConnected a b => (g.isConnected a b).map .connected id
  | .getWgt a b => (g.getWgt a b).map .wgt id
  | .adjacent v => (g.adjacent v).map .dict id
  | .outdegree v => (g.outdegree v).map .size id
  | .indegree v => (.size (g.indegree v), g)
  | .traverse v => (g.traverseFrom v record []).map .calls id

/-- The answer to a query, and the graph after it. -/
def Digraph.ask (g : Digraph T) : Digraph.Query T → Answer T × Digraph T
  | .adjacent v => (g.adjacent v).map .dict id
  | .reverseAdjacent v => (g.reverseAdjacent v).map .dict id
  | .outdegree v => (g.outdegree v).map .size id
  | .indegree v => (.size (g.indegree v), g)
  | .traverse v => (g.traverseFrom v record []).map .calls id

/-! ### What an access leaves -/

namespace Access

/-- The vertex or edge is there. -/
def Present (adj : Adj T) : Access T → Prop
  | .nothing => True
  | .vertex v => v ∈ adj
  | .edge v w => ∃ c, wgt adj v w = some c

/-- The dictionary after the access. -/
def apply (adj : Adj T) : Access T → Adj T
  | .nothing => adj
  | .vertex v => touch adj v
  | .edge v w =>
      match wgt adj v w with
      | some _ => adj
      | none => put adj v w 0

variable {adj : Adj T} {acc : Access T}

/-- No key or edge of one dictionary is lost in the other. -/
structure Grows (a b : Adj T) : Prop where
  mem : ∀ v, v ∈ a → v ∈ b
  wgt : ∀ v w c, wgt a v w = some c → Graph.wgt b v w = some c

theorem Grows.trans {a b c : Adj T} (h : Grows a b) (h' : Grows b c) : Grows a c :=
  ⟨fun v hv => h'.mem v (h.mem v hv), fun v w c hc => h'.wgt v w c (h.wgt v w c hc)⟩

/-- What lies between two dictionaries of the same contents has these contents. -/
theorem Grows.same {a b c : Adj T} (h : Grows a b) (h' : Grows b c) (hsame : Same c a) :
    Same b a := by
  refine ⟨fun v => ⟨fun hv => (hsame.mem v).mp (h'.mem v hv), h.mem v⟩, fun v w => ?_⟩
  refine Option.ext fun x => ⟨fun hx => ?_, h.wgt v w x⟩
  rw [← hsame.wgt]
  exact h'.wgt v w x hx

theorem apply_of_present (h : acc.Present adj) : acc.apply adj = adj := by
  cases acc with
  | nothing => rfl
  | vertex v => exact touch_of_mem h
  | edge v w =>
      obtain ⟨c, hc⟩ := h
      rw [apply, hc]

/-- An edge that is missing is inserted. -/
theorem apply_edge_of_absent {v w : T} (h : ¬(edge v w).Present adj) :
    wgt adj v w = none ∧ (edge v w).apply adj = put adj v w 0 := by
  have hnone : wgt adj v w = none := Option.eq_none_iff_forall_ne_some.mpr fun c hc => h ⟨c, hc⟩
  rw [apply, hnone]
  exact ⟨rfl, rfl⟩

theorem grows_apply (adj : Adj T) (acc : Access T) : Grows adj (acc.apply adj) := by
  by_cases hpresent : acc.Present adj
  · rw [apply_of_present hpresent]
    exact ⟨fun _ hv => hv, fun _ _ _ hc => hc⟩
  · cases acc with
    | nothing => exact absurd trivial hpresent
    | vertex v =>
        refine ⟨fun x hx => mem_touch.mpr (.inr hx), fun x y c hc => ?_⟩
        exact wgt_touch.trans hc
    | edge v w =>
        obtain ⟨hnone, happly⟩ := apply_edge_of_absent hpresent
        rw [happly]
        refine ⟨fun x hx => mem_put.mpr (.inr hx), fun x y c hc => ?_⟩
        have hne : ¬(x = v ∧ y = w) := by
          rintro ⟨rfl, rfl⟩
          rw [hnone] at hc
          cases hc
        rw [wgt_put, if_neg hne, hc]

/-- After the access the vertex or edge is there. -/
theorem present_apply (adj : Adj T) (acc : Access T) : acc.Present (acc.apply adj) := by
  by_cases hpresent : acc.Present adj
  · rwa [apply_of_present hpresent]
  · cases acc with
    | nothing => trivial
    | vertex v => exact mem_touch.mpr (.inl rfl)
    | edge v w =>
        rw [(apply_edge_of_absent hpresent).2]
        exact ⟨0, wgt_put_self⟩

theorem Present.of_same {a b : Adj T} (h : acc.Present a) (hsame : Same a b) : acc.Present b := by
  cases acc with
  | nothing => trivial
  | vertex v => exact (hsame.mem v).mp h
  | edge v w =>
      obtain ⟨c, hc⟩ := h
      exact ⟨c, (hsame.wgt v w).symm.trans hc⟩

theorem grows_foldl_apply (adj : Adj T) (accs : List (Access T)) :
    Grows adj (accs.foldl apply adj) := by
  induction accs generalizing adj with
  | nil => exact ⟨fun _ hv => hv, fun _ _ _ hc => hc⟩
  | cons acc accs ih => exact (grows_apply adj acc).trans (ih _)

/-- The contents stay exactly when everything that is asked for is there. -/
theorem same_foldl_apply_iff (adj : Adj T) (accs : List (Access T)) :
    Same (accs.foldl apply adj) adj ↔ ∀ acc ∈ accs, acc.Present adj := by
  induction accs generalizing adj with
  | nil => simp [Same.refl]
  | cons acc accs ih =>
      rw [List.foldl_cons, List.forall_mem_cons]
      constructor
      · intro hsame
        have hfirst := (grows_apply adj acc).same (grows_foldl_apply _ accs) hsame
        have hpresent := (present_apply adj acc).of_same hfirst
        rw [apply_of_present hpresent] at hsame
        exact ⟨hpresent, (ih adj).mp hsame⟩
      · rintro ⟨hpresent, hrest⟩
        rw [apply_of_present hpresent]
        exact (ih adj).mpr hrest

end Access

/-! ### Sequences of queries -/

section Sequences

variable {G Q D : Type}

/-- The graph after these queries. -/
def after (ask : G → Q → Answer T × G) (g : G) (qs : List Q) : G :=
  qs.foldl (fun g q => (ask g q).2) g

/-- Queries that do not change the graph: afterwards the data is the same, and a question that is
    asked again, after others, has the same answer. -/
structure Unchanged (ask : G → Q → Answer T × G) (data : G → Adj T) (g : G) (qs : List Q) :
    Prop where
  data : Same (data (after ask g qs)) (data g)
  answers : ∀ pre q mid, pre ++ q :: mid ++ [q] <+: qs →
    (ask (after ask g (pre ++ q :: mid)) q).1 = (ask (after ask g pre) q).1

/-- What queries do that have these accesses; the answers depend on `view` alone. -/
structure Asks (ask : G → Q → Answer T × G) (data : G → Adj T) (access : Q → Access T)
    (view : G → D) : Prop where
  effect : ∀ g q, data (ask g q).2 = (access q).apply (data g)
  keeps : ∀ g q, (access q).Present (data g) → view (ask g q).2 = view g
  answer : ∀ g g' q, view g = view g' → (ask g q).1 = (ask g' q).1
  visible : ∀ g g', view g = view g' → data g = data g'

variable {ask : G → Q → Answer T × G} {data : G → Adj T} {access : Q → Access T} {view : G → D}

theorem Asks.data_after (h : Asks ask data access view) (g : G) (qs : List Q) :
    data (after ask g qs) = (qs.map access).foldl Access.apply (data g) := by
  induction qs generalizing g with
  | nil => rfl
  | cons q qs ih =>
      rw [List.map_cons, List.foldl_cons, ← h.effect]
      exact ih (ask g q).2

theorem Asks.view_after (h : Asks ask data access view) {g : G} {qs : List Q}
    (hpresent : ∀ q ∈ qs, (access q).Present (data g)) : view (after ask g qs) = view g := by
  induction qs generalizing g with
  | nil => rfl
  | cons q qs ih =>
      obtain ⟨hq, hqs⟩ := List.forall_mem_cons.mp hpresent
      have hview := h.keeps g q hq
      refine (ih (g := (ask g q).2) ?_).trans hview
      rwa [h.visible _ _ hview]

theorem Asks.unchanged_iff (h : Asks ask data access view) (g : G) (qs : List Q) :
    Unchanged ask data g qs ↔ ∀ q ∈ qs, (access q).Present (data g) := by
  have hdata : Same (data (after ask g qs)) (data g) ↔ ∀ q ∈ qs, (access q).Present (data g) := by
    rw [h.data_after, Access.same_foldl_apply_iff, List.forall_mem_map]
  refine ⟨fun hsame => hdata.mp hsame.data, fun hpresent => ⟨hdata.mpr hpresent, ?_⟩⟩
  intro pre q mid hpre
  have hview : ∀ part, part <+: pre ++ q :: mid → view (after ask g part) = view g := by
    intro part hpart
    refine h.view_after fun q' hq' => hpresent q' (hpre.subset ?_)
    exact List.mem_append_left _ (hpart.subset hq')
  refine h.answer _ _ q ?_
  rw [hview _ (List.prefix_refl _), hview pre (List.prefix_append _ _)]

end Sequences

/-! ### The queries of the source -/

theorem Bigraph.asks : Asks Bigraph.ask Bigraph.getData Bigraph.Query.access
    fun g : Bigraph T => g where
  effect g q := by
    cases q with
    | getWgt a b =>
        show ((g.getWgt a b).2).adj = (Access.edge a b).apply g.adj
        rw [getWgt, Access.apply]
        cases wgt g.adj a b <;> rfl
    | _ => rfl
  keeps g q hpresent := by
    cases q with
    | getWgt a b =>
        obtain ⟨c, hc⟩ := hpresent
        show (g.getWgt a b).2 = g
        rw [getWgt, show wgt g.adj a b = some c from hc]
    | indegree v => rfl
    | _ => exact congrArg (fun adj => { g with adj := adj }) (touch_of_mem hpresent)
  answer g g' q hview := by rw [show g = g' from hview]
  visible g g' hview := congrArg getData hview

/-- The keys of `reverse_adj` do not matter, as `adj` is what is returned. -/
theorem Digraph.asks : Asks Digraph.ask Digraph.getData Digraph.Query.access
    fun g : Digraph T => (g.adj, row g.reverseAdj) where
  effect g q := by cases q <;> rfl
  keeps g q hpresent := by
    cases q with
    | reverseAdjacent v => exact Prod.ext rfl (funext fun x => row_touch)
    | indegree v => rfl
    | _ => exact Prod.ext (touch_of_mem hpresent) rfl
  answer g g' q hview := by
    have hadj : g.adj = g'.adj := congrArg Prod.fst hview
    have hrow : row g.reverseAdj = row g'.reverseAdj := congrArg Prod.snd hview
    cases q with
    | reverseAdjacent v =>
        show Answer.dict (row g.reverseAdj v) = Answer.dict (row g'.reverseAdj v)
        rw [hrow]
    | indegree v =>
        show Answer.size (g.indegree v) = Answer.size (g'.indegree v)
        rw [indegree, indegree, hadj]
    | adjacent v =>
        show Answer.dict (row g.adj v) = Answer.dict (row g'.adj v)
        rw [hadj]
    | outdegree v =>
        show Answer.size (Dict.size (row g.adj v)) = Answer.size (Dict.size (row g'.adj v))
        rw [hadj]
    | traverse v =>
        show Answer.calls (g.traverseFrom v record []).1 =
          Answer.calls (g'.traverseFrom v record []).1
        rw [traverseFrom, traverseFrom, hadj]
  visible g g' hview := congrArg Prod.fst hview

/-- Queries leave a graph unchanged exactly when every vertex and edge that they ask for in `adj`
    is there. -/
theorem unchanged_iff_present :
    (∀ (g : Bigraph T) (qs : List (Bigraph.Query T)),
      Unchanged Bigraph.ask Bigraph.getData g qs ↔ ∀ q ∈ qs, q.access.Present g.getData) ∧
    ∀ (g : Digraph T) (qs : List (Digraph.Query T)),
      Unchanged Digraph.ask Digraph.getData g qs ↔ ∀ q ∈ qs, q.access.Present g.getData :=
  ⟨Bigraph.asks.unchanged_iff, Digraph.asks.unchanged_iff⟩

/-- Asking for the weight of an edge that is missing inserts it, and then it is connected. -/
theorem not_unchanged_getWgt :
    ¬∀ (tpls : List (Nat × Nat × ℚ)) (qs : List (Bigraph.Query Nat)),
      Unchanged Bigraph.ask Bigraph.getData (Bigraph.constructFromTriples {} tpls) qs := by
  intro hall
  have hanswers := (hall [(1, 2, 5)] [.isConnected 1 3, .getWgt 1 3, .isConnected 1 3]).answers []
    (.isConnected 1 3) [.getWgt 1 3] (List.prefix_refl _)
  have hconnected := Answer.connected.inj hanswers
  exact absurd hconnected (by decide +kernel)

end Paracel.Graph
