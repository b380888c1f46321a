import Paracel.Graph.Undirected
import Paracel.Misc.Search

/-!
# Depth-first search and connected components

`DFS` and `connected_components` of `include/graph.hpp`. For every vertex without a
mark a search is started that has marks of its own; its `func` writes the marks and
identifiers of the components. `fuel` bounds the depth of the recursion.
-/

namespace Paracel.Graph

open Search Relation

/-! ### Depth-first search -/

namespace Dfs

/-- The graph a search works on and its member; `env` is what `func` works on. -/
structure State (G T S : Type) where
  grp : G
  marked : Dict T Bool := ∅
  env : S

variable {G T S : Type} [DecidableEq T]

section Program

variable (adjacent : G → T → Dict T ℚ × G) (func : T → S → S)

/-- What `dfs` does before it looks at the neighbours. -/
def mark (st : State G T S) (v : T) : State G T S :=
  { st with marked := st.marked.insert v true, env := func v st.env }

/-- `dfs`. -/
def dfs : Nat → State G T S → T → Option (State G T S)
  | 0, _, _ => none
  | fuel + 1, st, v =>
      let st := mark func st v
      let (adj, grp) := adjacent st.grp v
      adj.keys.foldlM (fun st w => if w ∈ st.marked then some st else dfs fuel st w)
        { st with grp := grp }

/-- `DFS`, the constructor. -/
def search (fuel : Nat) (graph : G) (src : T) (env : S) : Option (State G T S) :=
  dfs adjacent func fuel { grp := graph, env := env } src

end Program

/-- `visited`. -/
def visited (st : State G T S) (v : T) : Prop := v ∈ st.marked

/-- What a search from `src` should leave. -/
structure Reached (r : T → T → Prop) (func : T → S → S) (src : T) (env : S) (st : State G T S) :
    Prop where
  visited : ∀ v, visited st v ↔ ReflTransGen r src v
  calls : ∃ calls : List T, st.env = calls.foldl (fun env v => func v env) env ∧ calls.Nodup ∧
    ∀ v, v ∈ calls ↔ ReflTransGen r src v

section Search

variable {adjacent : G → T → Dict T ℚ × G} {func : T → S → S} {ok : G → Prop} {verts : Finset T}
  {r : T → T → Prop} {v : T} {st st₁ st₂ : State G T S} {R R₁ R₂ : Set T}

/-- The marks, as a set. -/
def marks (st : State G T S) : Set T := {v | v ∈ st.marked}

/-- From one state to another what is below `R` was marked, and every vertex that is new was
    handed to `func`, once. -/
structure Visits (func : T → S → S) (ok : G → Prop) (r : T → T → Prop) (st : State G T S)
    (R : Set T) (st' : State G T S) : Prop where
  grp : ok st'.grp
  explored : Explored r (marks st) R (marks st')
  calls : ∃ calls : List T, st'.env = calls.foldl (fun env v => func v env) st.env ∧
    calls.Nodup ∧ ∀ v, v ∈ calls ↔ v ∈ st'.marked ∧ v ∉ st.marked

omit [DecidableEq T] in
theorem Visits.skip (hok : ok st.grp) (h : R ⊆ marks st) : Visits func ok r st R st where
  grp := hok
  explored := .skip h
  calls := ⟨[], rfl, List.nodup_nil, fun _ => iff_of_false List.not_mem_nil and_not_self⟩

theorem Visits.trans (h₁ : Visits func ok r st R₁ st₁) (h₂ : Visits func ok r st₁ R₂ st₂) :
    Visits func ok r st (R₁ ∪ R₂) st₂ := by
  obtain ⟨calls₁, henv₁, hnodup₁, hmem₁⟩ := h₁.calls
  obtain ⟨calls₂, henv₂, hnodup₂, hmem₂⟩ := h₂.calls
  refine ⟨h₂.grp, h₁.explored.trans h₂.explored, calls₁ ++ calls₂, ?_, ?_, ?_⟩
  · rw [henv₂, henv₁, List.foldl_append]
  · refine List.nodup_append.mpr ⟨hnodup₁, hnodup₂, ?_⟩
    rintro x hx₁ y hy₂ rfl
    exact ((hmem₂ x).mp hy₂).2 ((hmem₁ x).mp hx₁).1
  · intro x
    have hmono₁ : x ∈ st.marked → x ∈ st₁.marked := fun hx => h₁.explored.mono hx
    have hmono₂ : x ∈ st₁.marked → x ∈ st₂.marked := fun hx => h₂.explored.mono hx
    rw [List.mem_append, hmem₁, hmem₂]
    tauto

/-- A vertex is marked, then what is below its neighbours. -/
theorem Visits.node (hv : v ∉ st.marked) (hmarked : st₁.marked = st.marked.insert v true)
    (henv : st₁.env = func v st.env) (h : Visits func ok r st₁ {w | r v w} st₂) :
    Visits func ok r st {v} st₂ := by
  obtain ⟨calls, henv₂, hnodup, hmem⟩ := h.calls
  have hmark : ∀ x, x ∈ st₁.marked ↔ x = v ∨ x ∈ st.marked := by
    intro x
    rw [hmarked, AList.mem_insert]
  have hmarks : marks st₁ = insert v (marks st) := Set.ext hmark
  have hroot : v ∈ st₂.marked := h.explored.mono ((hmark v).mpr (.inl rfl))
  refine ⟨h.grp, ?_, v :: calls, ?_, ?_, ?_⟩
  · have hexplored := h.explored
    rw [hmarks] at hexplored
    exact hexplored.node
  · rw [henv₂, henv, List.foldl_cons]
  · refine List.nodup_cons.mpr ⟨?_, hnodup⟩
    intro hcall
    exact ((hmem v).mp hcall).2 ((hmark v).mpr (.inl rfl))
  · intro x
    rw [List.mem_cons, hmem, hmark]
    by_cases hx : x = v
    · subst hx
      exact iff_of_true (.inl rfl) ⟨hroot, hv⟩
    · simp only [hx, false_or]

theorem unmarked_subset (h : Visits func ok r st R st₁) :
    unmarked verts st₁.marked ⊆ unmarked verts st.marked := by
  intro x hx
  obtain ⟨hvert, hnot⟩ := Finset.mem_filter.mp hx
  exact Finset.mem_filter.mpr ⟨hvert, fun hmem => hnot (h.explored.mono hmem)⟩

/-- The loop over the neighbours, if the searches from them do what they should. -/
theorem foldlM_dfs {n : Nat} {todo : List T} (htodo : ∀ w ∈ todo, w ∈ verts) (hok : ok st.grp)
    (hcard : (unmarked verts st.marked).card ≤ n)
    (hdfs : ∀ (st : State G T S), ∀ w ∈ verts, ok st.grp → w ∉ st.marked →
      (unmarked verts st.marked).card ≤ n →
      ∃ st', (∀ fuel ≥ n, dfs adjacent func fuel st w = some st') ∧
        Visits func ok r st {w} st') :
    ∃ st', (∀ fuel ≥ n, todo.foldlM (fun st w => if w ∈ st.marked then some st
        else dfs adjacent func fuel st w) st = some st') ∧
      Visits func ok r st {w | w ∈ todo} st' := by
  induction todo generalizing st with
  | nil => exact ⟨st, fun _ _ => rfl, .skip hok fun w hw => absurd hw List.not_mem_nil⟩
  | cons w todo ih =>
      obtain ⟨st₁, hstep, hvisits⟩ : ∃ st₁, (∀ fuel ≥ n, (if w ∈ st.marked then some st
          else dfs adjacent func fuel st w) = some st₁) ∧ Visits func ok r st {w} st₁ := by
        by_cases hw : w ∈ st.marked
        · refine ⟨st, fun _ _ => if_pos hw, .skip hok ?_⟩
          exact Set.singleton_subset_iff.mpr hw
        · simp only [if_neg hw]
          exact hdfs st w (htodo w List.mem_cons_self) hok hw hcard
      have hcard₁ := (Finset.card_le_card (unmarked_subset hvisits)).trans hcard
      obtain ⟨st', hloop, hrest⟩ :=
        ih (fun x hx => htodo x (List.mem_cons_of_mem w hx)) hvisits.grp hcard₁
      refine ⟨st', ?_, ?_⟩
      · intro fuel hfuel
        rw [List.foldlM_cons, hstep fuel hfuel]
        exact hloop fuel hfuel
      · have hset : {x | x ∈ w :: todo} = {w} ∪ {x | x ∈ todo} := by
          ext x
          exact List.mem_cons
        rw [hset]
        exact hvisits.trans hrest

/-- The recursion is no deeper than the number of vertices without a mark. -/
theorem dfs_visits (func : T → S → S) (hadj : Adjacency adjacent ok r)
    (hclosed : ∀ v w, r v w → w ∈ verts) {n : Nat} (hcard : (unmarked verts st.marked).card ≤ n)
    (hvert : v ∈ verts) (hok : ok st.grp) (hv : v ∉ st.marked) :
    ∃ st', (∀ fuel ≥ n, dfs adjacent func fuel st v = some st') ∧
      Visits func ok r st {v} st' := by
  induction n generalizing st v with
  | zero =>
      have hmem : v ∈ unmarked verts st.marked := Finset.mem_filter.mpr ⟨hvert, hv⟩
      rw [Finset.card_eq_zero.mp (Nat.le_zero.mp hcard)] at hmem
      exact absurd hmem (Finset.notMem_empty v)
  | succ n ih =>
      have hmem := hadj.mem st.grp hok v
      obtain ⟨st₁, hst₁⟩ : ∃ st₁, st₁ = { mark func st v with grp := (adjacent st.grp v).2 } :=
        ⟨_, rfl⟩
      have hmarked : st₁.marked = st.marked.insert v true := by
        rw [hst₁]
        rfl
      have hless : (unmarked verts st₁.marked).card ≤ n := by
        have hcard₁ := card_unmarked_insert hv hvert
        rw [hmarked]
        omega
      have hok₁ : ok st₁.grp := hst₁ ▸ hadj.keeps st.grp hok v
      obtain ⟨st₂, hloop, hvisits⟩ := foldlM_dfs (fun w hw => hclosed v w ((hmem w).mp hw)) hok₁
        hless fun st w hw hok hnot hle => ih hle hw hok hnot
      have hset : {w | w ∈ (adjacent st.grp v).1.keys} = {w | r v w} := Set.ext hmem
      rw [hset] at hvisits
      refine ⟨st₂, ?_, .node hv hmarked (by rw [hst₁]; rfl) hvisits⟩
      intro fuel hfuel
      obtain ⟨fuel, rfl⟩ := Nat.exists_eq_add_one_of_ne_zero (by omega : fuel ≠ 0)
      rw [hst₁] at hloop
      exact hloop fuel (by omega)

/-- A search visits the vertices that can be reached from its source, each once. -/
theorem search_spec {graph : G} {src : T} (hadj : Adjacency adjacent ok r) (hok : ok graph)
    (hclosed : ∀ v w, r v w → w ∈ verts) (hsrc : src ∈ verts) (func : T → S → S) (env : S) :
    ∃ st, (∀ fuel ≥ verts.card, search adjacent func fuel graph src env = some st) ∧
      Reached r func src env st := by
  have hcard : (unmarked verts { grp := graph, env := env : State G T S }.marked).card ≤
      verts.card := Finset.card_filter_le verts _
  obtain ⟨st, hrun, hvisits⟩ := dfs_visits func hadj hclosed hcard hsrc hok
    (AList.notMem_empty src)
  have hvisited : ∀ v, visited st v ↔ ReflTransGen r src v := by
    have hexplored := hvisits.explored
    have hempty : marks { grp := graph, env := env : State G T S } = ∅ :=
      Set.eq_empty_iff_forall_notMem.mpr AList.notMem_empty
    rw [hempty] at hexplored
    exact fun v => hexplored.mem_iff
  obtain ⟨calls, henv, hnodup, hmem⟩ := hvisits.calls
  refine ⟨st, hrun, ⟨hvisited, calls, henv, hnodup, ?_⟩⟩
  intro v
  rw [hmem, ← hvisited]
  exact and_iff_left (AList.notMem_empty v)

end Search

end Dfs

/-! ### Connected components -/

/-- `connected_components`. -/
structure Components (T : Type) where
  count : Nat := 0
  identifier : Dict T Nat := ∅
  marked : Dict T Bool := ∅

namespace Components

variable {T : Type} [DecidableEq T]

section Program

variable {G : Type} (adjacent : G → T → Dict T ℚ × G) (fuel : Nat) (graph : G)

/-- `handler_lambda`. -/
def handler (v : T) (cc : Components T) : Components T :=
  { cc with identifier := cc.identifier.insert v cc.count, marked := cc.marked.insert v true }

/-- The loop over the vertices, at the vertex `v`. -/
def explore (cc : Components T) (v : T) : Option (Components T) :=
  if v ∈ cc.marked then some cc
  else do
    let dfs ← Dfs.search adjacent handler fuel graph v cc
    some { dfs.env with count := dfs.env.count + 1 }

/-- `connected_components`, the constructor. -/
def connectedComponents (vertexBag : G → List T) : Option (Components T) :=
  (vertexBag graph).foldlM (explore adjacent fuel graph) {}

end Program

omit [DecidableEq T] in
/-- `cnt`. -/
def cnt (cc : Components T) : Nat := cc.count

/-- `id`. -/
def id (cc : Components T) (v : T) : Int :=
  if v ∉ cc.identifier then -1 else (Dict.subscript 0 cc.identifier v).1

/-- What the identifiers should be. -/
structure Identifies (r : T → T → Prop) (verts : Finset T) (cc : Components T) : Prop where
  joined : ∀ v ∈ verts, ∀ w, id cc v = id cc w ↔ ReflTransGen r v w
  range : ∀ i, (∃ v ∈ verts, id cc v = i) ↔ 0 ≤ i ∧ i < cnt cc
  other : ∀ v, v ∉ verts → id cc v = -1

section Explore

variable {G : Type} {adjacent : G → T → Dict T ℚ × G} {ok : G → Prop} {verts : Finset T}
  {r : T → T → Prop} {graph : G} {v : T} {cc cc' : Components T}

/-- Between two searches: whole components are marked and numbered. -/
structure Ok (r : T → T → Prop) (verts : Finset T) (cc : Components T) : Prop where
  numbered : Numbered r cc.count cc.identifier.lookup
  marked : ∀ v, v ∈ cc.marked ↔ v ∈ cc.identifier
  vertex : ∀ v, v ∈ cc.identifier → v ∈ verts

/-- What a search writes. -/
theorem foldl_handler (calls : List T) (cc : Components T) :
    (calls.foldl (fun cc v => handler v cc) cc).count = cc.count ∧
      ∀ v, ((calls.foldl (fun cc v => handler v cc) cc).identifier.lookup v =
          if v ∈ calls then some cc.count else cc.identifier.lookup v) ∧
        (v ∈ (calls.foldl (fun cc v => handler v cc) cc).marked ↔ v ∈ calls ∨ v ∈ cc.marked) := by
  induction calls using List.reverseRecOn with
  | nil => exact ⟨rfl, fun v => ⟨rfl, by simp⟩⟩
  | append_singleton calls w ih =>
      obtain ⟨hcount, hih⟩ := ih
      rw [List.foldl_concat]
      refine ⟨hcount, fun v => ?_⟩
      obtain ⟨hlookup, hmarked⟩ := hih v
      refine ⟨?_, ?_⟩
      · show (AList.insert w _ _).lookup v = _
        by_cases hv : v = w
        · rw [hv, AList.lookup_insert, hcount, if_pos (List.mem_append_right _ List.mem_cons_self)]
        · rw [AList.lookup_insert_ne hv, hlookup]
          simp [hv]
      · show v ∈ AList.insert w true _ ↔ _
        rw [AList.mem_insert, hmarked, List.mem_append, List.mem_singleton]
        tauto

theorem explore_ok [Std.Symm r] (hadj : Adjacency adjacent ok r) (hok : ok graph)
    (hclosed : ∀ v w, r v w → w ∈ verts) (h : Ok r verts cc) (hv : v ∈ verts) :
    ∃ cc', (∀ fuel ≥ verts.card, explore adjacent fuel graph cc v = some cc') ∧
      Ok r verts cc' ∧ v ∈ cc'.identifier ∧ ∀ w, w ∈ cc.identifier → w ∈ cc'.identifier := by
  by_cases hmarked : v ∈ cc.marked
  · exact ⟨cc, fun _ _ => if_pos hmarked, h, (h.marked v).mp hmarked, fun _ hw => hw⟩
  · obtain ⟨dfs, hrun, -, calls, henv, -, hcalls⟩ :=
      Dfs.search_spec hadj hok hclosed hv handler cc
    obtain ⟨hcount, hwritten⟩ := foldl_handler calls cc
    rw [← henv] at hcount hwritten
    have hnone : cc.identifier.lookup v = none := by
      rw [AList.lookup_eq_none, ← h.marked]
      exact hmarked
    have hmem : ∀ w, w ∈ dfs.env.identifier ↔ w ∈ calls ∨ w ∈ cc.identifier := by
      intro w
      rw [Dict.mem_iff_lookup, (hwritten w).1, Dict.mem_iff_lookup]
      by_cases hw : w ∈ calls <;> simp [hw]
    refine ⟨{ dfs.env with count := dfs.env.count + 1 }, ?_, ⟨?_, ?_, ?_⟩, ?_, ?_⟩
    · intro fuel hfuel
      rw [explore, if_neg hmarked, hrun fuel hfuel]
      rfl
    · rw [hcount]
      refine h.numbered.next hnone ?_ ?_
      · intro w hw
        rw [(hwritten w).1, if_pos ((hcalls w).mpr hw)]
      · intro w hw
        rw [(hwritten w).1, if_neg fun hcall => hw ((hcalls w).mp hcall)]
    · intro w
      rw [(hwritten w).2, hmem, h.marked]
    · intro w hw
      rcases (hmem w).mp hw with hw | hw
      · rcases ((hcalls w).mp hw).cases_tail with rfl | ⟨x, -, hedge⟩
        · exact hv
        · exact hclosed x w hedge
      · exact h.vertex w hw
    · exact (hmem v).mpr (.inl ((hcalls v).mpr .refl))
    · intro w hw
      exact (hmem w).mpr (.inr hw)

theorem foldlM_explore [Std.Symm r] (hadj : Adjacency adjacent ok r) (hok : ok graph)
    (hclosed : ∀ v w, r v w → w ∈ verts) (h : Ok r verts cc) {todo : List T}
    (htodo : ∀ v ∈ todo, v ∈ verts) :
    ∃ cc', (∀ fuel ≥ verts.card, todo.foldlM (explore adjacent fuel graph) cc = some cc') ∧
      Ok r verts cc' ∧ (∀ v ∈ todo, v ∈ cc'.identifier) ∧
      ∀ w, w ∈ cc.identifier → w ∈ cc'.identifier := by
  induction todo generalizing cc with
  | nil => exact ⟨cc, fun _ _ => rfl, h, fun v hv => absurd hv List.not_mem_nil, fun _ hw => hw⟩
  | cons v todo ih =>
      obtain ⟨cc₁, hstep, hok₁, hv, hmono₁⟩ :=
        explore_ok hadj hok hclosed h (htodo v List.mem_cons_self)
      obtain ⟨cc', hloop, hok', htodo', hmono'⟩ :=
        ih hok₁ fun w hw => htodo w (List.mem_cons_of_mem v hw)
      refine ⟨cc', ?_, hok', ?_, fun w hw => hmono' w (hmono₁ w hw)⟩
      · intro fuel hfuel
        rw [List.foldlM_cons, hstep fuel hfuel]
        exact hloop fuel hfuel
      · intro w hw
        rcases List.mem_cons.mp hw with rfl | hw
        · exact hmono' w hv
        · exact htodo' w hw

/-- When all vertices are numbered. -/
theorem identifies_of_ok (h : Ok r verts cc) (hall : ∀ v ∈ verts, v ∈ cc.identifier) :
    Identifies r verts cc := by
  have hid : ∀ v i, cc.identifier.lookup v = some i → id cc v = i := by
    intro v i hv
    rw [id, if_neg (not_not.mpr (Dict.mem_of_lookup hv)), Dict.subscript_of_lookup hv]
  have hlookup : ∀ v ∈ verts, ∃ i, cc.identifier.lookup v = some i := fun v hv =>
    Dict.mem_iff_lookup.mp (hall v hv)
  have hother : ∀ v, v ∉ verts → id cc v = -1 := fun v hv => if_pos fun hmem =>
    hv (h.vertex v hmem)
  refine ⟨?_, ?_, hother⟩
  · intro v hv w
    obtain ⟨i, hi⟩ := hlookup v hv
    rw [← h.numbered.same v i hi w, hid v i hi]
    by_cases hw : w ∈ verts
    · obtain ⟨j, hj⟩ := hlookup w hw
      rw [hid w j hj, hj, Option.some_inj, Int.natCast_inj, eq_comm]
    · rw [hother w hw]
      refine iff_of_false (by omega) ?_
      intro hsome
      exact hw (h.vertex w (Dict.mem_of_lookup hsome))
  · intro i
    constructor
    · rintro ⟨v, hv, rfl⟩
      obtain ⟨j, hj⟩ := hlookup v hv
      have hlt := h.numbered.lt v j hj
      rw [hid v j hj, cnt]
      omega
    · rintro ⟨hlow, hhigh⟩
      rw [cnt] at hhigh
      obtain ⟨v, hv⟩ := h.numbered.onto i.toNat (by omega)
      refine ⟨v, h.vertex v (Dict.mem_of_lookup hv), ?_⟩
      rw [hid v _ hv]
      omega

theorem connectedComponents_spec [Std.Symm r] {vertexBag : G → List T}
    (hadj : Adjacency adjacent ok r) (hok : ok graph) (hclosed : ∀ v w, r v w → w ∈ verts)
    (hbag : ∀ v, v ∈ vertexBag graph ↔ v ∈ verts) :
    ∃ cc, (∀ fuel ≥ verts.card, connectedComponents adjacent fuel graph vertexBag = some cc) ∧
      Identifies r verts cc := by
  have hstart : Ok r verts ({} : Components T) :=
    ⟨.start r, fun _ => Iff.rfl, fun v hv => absurd hv (AList.notMem_empty v)⟩
  obtain ⟨cc, hrun, hok', hall, -⟩ :=
    foldlM_explore hadj hok hclosed hstart fun v hv => (hbag v).mp hv
  exact ⟨cc, hrun, identifies_of_ok hok' fun v hv => hall v ((hbag v).mpr hv)⟩

end Explore

/-- On every graph that `add_edge` built, whatever the order in which the dictionaries are
    iterated, the components are identified, and a search with whatever `func` visits what can be
    reached from its source. -/
theorem connectedComponents_identifies {S : Type} (tpls : List (T × T × ℚ)) (g : UndirectedGraph T)
    (hg : Same g.adj (UndirectedGraph.constructFromTriples tpls).adj) :
    (∃ cc, (∀ fuel ≥ (UndirectedGraph.endpoints tpls).card,
        connectedComponents (fun grp v => (grp.adjacent v, grp)) fuel g
          UndirectedGraph.vertexBag = some cc) ∧
      Identifies (UndirectedGraph.Edge tpls) (UndirectedGraph.endpoints tpls) cc) ∧
    ∀ src ∈ UndirectedGraph.endpoints tpls, ∀ (func : T → S → S) (env : S),
      ∃ st, (∀ fuel ≥ (UndirectedGraph.endpoints tpls).card,
          Dfs.search (fun grp v => (grp.adjacent v, grp)) func fuel g src env = some st) ∧
        Dfs.Reached (UndirectedGraph.Edge tpls) func src env st := by
  have hadj := g.adjacency
  simp only [hg.wgt, UndirectedGraph.exists_wgt_iff] at hadj
  have hclosed : ∀ v w, UndirectedGraph.Edge tpls v w → w ∈ UndirectedGraph.endpoints tpls :=
    fun _ _ => UndirectedGraph.mem_endpoints_of_edge
  refine ⟨?_, ?_⟩
  · refine connectedComponents_spec (r := UndirectedGraph.Edge tpls) hadj rfl hclosed ?_
    intro v
    rw [UndirectedGraph.mem_endpoints]
    exact hg.mem v
  · exact fun src hsrc => Dfs.search_spec hadj rfl hclosed hsrc

/-- Two components, one with a self-loop. -/
theorem connectedComponents_identifies_two :
    (∃ cc, (∀ fuel ≥ (UndirectedGraph.endpoints [(1, 2, 1), (5, 5, 2), (2, 3, 1)]).card,
        connectedComponents (fun grp v => (grp.adjacent v, grp)) fuel
          (UndirectedGraph.constructFromTriples [(1, 2, 1), (5, 5, 2), (2, 3, 1)])
          UndirectedGraph.vertexBag = some cc) ∧
      Identifies (UndirectedGraph.Edge [((1 : Nat), (2 : Nat), (1 : ℚ)), (5, 5, 2), (2, 3, 1)])
        (UndirectedGraph.endpoints [(1, 2, 1), (5, 5, 2), (2, 3, 1)]) cc) ∧
    ∃ st, (∀ fuel ≥ (UndirectedGraph.endpoints [(1, 2, 1), (5, 5, 2), (2, 3, 1)]).card,
        Dfs.search (fun grp v => (grp.adjacent v, grp)) (fun v calls => v :: calls) fuel
          (UndirectedGraph.constructFromTriples [(1, 2, 1), (5, 5, 2), (2, 3, 1)]) 3 [] = some st) ∧
      Dfs.Reached (UndirectedGraph.Edge [((1 : Nat), (2 : Nat), (1 : ℚ)), (5, 5, 2), (2, 3, 1)])
        (fun v calls => v :: calls) 3 [] st :=
  have h := connectedComponents_identifies [((1 : Nat), (2 : Nat), (1 : ℚ)), (5, 5, 2), (2, 3, 1)] _
    (Same.refl _)
  ⟨h.1, h.2 3 (by decide) _ _⟩

end Components

end Paracel.Graph
