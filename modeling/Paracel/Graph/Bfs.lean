import Paracel.Graph.Digraph
import Paracel.Graph.Undirected
import Paracel.Misc.Search

/-!
# Breadth-first search

`BFS` of `include/graph.hpp`, on any type of graphs with `adjacent`. It marks a
vertex, hands it to `func` and notes its distance and predecessor when it puts it
into the queue. On a digraph `adjacent` may insert a vertex, but never an edge.
-/

namespace Paracel.Graph

open Search Relation

namespace Bfs

/-- The members of `BFS` and the locals of `bfs`; `env` is what `func` works on. -/
structure State (G T S : Type) where
  grp : G
  q : List T
  marked : Dict T Bool
  edgeTo : Dict T T := ∅
  distTo : Dict T Nat
  env : S

variable {G T S : Type} [DecidableEq T]

section Program

variable (adjacent : G → T → Dict T ℚ × G) (func : T → S → S)

/-- The loop over the neighbours of `node`, at the neighbour `w`. -/
def visit (node : T) (st : State G T S) (w : T) : State G T S :=
  if w ∈ st.marked then st
  else
    let dist := Dict.subscript 0 st.distTo node
    { st with
      q := st.q ++ [w]
      marked := st.marked.insert w true
      env := func w st.env
      edgeTo := st.edgeTo.insert w node
      distTo := dist.2.insert w (dist.1 + 1) }

/-- One turn of `while(!q.empty())`, with `node` in front of `rest`. -/
def turn (st : State G T S) (node : T) (rest : List T) : State G T S :=
  let (adj, grp) := adjacent st.grp node
  adj.keys.foldl (visit func node) { st with q := rest, grp := grp }

/-- `while(!q.empty())`, for at most `fuel` turns. -/
def loop : Nat → State G T S → Option (State G T S)
  | 0, _ => none
  | fuel + 1, st =>
      match st.q with
      | [] => some st
      | node :: rest => loop fuel (turn adjacent func st node rest)

/-- The locals and members before the loop of `bfs`. -/
def start (grp : G) (v : T) (env : S) : State G T S :=
  { grp := grp, q := [v], marked := AList.insert v true ∅, distTo := AList.insert v 0 ∅,
    env := func v env }

/-- `bfs`. -/
def bfs (fuel : Nat) (grp : G) (v : T) (env : S) : Option (State G T S) :=
  loop adjacent func fuel (start func grp v env)

end Program

/-- `visited`. -/
def visited (st : State G T S) (v : T) : Prop := v ∈ st.marked

/-- `edgeTo`. -/
def edgeTo [Inhabited T] (st : State G T S) (v : T) : T := (Dict.subscript default st.edgeTo v).1

/-- `dist`. -/
def dist (st : State G T S) (v : T) : Nat := (Dict.subscript 0 st.distTo v).1

/-! ### The search on a finite graph -/

/-- What a search from `s` should leave. -/
structure ShortestPaths [Inhabited T] (r : T → T → Prop) (func : T → S → S) (s : T) (env : S)
    (st : State G T S) : Prop where
  calls : ∃ calls : List T, st.env = calls.foldl (fun env v => func v env) env ∧ calls.Nodup ∧
    ∀ v, v ∈ calls ↔ ReflTransGen r s v
  visited : ∀ v, visited st v ↔ ReflTransGen r s v
  dist : ∀ v, Bfs.visited st v → IsLeast {n | Walk r s n v} (dist st v)
  edgeTo : ∀ v, Bfs.visited st v → v ≠ s →
    Bfs.visited st (edgeTo st v) ∧ r (edgeTo st v) v ∧ Bfs.dist st v = Bfs.dist st (edgeTo st v) + 1

section Invariant

variable {adjacent : G → T → Dict T ℚ × G} {func : T → S → S} {ok : G → Prop} {verts : Finset T}
  {r : T → T → Prop} {s node w : T} {todo : List T} {env : S} {st : State G T S}

/-- What is marked has a distance and was handed to `func`, once. -/
structure Kept (func : T → S → S) (ok : G → Prop) (env : S) (st : State G T S) : Prop where
  grp : ok st.grp
  marked : ∀ v, v ∈ st.marked ↔ st.distTo.lookup v ≠ none
  calls : ∃ calls : List T, st.env = calls.foldl (fun env v => func v env) env ∧ calls.Nodup ∧
    ∀ v, v ∈ calls ↔ v ∈ st.marked

/-- The loop over the neighbours of `node`, with `todo` ahead of it. -/
structure InTurn (func : T → S → S) (ok : G → Prop) (r : T → T → Prop) (s : T) (env : S)
    (node : T) (todo : List T) (st : State G T S) : Prop extends Kept func ok env st where
  scanning : Scanning r s node todo st.q st.distTo.lookup st.edgeTo.lookup

/-- Handing one more vertex to `func`. -/
theorem Kept.call (h : Kept func ok env st) (hw : w ∉ st.marked) (x : Nat) {st' : State G T S}
    (hgrp : st'.grp = st.grp) (hmarked : st'.marked = st.marked.insert w true)
    (henv : st'.env = func w st.env) (hdist : st'.distTo = st.distTo.insert w x) :
    Kept func ok env st' := by
  obtain ⟨calls, hcalls, hnodup, hmem⟩ := h.calls
  refine ⟨hgrp ▸ h.grp, ?_, calls ++ [w], ?_, ?_, ?_⟩
  · intro v
    rw [hmarked, hdist, AList.mem_insert, h.marked]
    by_cases hv : v = w
    · rw [hv, AList.lookup_insert]
      exact iff_of_true (.inl rfl) (Option.some_ne_none x)
    · rw [AList.lookup_insert_ne hv, or_iff_right hv]
  · rw [henv, hcalls, List.foldl_concat]
  · refine List.nodup_append.mpr ⟨hnodup, List.nodup_singleton w, ?_⟩
    rintro v hv w' hw' rfl
    exact hw (List.mem_singleton.mp hw' ▸ (hmem v).mp hv)
  · intro v
    rw [hmarked, List.mem_append, List.mem_singleton, hmem, AList.mem_insert, or_comm]

theorem visit_inTurn (h : InTurn func ok r s env node (w :: todo) st) (hedge : r node w)
    (hvert : w ∈ verts) :
    InTurn func ok r s env node todo (visit func node st w) ∧
      (visit func node st w).q.length + (unmarked verts (visit func node st w).marked).card =
        st.q.length + (unmarked verts st.marked).card := by
  by_cases hw : w ∈ st.marked
  · have hskip : visit func node st w = st := if_pos hw
    rw [hskip]
    exact ⟨⟨h.toKept, h.scanning.skip ((h.marked w).mp hw)⟩, rfl⟩
  · obtain ⟨d, hd, -⟩ := h.scanning.noted
    have hnew : st.distTo.lookup w = none := by
      by_contra hne
      exact hw ((h.marked w).mpr hne)
    have hpush : visit func node st w =
        { st with
          q := st.q ++ [w]
          marked := st.marked.insert w true
          env := func w st.env
          edgeTo := st.edgeTo.insert w node
          distTo := st.distTo.insert w (d + 1) } := by
      rw [visit, if_neg hw, Dict.subscript_of_lookup hd]
    have hcard := card_unmarked_insert hw hvert
    have hscanned := h.scanning.push hnew hedge hd
    rw [← Dict.lookup_insert_eq_update, ← Dict.lookup_insert_eq_update] at hscanned
    rw [hpush]
    refine ⟨⟨h.toKept.call hw (d + 1) rfl rfl rfl rfl, hscanned⟩, ?_⟩
    show (st.q ++ [w]).length + (unmarked verts (st.marked.insert w true)).card = _
    rw [List.length_append, List.length_singleton]
    omega

/-- The loop over the neighbours that are ahead. -/
theorem foldl_visit (htodo : ∀ w ∈ todo, r node w ∧ w ∈ verts)
    (h : InTurn func ok r s env node todo st) :
    InTurn func ok r s env node [] (todo.foldl (visit func node) st) ∧
      (todo.foldl (visit func node) st).q.length +
          (unmarked verts (todo.foldl (visit func node) st).marked).card =
        st.q.length + (unmarked verts st.marked).card := by
  induction todo generalizing st with
  | nil => exact ⟨h, rfl⟩
  | cons w todo ih =>
      obtain ⟨hedge, hvert⟩ := htodo w List.mem_cons_self
      obtain ⟨hvisit, hcard⟩ := visit_inTurn h hedge hvert
      rw [List.foldl_cons, ← hcard]
      exact ih (fun w' hw' => htodo w' (List.mem_cons_of_mem w hw')) hvisit

/-- One turn takes a vertex from the queue and moves what it marks into the queue. -/
theorem turn_waiting {rest : List T} (hadj : Adjacency adjacent ok r)
    (hclosed : ∀ v w, r v w → w ∈ verts) (hkept : Kept func ok env st)
    (hwait : Waiting r s (node :: rest) st.distTo.lookup st.edgeTo.lookup) :
    Kept func ok env (turn adjacent func st node rest) ∧
      Waiting r s (turn adjacent func st node rest).q
        (turn adjacent func st node rest).distTo.lookup
        (turn adjacent func st node rest).edgeTo.lookup ∧
      (turn adjacent func st node rest).q.length +
          (unmarked verts (turn adjacent func st node rest).marked).card =
        rest.length + (unmarked verts st.marked).card := by
  have hmem := hadj.mem st.grp hkept.grp node
  have hinTurn : InTurn func ok r s env node (adjacent st.grp node).1.keys
      { st with q := rest, grp := (adjacent st.grp node).2 } :=
    ⟨⟨hadj.keeps st.grp hkept.grp node, hkept.marked, hkept.calls⟩,
      hwait.pop fun w hw => (hmem w).mpr hw⟩
  have htodo : ∀ w ∈ (adjacent st.grp node).1.keys, r node w ∧ w ∈ verts := fun w hw =>
    ⟨(hmem w).mp hw, hclosed node w ((hmem w).mp hw)⟩
  obtain ⟨hdone, hcard⟩ := foldl_visit htodo hinTurn
  exact ⟨hdone.toKept, hdone.scanning.done, hcard⟩

/-- The loop ends after a turn for each vertex that is in the queue or unmarked, at most. -/
theorem loop_waiting (hadj : Adjacency adjacent ok r) (hclosed : ∀ v w, r v w → w ∈ verts)
    (hkept : Kept func ok env st) (hwait : Waiting r s st.q st.distTo.lookup st.edgeTo.lookup) :
    ∃ st', (∀ fuel > st.q.length + (unmarked verts st.marked).card,
        loop adjacent func fuel st = some st') ∧
      Kept func ok env st' ∧ Waiting r s [] st'.distTo.lookup st'.edgeTo.lookup := by
  induction hn : st.q.length + (unmarked verts st.marked).card generalizing st with
  | zero =>
      have hq : st.q = [] := List.length_eq_zero_iff.mp (by omega)
      refine ⟨st, ?_, hkept, hq ▸ hwait⟩
      intro fuel hfuel
      obtain ⟨fuel, rfl⟩ := Nat.exists_eq_add_one_of_ne_zero (Nat.ne_of_gt hfuel)
      rw [loop, hq]
  | succ n ih =>
      cases hq : st.q with
      | nil =>
          refine ⟨st, ?_, hkept, hq ▸ hwait⟩
          intro fuel hfuel
          obtain ⟨fuel, rfl⟩ := Nat.exists_eq_add_one_of_ne_zero (by omega : fuel ≠ 0)
          rw [loop, hq]
      | cons node rest =>
          rw [hq] at hwait
          obtain ⟨hkept', hwait', hcard⟩ := turn_waiting hadj hclosed hkept hwait
          rw [hq, List.length_cons] at hn
          obtain ⟨st', hloop, hend⟩ := ih hkept' hwait' (by omega)
          refine ⟨st', ?_, hend⟩
          intro fuel hfuel
          obtain ⟨fuel, rfl⟩ := Nat.exists_eq_add_one_of_ne_zero (by omega : fuel ≠ 0)
          rw [loop, hq]
          exact hloop fuel (by omega)

/-- When the queue is empty the paths are the shortest ones. -/
theorem shortestPaths_of_waiting [Inhabited T] (hkept : Kept func ok env st)
    (hwait : Waiting r s [] st.distTo.lookup st.edgeTo.lookup) :
    ShortestPaths r func s env st := by
  have hvisited : ∀ v, visited st v ↔ ReflTransGen r s v := fun v =>
    (hkept.marked v).trans hwait.noted_iff
  have hdist : ∀ v d, st.distTo.lookup v = some d → dist st v = d := by
    intro v d hd
    rw [dist, Dict.subscript_of_lookup hd]
  have hlookup : ∀ v, visited st v → st.distTo.lookup v = some (dist st v) := by
    intro v hv
    obtain ⟨d, hd⟩ := Option.ne_none_iff_exists'.mp ((hkept.marked v).mp hv)
    rw [hd, hdist v d hd]
  constructor
  case calls =>
    obtain ⟨calls, hcalls, hnodup, hmem⟩ := hkept.calls
    exact ⟨calls, hcalls, hnodup, fun v => (hmem v).trans (hvisited v)⟩
  case visited => exact hvisited
  case dist =>
    intro v hv
    exact hwait.isLeast (hlookup v hv)
  case edgeTo =>
    intro v hv hne
    obtain ⟨p, e, hp, hpv, he, heq⟩ := hwait.parent v _ (hlookup v hv) hne
    have hedgeTo : edgeTo st v = p := by rw [edgeTo, Dict.subscript_of_lookup hp]
    rw [hedgeTo, hdist p e he]
    refine ⟨(hkept.marked p).mpr ?_, hpv, heq⟩
    rw [he]
    exact Option.some_ne_none e

theorem bfs_spec [Inhabited T] {grp : G} (hadj : Adjacency adjacent ok r) (hgrp : ok grp)
    (hclosed : ∀ v w, r v w → w ∈ verts) (hs : s ∈ verts) (func : T → S → S) (env : S) :
    ∃ st, (∀ fuel > verts.card, bfs adjacent func fuel grp s env = some st) ∧
      ShortestPaths r func s env st := by
  have hmarked : ∀ v, v ∈ (start func grp s env).marked ↔ v = s := by
    intro v
    exact (AList.mem_insert ∅).trans (or_iff_left (AList.notMem_empty v))
  have hother : ∀ v, v ≠ s → (start func grp s env).distTo.lookup v = none := by
    intro v hv
    show (AList.insert s 0 ∅).lookup v = none
    rw [AList.lookup_insert_ne hv, AList.lookup_empty]
  have hsource : (start func grp s env).distTo.lookup s = some 0 := AList.lookup_insert ∅
  have hkept : Kept func ok env (start func grp s env) := by
    refine ⟨hgrp, ?_, [s], rfl, List.nodup_singleton s, ?_⟩
    · intro v
      rw [hmarked]
      by_cases hv : v = s
      · rw [hv, hsource]
        exact iff_of_true rfl (Option.some_ne_none 0)
      · exact iff_of_false hv (not_not.mpr (hother v hv))
    · intro v
      rw [hmarked, List.mem_singleton]
  have hcard : (start func grp s env).q.length +
      (unmarked verts (start func grp s env).marked).card = verts.card := by
    have herase : unmarked verts (start func grp s env).marked = verts.erase s := by
      ext v
      simp only [unmarked, Finset.mem_filter, Finset.mem_erase, hmarked, and_comm]
    rw [herase, ← Finset.card_erase_add_one hs, Nat.add_comm]
    rfl
  obtain ⟨st, hloop, hkept', hwait'⟩ :=
    loop_waiting hadj hclosed hkept (Waiting.start r s _ hsource hother)
  refine ⟨st, ?_, shortestPaths_of_waiting hkept' hwait'⟩
  rw [hcard] at hloop
  exact hloop

end Invariant

/-! ### The search on the graphs of the source -/

/-- On every graph that `add_edge` built, whatever the order in which the dictionaries are
    iterated, a search takes at most one turn for each vertex and leaves shortest paths. -/
theorem bfs_shortestPaths [Inhabited T] (tpls : List (T × T × ℚ)) (s : T) (func : T → S → S)
    (env : S) :
    (∀ g : UndirectedGraph T, Same g.adj (UndirectedGraph.constructFromTriples tpls).adj →
      ∃ st, (∀ fuel > (insert s (UndirectedGraph.endpoints tpls)).card,
          bfs (fun grp v => (grp.adjacent v, grp)) func fuel g s env = some st) ∧
        ShortestPaths (UndirectedGraph.Edge tpls) func s env st) ∧
    ∀ g : Digraph T, Same g.adj (Digraph.constructFromTriples tpls).adj →
      ∃ st, (∀ fuel > (insert s (UndirectedGraph.endpoints tpls)).card,
          bfs Digraph.adjacent func fuel g s env = some st) ∧
        ShortestPaths (Digraph.Edge tpls) func s env st := by
  have hmem : ∀ v w, UndirectedGraph.Edge tpls v w →
      w ∈ insert s (UndirectedGraph.endpoints tpls) := fun _ _ h =>
    Finset.mem_insert_of_mem (UndirectedGraph.mem_endpoints_of_edge h)
  refine ⟨?_, ?_⟩
  · intro g hg
    have hadj := g.adjacency
    simp only [hg.wgt, UndirectedGraph.exists_wgt_iff] at hadj
    exact bfs_spec hadj rfl hmem (Finset.mem_insert_self _ _) func env
  · intro g hg
    have hadj := g.adjacency
    simp only [hg.wgt, Digraph.exists_wgt_iff] at hadj
    refine bfs_spec hadj (fun _ => rfl) ?_ (Finset.mem_insert_self _ _) func env
    rintro v w ⟨tpl, htpl, h⟩
    exact hmem v w ⟨tpl, htpl, .inl h⟩

/-- From 1, on the graph of a cycle, a self-loop and an edge that is apart. -/
theorem bfs_shortestPaths_cycle :
    ∃ st, (∀ fuel > (insert 1 (UndirectedGraph.endpoints
          [(1, 2, 1), (2, 3, 1), (3, 1, 2), (2, 2, 1), (8, 9, 1)])).card,
        bfs Digraph.adjacent (fun v calls => v :: calls) fuel
          (Digraph.constructFromTriples [(1, 2, 1), (2, 3, 1), (3, 1, 2), (2, 2, 1), (8, 9, 1)])
          (1 : Nat) [] = some st) ∧
      ShortestPaths (Digraph.Edge [(1, 2, 1), (2, 3, 1), (3, 1, 2), (2, 2, 1), (8, 9, 1)])
        (fun v calls => v :: calls) 1 [] st :=
  (bfs_shortestPaths _ 1 _ _).2 _ (Same.refl _)

end Bfs

end Paracel.Graph
