import Mathlib.Data.Finset.Image
import Mathlib.Data.List.Induction
import Mathlib.Data.Rat.Init
import Mathlib.Data.Finset.Card
import Paracel.Types

/-!
# Adjacency dictionaries

The graphs of `include/graph.hpp` keep their edges in dictionaries of dictionaries:
`adj[v][w]` is the weight of the edge from `v` to `w`. `operator[]` inserts an empty
dictionary or the weight 0 where the key is missing. Two such dictionaries have the
same contents when they have the same keys and edges, whatever the order in which
they are iterated.
-/

namespace Paracel

/-- The number of entries of a dictionary. -/
def Dict.size {K V : Type} (d : Dict K V) : Nat :=
  d.keys.length

/-- `operator[]`: the value, which is inserted if there is none, and the dictionary after that. -/
def Dict.subscript {K V : Type} [DecidableEq K] (zero : V) (d : Dict K V) (k : K) : V × Dict K V :=
  match d.lookup k with
  | some v => (v, d)
  | none => (zero, d.insert k zero)

section Lookup

variable {K V : Type} [DecidableEq K] {zero x : V} {d : Dict K V} {k : K}

theorem Dict.mem_iff_lookup : k ∈ d ↔ ∃ x, d.lookup k = some x := by
  rw [← AList.lookup_isSome, Option.isSome_iff_exists]

theorem Dict.mem_of_lookup (h : d.lookup k = some x) : k ∈ d :=
  Dict.mem_iff_lookup.mpr ⟨x, h⟩

theorem Dict.subscript_of_lookup (h : d.lookup k = some x) :
    Dict.subscript zero d k = (x, d) := by
  rw [Dict.subscript, h]

theorem Dict.lookup_insert_eq_update (d : Dict K V) (k : K) (x : V) :
    (d.insert k x).lookup = Function.update d.lookup k (some x) := by
  funext k'
  by_cases hk : k' = k
  · rw [hk, AList.lookup_insert, Function.update_self]
  · rw [AList.lookup_insert_ne hk, Function.update_of_ne hk]

end Lookup

namespace Graph

/-- `dict_type<T, dict_type<T, double> >`. -/
abbrev Adj (T : Type) := Dict T (Dict T ℚ)

theorem exists_mem_concat {α : Type} {l : List α} {a : α} {p : α → Prop} :
    (∃ b ∈ l ++ [a], p b) ↔ (∃ b ∈ l, p b) ∨ p a := by
  simp only [List.mem_append, List.mem_singleton, or_and_right, exists_or, exists_eq_left]

variable {T : Type}

/-- The edges in iteration order, as `traverse` meets them. -/
def edges (adj : Adj T) : List (T × T × ℚ) :=
  (Dict.pairs adj).flatMap fun v => (Dict.pairs v.2).map fun kv => (v.1, kv.1, kv.2)

variable [DecidableEq T]

/-- What `adj[v]` is, also where it is missing. -/
def row (adj : Adj T) (v : T) : Dict T ℚ :=
  (adj.lookup v).getD ∅

/-- `adj` after `adj[v]` was asked for. -/
def touch (adj : Adj T) (v : T) : Adj T :=
  if v ∈ adj then adj else adj.insert v ∅

/-- `adj[v][w] = wgt`. -/
def put (adj : Adj T) (v w : T) (wgt : ℚ) : Adj T :=
  adj.insert v ((row adj v).insert w wgt)

/-- The weight of the edge from `v` to `w`, if there is one. -/
def wgt (adj : Adj T) (v w : T) : Option ℚ :=
  (row adj v).lookup w

/-- The same keys and edges. -/
structure Same (a b : Adj T) : Prop where
  mem : ∀ v, v ∈ a ↔ v ∈ b
  wgt : ∀ v w, wgt a v w = wgt b v w

section Operations

variable {adj : Adj T} {v w x y : T} {c : ℚ}

theorem row_of_lookup {r : Dict T ℚ} (h : adj.lookup v = some r) : row adj v = r := by
  rw [row, h]
  rfl

theorem row_of_notMem (h : v ∉ adj) : row adj v = ∅ := by
  rw [row, AList.lookup_eq_none.mpr h]
  rfl

theorem lookup_of_mem (h : v ∈ adj) : adj.lookup v = some (row adj v) := by
  obtain ⟨r, hr⟩ := Dict.mem_iff_lookup.mp h
  rw [hr, row_of_lookup hr]

theorem row_insert (r : Dict T ℚ) : row (adj.insert v r) x = if x = v then r else row adj x := by
  unfold row
  split
  · rename_i h
    rw [h, AList.lookup_insert]
    rfl
  · rename_i h
    rw [AList.lookup_insert_ne h]

@[simp] theorem mem_put : x ∈ put adj v w c ↔ x = v ∨ x ∈ adj :=
  AList.mem_insert adj

theorem wgt_put : wgt (put adj v w c) x y = if x = v ∧ y = w then some c else wgt adj x y := by
  unfold wgt put
  rw [row_insert]
  by_cases hx : x = v
  · subst hx
    rw [if_pos rfl]
    by_cases hy : y = w
    · subst hy
      rw [if_pos ⟨rfl, rfl⟩, AList.lookup_insert]
    · rw [if_neg fun h => hy h.2, AList.lookup_insert_ne hy]
  · rw [if_neg hx, if_neg fun h => hx h.1]

@[simp] theorem wgt_put_self : wgt (put adj v w c) v w = some c := by
  rw [wgt_put, if_pos ⟨rfl, rfl⟩]

@[simp] theorem mem_touch : x ∈ touch adj v ↔ x = v ∨ x ∈ adj := by
  unfold touch
  split
  · rename_i h
    exact (or_iff_right_of_imp fun hx => hx ▸ h).symm
  · exact AList.mem_insert adj

/-- Asking for an entry adds no edge. -/
@[simp] theorem row_touch : row (touch adj v) x = row adj x := by
  unfold touch
  split
  · rfl
  · rename_i h
    rw [row_insert]
    split
    · rename_i hx
      rw [hx, row_of_notMem h]
    · rfl

@[simp] theorem wgt_touch : wgt (touch adj v) x y = wgt adj x y := by
  unfold wgt
  rw [row_touch]

theorem touch_of_mem (h : v ∈ adj) : touch adj v = adj := if_pos h

@[simp] theorem wgt_empty : wgt (∅ : Adj T) v w = none := rfl

/-- An edge starts at a key. -/
theorem mem_of_wgt (h : wgt adj v w = some c) : v ∈ adj := by
  by_contra hv
  rw [wgt, row_of_notMem hv] at h
  cases h

/-- The neighbours of a vertex. -/
theorem mem_row : w ∈ row adj v ↔ ∃ c, wgt adj v w = some c :=
  Dict.mem_iff_lookup

end Operations

/-! ### The edges -/

section Edges

variable {adj : Adj T} {v w : T} {c : ℚ}

theorem mem_edges : (v, w, c) ∈ edges adj ↔ wgt adj v w = some c := by
  unfold edges
  rw [List.mem_flatMap]
  constructor
  · rintro ⟨⟨v', r⟩, hr, hmem⟩
    obtain ⟨⟨w', c'⟩, hc, heq⟩ := List.mem_map.mp hmem
    cases heq
    rw [wgt, row_of_lookup (Dict.mem_pairs.mp hr)]
    exact Dict.mem_pairs.mp hc
  · intro h
    refine ⟨(v, row adj v), Dict.mem_pairs.mpr (lookup_of_mem (mem_of_wgt h)), ?_⟩
    exact List.mem_map.mpr ⟨(w, c), Dict.mem_pairs.mpr h, rfl⟩

/-- The ends of an edge. -/
def ends (e : T × T × ℚ) : T × T := (e.1, e.2.1)

omit [DecidableEq T] in
/-- No two edges have the same ends. -/
theorem nodup_ends_edges (adj : Adj T) : ((edges adj).map ends).Nodup := by
  unfold edges
  rw [List.map_flatMap, List.nodup_flatMap]
  refine ⟨?_, ?_⟩
  · rintro ⟨v, r⟩ _
    rw [List.map_map]
    refine List.Nodup.of_map Prod.snd ?_
    rw [List.map_map]
    exact Dict.pairs_nodup r
  · have hkeys : (Dict.pairs adj).Pairwise fun x y => x.1 ≠ y.1 :=
      List.pairwise_map.mp (Dict.pairs_nodup adj)
    refine hkeys.imp ?_
    rintro ⟨v, r⟩ ⟨v', r'⟩ hne e he he'
    simp only [List.map_map, List.mem_map, Function.comp_def, ends] at he he'
    obtain ⟨_, -, rfl⟩ := he
    obtain ⟨_, -, heq⟩ := he'
    exact hne (congrArg Prod.fst heq).symm

omit [DecidableEq T] in
theorem nodup_edges (adj : Adj T) : (edges adj).Nodup :=
  List.Nodup.of_map ends (nodup_ends_edges adj)

/-- The pairs of vertices with an edge. -/
def endsSet (adj : Adj T) : Finset (T × T) :=
  ((edges adj).map ends).toFinset

theorem mem_endsSet : (v, w) ∈ endsSet adj ↔ ∃ c, wgt adj v w = some c := by
  rw [endsSet, List.mem_toFinset, List.mem_map]
  constructor
  · rintro ⟨⟨v', w', c⟩, he, heq⟩
    cases heq
    exact ⟨c, mem_edges.mp he⟩
  · rintro ⟨c, hc⟩
    exact ⟨(v, w, c), mem_edges.mpr hc, rfl⟩

/-- How many edges there are with ends that satisfy `p`. -/
theorem countP_edges (adj : Adj T) (p : T × T → Bool) :
    (edges adj).countP (fun e => p (ends e)) = ((endsSet adj).filter fun e => p e).card := by
  rw [endsSet, ← List.toFinset_filter, List.toFinset_card_of_nodup
    ((nodup_ends_edges adj).filter _), ← List.countP_eq_length_filter, List.countP_map]
  rfl

theorem length_edges (adj : Adj T) : (edges adj).length = (endsSet adj).card := by
  rw [endsSet, List.toFinset_card_of_nodup (nodup_ends_edges adj), List.length_map]

theorem endsSet_put : endsSet (put adj v w c) = insert (v, w) (endsSet adj) := by
  ext ⟨x, y⟩
  rw [Finset.mem_insert, mem_endsSet, mem_endsSet, Prod.mk.injEq]
  constructor
  · rintro ⟨c', hc'⟩
    by_cases h : x = v ∧ y = w
    · exact .inl h
    · rw [wgt_put, if_neg h] at hc'
      exact .inr ⟨c', hc'⟩
  · intro h
    rw [wgt_put]
    split
    · exact ⟨c, rfl⟩
    · rename_i hne
      exact h.resolve_left hne

/-- The edges from a vertex. -/
def edgesFrom (adj : Adj T) (v : T) : List (T × T × ℚ) :=
  (Dict.pairs (row adj v)).map fun kv => (v, kv.1, kv.2)

theorem edgesFrom_perm (adj : Adj T) (v : T) :
    (edgesFrom adj v).Perm ((edges adj).filter fun e => e.1 = v) := by
  have hnodup : (edgesFrom adj v).Nodup := by
    refine List.Nodup.of_map (fun e => e.2.1) ?_
    rw [edgesFrom, List.map_map]
    exact Dict.pairs_nodup (row adj v)
  refine (List.perm_ext_iff_of_nodup hnodup ((nodup_edges adj).filter _)).mpr ?_
  rintro ⟨x, w, c⟩
  rw [List.mem_filter, mem_edges, edgesFrom, List.mem_map, decide_eq_true_eq]
  constructor
  · rintro ⟨⟨w', c'⟩, hmem, heq⟩
    cases heq
    exact ⟨Dict.mem_pairs.mp hmem, rfl⟩
  · rintro ⟨hwgt, hx⟩
    cases hx
    exact ⟨(w, c), Dict.mem_pairs.mpr hwgt, rfl⟩

/-- The number of edges from a vertex. -/
theorem size_row (adj : Adj T) (v : T) :
    Dict.size (row adj v) = (edges adj).countP fun e => e.1 = v := by
  have hlength := (edgesFrom_perm adj v).length_eq
  rw [edgesFrom, List.length_map, ← List.countP_eq_length_filter] at hlength
  rw [← hlength, Dict.size, ← Dict.pairs_keys, List.length_map]

end Edges

/-! ### Iteration orders -/

section Order

variable {a b : Adj T}

theorem Same.refl (a : Adj T) : Same a a := ⟨fun _ => Iff.rfl, fun _ _ => rfl⟩

theorem Same.symm (h : Same a b) : Same b a :=
  ⟨fun v => (h.mem v).symm, fun v w => (h.wgt v w).symm⟩

theorem Same.keys_perm (h : Same a b) : a.keys.Perm b.keys :=
  (List.perm_ext_iff_of_nodup a.keys_nodup b.keys_nodup).mpr h.mem

theorem Same.size_eq (h : Same a b) : Dict.size a = Dict.size b :=
  h.keys_perm.length_eq

theorem Same.edges_perm (h : Same a b) : (edges a).Perm (edges b) := by
  refine (List.perm_ext_iff_of_nodup (nodup_edges a) (nodup_edges b)).mpr ?_
  rintro ⟨v, w, c⟩
  rw [mem_edges, mem_edges, h.wgt]

theorem Same.put (h : Same a b) (v w : T) (c : ℚ) : Same (put a v w c) (put b v w c) := by
  refine ⟨fun x => ?_, fun x y => ?_⟩
  · rw [mem_put, mem_put, h.mem]
  · rw [wgt_put, wgt_put, h.wgt]

theorem Same.touch (h : Same a b) (v : T) : Same (touch a v) (touch b v) := by
  refine ⟨fun x => ?_, fun x y => ?_⟩
  · rw [mem_touch, mem_touch, h.mem]
  · rw [wgt_touch, wgt_touch, h.wgt]

end Order

/-! ### Dictionaries of a list of edges -/

section PutAll

variable {adj : Adj T} {tpls : List (T × T × ℚ)} {v w : T} {c : ℚ}

/-- `adj[v][w] = wgt` for one edge after another. -/
def putAll (adj : Adj T) (tpls : List (T × T × ℚ)) : Adj T :=
  tpls.foldl (fun adj tpl => put adj tpl.1 tpl.2.1 tpl.2.2) adj

theorem putAll_concat (adj : Adj T) (tpls : List (T × T × ℚ)) (tpl : T × T × ℚ) :
    putAll adj (tpls ++ [tpl]) = put (putAll adj tpls) tpl.1 tpl.2.1 tpl.2.2 := by
  rw [putAll, List.foldl_concat]
  rfl

theorem mem_putAll : v ∈ putAll ∅ tpls ↔ ∃ tpl ∈ tpls, v = tpl.1 := by
  induction tpls using List.reverseRecOn with
  | nil => simp [putAll]
  | append_singleton tpls tpl ih =>
      rw [putAll_concat, mem_put, exists_mem_concat, ih, or_comm]

theorem endsSet_putAll (tpls : List (T × T × ℚ)) :
    endsSet (putAll ∅ tpls) = (tpls.map ends).toFinset := by
  induction tpls using List.reverseRecOn with
  | nil => rfl
  | append_singleton tpls tpl ih =>
      rw [putAll_concat, endsSet_put, ih, List.map_append, List.toFinset_append, Finset.union_comm]
      rfl

/-- Without two edges that have the same ends, none is overwritten. -/
theorem wgt_putAll_of_nodup (hnodup : (tpls.map ends).Nodup) :
    wgt (putAll ∅ tpls) v w = some c ↔ (v, w, c) ∈ tpls := by
  induction tpls using List.reverseRecOn with
  | nil => simp [putAll]
  | append_singleton tpls tpl ih =>
      rw [List.map_append, List.nodup_append] at hnodup
      obtain ⟨hinit, -, hnew⟩ := hnodup
      rw [putAll_concat, wgt_put, List.mem_append, List.mem_singleton, ← ih hinit]
      split
      · rename_i hends
        have hnone : wgt (putAll ∅ tpls) v w ≠ some c := by
          intro hc
          have hmem := List.mem_map_of_mem (f := ends) ((ih hinit).mp hc)
          exact hnew _ hmem (ends tpl) List.mem_cons_self (Prod.ext hends.1 hends.2)
        rw [or_iff_right hnone, Option.some_inj, Prod.ext_iff, Prod.ext_iff]
        exact ⟨fun hc => ⟨hends.1, hends.2, hc.symm⟩, fun h => h.2.2.symm⟩
      · rename_i hends
        refine (or_iff_left fun heq => hends ?_).symm
        rw [← heq]
        exact ⟨rfl, rfl⟩

/-- The edges of a dictionary without empty entries, put into another one. -/
theorem same_putAll_edges (h : ∀ v ∈ adj, ∃ w c, wgt adj v w = some c) :
    Same (putAll ∅ (edges adj)) adj := by
  refine ⟨fun v => ?_, fun v w => ?_⟩
  · rw [mem_putAll]
    constructor
    · rintro ⟨⟨v', w, c⟩, he, rfl⟩
      exact mem_of_wgt (mem_edges.mp he)
    · intro hv
      obtain ⟨w, c, hc⟩ := h v hv
      exact ⟨(v, w, c), mem_edges.mpr hc, rfl⟩
  · refine Option.ext fun c => ?_
    rw [wgt_putAll_of_nodup (nodup_ends_edges adj), mem_edges]

end PutAll

/-! ### Other names for the vertices -/

/-- The dictionary `b` is `a` with `f` for the names. -/
structure Renames {T' : Type} [DecidableEq T'] (f : T → T') (a : Adj T) (b : Adj T') : Prop where
  mem : ∀ x, x ∈ b ↔ ∃ v ∈ a, x = f v
  wgt : ∀ x y c, wgt b x y = some c ↔ ∃ v w, x = f v ∧ y = f w ∧ Graph.wgt a v w = some c

section Renames

variable {T' : Type} [DecidableEq T'] {f : T → T'} {a : Adj T} {b b' : Adj T'}

theorem Renames.put (hf : Function.Injective f) (h : Renames f a b) (v w : T) (c : ℚ) :
    Renames f (put a v w c) (put b (f v) (f w) c) := by
  refine ⟨fun x => ?_, fun x y d => ?_⟩
  · rw [mem_put, h.mem]
    simp only [mem_put, or_and_right, exists_or, exists_eq_left]
  · rw [wgt_put]
    split
    · rename_i hends
      rw [hends.1, hends.2]
      constructor
      · intro hd
        refine ⟨v, w, rfl, rfl, ?_⟩
        rw [wgt_put, if_pos ⟨rfl, rfl⟩, hd]
      · rintro ⟨v', w', hv, hw, hd⟩
        rwa [wgt_put, if_pos ⟨(hf hv).symm, (hf hw).symm⟩] at hd
    · rename_i hends
      rw [h.wgt]
      refine exists_congr fun v' => exists_congr fun w' => and_congr_right fun hx =>
        and_congr_right fun hy => ?_
      rw [wgt_put, if_neg]
      rintro ⟨rfl, rfl⟩
      exact hends ⟨hx, hy⟩

theorem renames_putAll (hf : Function.Injective f) (tpls : List (T × T × ℚ)) :
    Renames f (putAll ∅ tpls) (putAll ∅ (tpls.map fun tpl => (f tpl.1, f tpl.2.1, tpl.2.2))) := by
  induction tpls using List.reverseRecOn with
  | nil => exact ⟨fun x => by simp [putAll], fun x y c => by simp [putAll]⟩
  | append_singleton tpls tpl ih =>
      rw [List.map_append, List.map_singleton, putAll_concat, putAll_concat]
      exact ih.put hf tpl.1 tpl.2.1 tpl.2.2

theorem Renames.of_same (h : Renames f a b) (hsame : Same b' b) : Renames f a b' :=
  ⟨fun x => (hsame.mem x).trans (h.mem x), fun x y c => by rw [hsame.wgt, h.wgt]⟩

theorem Renames.size_eq (hf : Function.Injective f) (h : Renames f a b) :
    Dict.size b = Dict.size a := by
  have hperm : b.keys.Perm (a.keys.map f) := by
    refine (List.perm_ext_iff_of_nodup b.keys_nodup (a.keys_nodup.map hf)).mpr fun x => ?_
    rw [List.mem_map]
    refine (h.mem x).trans (exists_congr fun v => and_congr_right fun _ => eq_comm)
  rw [Dict.size, hperm.length_eq, List.length_map, Dict.size]

/-- As many edges. -/
theorem Renames.length_edges_eq (hf : Function.Injective f) (h : Renames f a b) :
    (edges b).length = (edges a).length := by
  have hset : endsSet b = (endsSet a).map ⟨Prod.map f f, hf.prodMap hf⟩ := by
    ext ⟨x, y⟩
    simp only [Finset.mem_map, mem_endsSet, h.wgt, Prod.exists, Function.Embedding.coeFn_mk,
      Prod.map_apply, Prod.mk.injEq]
    constructor
    · rintro ⟨c, v, w, rfl, rfl, hc⟩
      exact ⟨v, w, ⟨c, hc⟩, rfl, rfl⟩
    · rintro ⟨v, w, ⟨c, hc⟩, rfl, rfl⟩
      exact ⟨c, v, w, rfl, rfl, hc⟩
  rw [length_edges, length_edges, hset, Finset.card_map]

end Renames

/-! ### Graphs with `adjacent` -/

/-- What a search relies on: from the graphs in `ok`, `adjacent` gives the neighbours of every
    vertex, and the graph after it is one of them. -/
structure Adjacency {G : Type} (adjacent : G → T → Dict T ℚ × G) (ok : G → Prop)
    (r : T → T → Prop) : Prop where
  keeps : ∀ grp, ok grp → ∀ v, ok (adjacent grp v).2
  mem : ∀ grp, ok grp → ∀ v w, w ∈ (adjacent grp v).1.keys ↔ r v w

/-- The vertices that a search has not marked yet. -/
def unmarked (verts : Finset T) (marked : Dict T Bool) : Finset T :=
  verts.filter fun v => v ∉ marked

/-- A vertex that is marked is no longer to be marked. -/
theorem card_unmarked_insert {verts : Finset T} {marked : Dict T Bool} {w : T} (hw : w ∉ marked)
    (hvert : w ∈ verts) :
    (unmarked verts (marked.insert w true)).card + 1 = (unmarked verts marked).card := by
  have herase : unmarked verts (marked.insert w true) = (unmarked verts marked).erase w := by
    ext v
    simp only [unmarked, Finset.mem_erase, Finset.mem_filter, AList.mem_insert, not_or]
    tauto
  have hmem : w ∈ unmarked verts marked := Finset.mem_filter.mpr ⟨hvert, hw⟩
  rw [herase, Finset.card_erase_add_one hmem]

end Graph

end Paracel
