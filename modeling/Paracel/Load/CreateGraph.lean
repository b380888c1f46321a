import Paracel.Graph.Bigraph
import Paracel.Load.ExchangeCompact
import Paracel.Load.Parser

/-!
# Bipartite graphs from lines

`loader::create_graph` for `bigraph<default_id_type>` and `bigraph<str_type>`
(`include/load/loader.hpp`). The overload for strings collects the entries in a
dictionary first, where a later weight of an edge replaces an earlier one. The one
for numbers calls `add_edge` for every entry, and this counts an edge again that is
there already. On a comm of one process `alltoall` only copies the one slot.
-/

namespace Paracel.CreateGraph

open Paracel.Graph Comm

section Program

variable (ws : Weights ℚ) (mix : Bool) (parserfunc : Str → Except Fault (List Str)) (pattern : Str)

/-- What `alltoall` leaves in `recv_lsl` on a comm of one process, whose loop makes no turn. -/
def alltoallOne {α : Type} (lineSlotLst : List (List α)) : List (List α) :=
  (alltoallStart 0 lineSlotLst []).rbuf

/-- `create_graph` for numeric ids. -/
def createGraphIds (hf : UInt64 → Nat) (linelst : List Str) (grp : Bigraph UInt64) :
    Except Fault (Bigraph UInt64) := do
  let result ← Organize.linesOrganizeIds ws mix parserfunc hf (dimInit pattern 1) 1 linelst
  let stf := CompactTriples.exchange (alltoallOne result) []
  return stf.foldl (fun grp tpl => grp.addEdge tpl.1 tpl.2.1 tpl.2.2) grp

/-- `create_graph` for string ids; `order` is the order in which `dct` is iterated. -/
def createGraph (hf : Str → Nat) (order : Adj Str → Adj Str) (linelst : List Str)
    (grp : Bigraph Str) : Except Fault (Bigraph Str) := do
  let result ← Organize.linesOrganize ws mix parserfunc hf (dimInit pattern 1) 1 linelst
  let stf := exchange (alltoallOne result)
  let dct := putAll ∅ stf
  return grp.constructFromDict (order dct)

end Program

/-- A numeric id as it stands in a line. -/
def text (id : UInt64) : Str := toStr id.toNat

/-- An entry as it stands in a line. -/
def textEntry (tpl : CompactTriple ℚ) : Triple ℚ := (text tpl.1, text tpl.2.1, tpl.2.2)

/-- The same graph, with numeric ids and with strings, and the right number of edges. -/
structure Corresponds (a : Bigraph UInt64) (b : Bigraph Str) : Prop where
  left : ∀ x, x ∈ b.leftVertexBag ↔ ∃ u ∈ a.leftVertexBag, x = text u
  wgt : ∀ x y c, wgt b.getData x y = some c ↔
    ∃ u v, x = text u ∧ y = text v ∧ Graph.wgt a.getData u v = some c
  v : a.v = b.v
  e : a.e = b.e
  idsVisited : a.e = a.traverse (fun _ _ _ cnt => cnt + 1) 0
  visited : b.e = b.traverse (fun _ _ _ cnt => cnt + 1) 0

/-! ### The comm of one process -/

section OneProcess

/-- There is one slot, which all entries are put into, in order. -/
theorem slotsOf_one {I : Type} (hf : I → Nat) (pattern : Str) (tpls : List (I × I × ℚ)) :
    Organize.slotsOf hf (dimInit pattern 1) 1 tpls = [tpls] := by
  have hgrid : (dimInit pattern 1).1 = 1 ∧ (dimInit pattern 1).2 = 1 :=
    ⟨Nat.eq_one_of_mul_eq_one_right (dimInit_mul pattern 1),
      Nat.eq_one_of_mul_eq_one_left (dimInit_mul pattern 1)⟩
  have hslot : ∀ tpl ∈ tpls, Organize.h hf tpl.1 tpl.2.1 (dimInit pattern 1).1
      (dimInit pattern 1).2 = 0 := by
    intro tpl _
    rw [hgrid.1, hgrid.2, Organize.h, Nat.mod_one, Nat.mod_one]
  have hlength : (Organize.slotsOf hf (dimInit pattern 1) 1 tpls).length = 1 :=
    Slots.length_foldl_put _ tpls [[]]
  obtain ⟨slot, hslots⟩ := List.length_eq_one_iff.mp hlength
  have hget : (Organize.slotsOf hf (dimInit pattern 1) 1 tpls).getD 0 [] =
      tpls.filter fun tpl =>
        Organize.h hf tpl.1 tpl.2.1 (dimInit pattern 1).1 (dimInit pattern 1).2 = 0 :=
    Slots.getD_foldl_put_replicate _ tpls Nat.one_pos
  rw [List.filter_eq_self.mpr fun tpl htpl => decide_eq_true (hslot tpl htpl), hslots] at hget
  rw [hslots]
  exact congrArg (fun slot => [slot]) hget

end OneProcess

/-! ### Lines with numeric ids -/

section Lines

open Organize

variable {ws : Weights ℚ} {mix : Bool}

theorem text_injective : Function.Injective text := fun _ _ h =>
  UInt64.toNat_inj.mp (toStr_injective h)

theorem stoull_text (id : UInt64) : stoull (text id) = some id :=
  CompactTriples.stoull_toStr id

/-- What an entry with the text of numeric ids is made of. -/
theorem of_eq_textEntry {row col : Str} {val : ℚ} {tpl : CompactTriple ℚ}
    (h : (row, col, val) = textEntry tpl) :
    stoull row = some tpl.1 ∧ stoull col = some tpl.2.1 ∧ val = tpl.2.2 := by
  cases h
  exact ⟨stoull_text _, stoull_text _, rfl⟩

theorem organizeItem_of_text {row item : Str} {tpl : CompactTriple ℚ}
    (h : organizeItem some ws row item = .ok (textEntry tpl)) :
    organizeItem stoull ws row item = .ok tpl := by
  rcases hpieces : strSplit item delimiter with _ | ⟨col, _ | ⟨w, rest⟩⟩
  · rw [organizeItem_nil hpieces] at h
    cases h
  · have hone : (strSplit item delimiter).length = 1 := by
      rw [hpieces]
      rfl
    rw [organizeItem_one hone rfl rfl] at h
    obtain ⟨hrow, hcol, hval⟩ := of_eq_textEntry (Except.ok.inj h)
    rw [organizeItem_one hone hrow hcol, hval]
  · rw [organizeItem_cons hpieces rfl rfl] at h
    cases hw : ws.stod w with
    | none =>
        rw [hw] at h
        cases h
    | some val =>
        rw [hw] at h
        obtain ⟨hrow, hcol, hval⟩ := of_eq_textEntry (Except.ok.inj h)
        rw [organizeItem_cons hpieces hrow hcol, hw, hval]
        rfl

theorem mapM_organizeItem_of_text {row : Str} {items : List Str} {tpls : List (CompactTriple ℚ)}
    (h : items.mapM (organizeItem some ws row) = .ok (tpls.map textEntry)) :
    items.mapM (organizeItem stoull ws row) = .ok tpls := by
  induction items generalizing tpls with
  | nil =>
      have hnil := List.map_eq_nil_iff.mp (Except.ok.inj h).symm
      rw [hnil]
      rfl
  | cons item items ih =>
      obtain ⟨tpl, rest, hitem, hitems, heq⟩ := FirstError.mapM_cons_eq_ok_iff.mp h
      obtain ⟨tpl, tpls, rfl, rfl, rfl⟩ := List.map_eq_cons_iff.mp heq
      exact FirstError.mapM_cons_eq_ok_iff.mpr
        ⟨tpl, tpls, organizeItem_of_text hitem, ih hitems, rfl⟩

/-- A line with numeric ids has the same entries in both overloads. -/
theorem organizeLine_of_text {stf : List Str} {tpls : List (CompactTriple ℚ)}
    (h : organizeLine some ws mix stf = .ok (tpls.map textEntry)) :
    organizeLine stoull ws mix stf = .ok tpls := by
  rcases stf with _ | ⟨row, items⟩
  · cases mix with
    | false => cases h
    | true =>
        have hnil := List.map_eq_nil_iff.mp (Except.ok.inj h).symm
        rw [hnil]
        rfl
  · by_cases hmix : mix = true ∨ items.length = 1
    · rw [organizeLine_items hmix] at h ⊢
      exact mapM_organizeItem_of_text h
    · have hoff : mix = false := Bool.eq_false_iff.mpr fun hon => hmix (.inl hon)
      subst hoff
      rcases items with _ | ⟨col, _ | ⟨w, _ | ⟨field, rest⟩⟩⟩
      · cases h
      · exact absurd (.inr rfl) hmix
      · -- the weight is a field of its own
        change ((orThrow (ws.stod w)).bind fun val => .ok [(row, col, val)]) = _ at h
        show ((orThrow (stoull row)).bind fun i => (orThrow (stoull col)).bind fun j =>
          (orThrow (ws.stod w)).bind fun val => .ok [(i, j, val)]) = _
        cases hw : ws.stod w with
        | none =>
            rw [hw] at h
            cases h
        | some val =>
            rw [hw] at h
            obtain ⟨tpl, rfl, htpl⟩ := List.map_eq_singleton_iff.mp (Except.ok.inj h).symm
            obtain ⟨hrow, hcol, hval⟩ := of_eq_textEntry htpl.symm
            rw [hrow, hcol, hval]
            rfl
      · cases h

variable {parserfunc : Str → Except Fault (List Str)} {pattern : Str} {linelst : List Str}
  {entries : Str → List (CompactTriple ℚ)}

/-- Every line has these entries, with numeric ids. -/
def Parses (ws : Weights ℚ) (mix : Bool) (parserfunc : Str → Except Fault (List Str))
    (linelst : List Str) (entries : Str → List (CompactTriple ℚ)) : Prop :=
  ∀ line ∈ linelst, ∃ stf, parserfunc line = .ok stf ∧
    organizeLine some ws mix stf = .ok ((entries line).map textEntry)

theorem createGraphIds_eq (h : Parses ws mix parserfunc linelst entries) (hf : UInt64 → Nat) :
    createGraphIds ws mix parserfunc pattern hf linelst {} =
      .ok (Bigraph.constructFromTriples {} (linelst.flatMap entries)) := by
  have hlines : (linelst.mapM fun line => do
      let stf ← parserfunc line
      organizeLine stoull ws mix stf) = .ok (linelst.map entries) := by
    refine FirstError.mapM_eq_ok fun line hline => ?_
    obtain ⟨stf, hstf, hline⟩ := h line hline
    rw [hstf]
    exact organizeLine_of_text hline
  rw [createGraphIds, linesOrganizeIds, organize, hlines]
  show Except.ok ((CompactTriples.exchange (alltoallOne (Organize.slotsOf hf (dimInit pattern 1) 1
    (linelst.map entries).flatten)) []).foldl _ _) = _
  rw [slotsOf_one, ← List.flatMap_def]
  show Except.ok (([] ++ [linelst.flatMap entries].flatten).foldl _ _) = _
  rw [List.flatten_singleton]
  rfl

theorem createGraph_eq (h : Parses ws mix parserfunc linelst entries) (hf : Str → Nat)
    (order : Adj Str → Adj Str) :
    createGraph ws mix parserfunc pattern hf order linelst {} =
      .ok (Bigraph.constructFromDict {}
        (order (putAll ∅ ((linelst.flatMap entries).map textEntry)))) := by
  have hlines : (linelst.mapM fun line => do
      let stf ← parserfunc line
      organizeLine some ws mix stf) =
        .ok (linelst.map fun line => (entries line).map textEntry) := by
    refine FirstError.mapM_eq_ok fun line hline => ?_
    obtain ⟨stf, hstf, hline⟩ := h line hline
    rw [hstf]
    exact hline
  rw [createGraph, Organize.linesOrganize, organize, hlines]
  show Except.ok (Bigraph.constructFromDict {} (order (putAll ∅ (exchange (alltoallOne
    (Organize.slotsOf hf (dimInit pattern 1) 1
      (linelst.map fun line => (entries line).map textEntry).flatten)))))) = _
  rw [slotsOf_one, ← List.flatMap_def, List.map_flatMap]
  show Except.ok (Bigraph.constructFromDict {} (order (putAll ∅ (List.flatten [_])))) = _
  rw [List.flatten_singleton]
  rfl

end Lines

/-! ### The two graphs -/

section Graphs

variable {tpls : List (CompactTriple ℚ)} {dct : Adj Str}

/-- The strings name the same graph, whatever is added twice. -/
theorem renames_constructFromDict (hdct : Same dct (putAll ∅ (tpls.map textEntry))) :
    Renames text (putAll ∅ tpls) (Bigraph.constructFromDict {} dct).adj := by
  have hentry : ∀ x ∈ dct, ∃ y c, Graph.wgt dct x y = some c := by
    intro x hx
    obtain ⟨tpl, htpl, rfl⟩ := mem_putAll.mp ((hdct.mem x).mp hx)
    have hends : (tpl.1, tpl.2.1) ∈ endsSet (putAll ∅ (tpls.map textEntry)) := by
      rw [endsSet_putAll, List.mem_toFinset]
      exact List.mem_map_of_mem htpl
    obtain ⟨c, hc⟩ := mem_endsSet.mp hends
    exact ⟨tpl.2.1, c, (hdct.wgt _ _).trans hc⟩
  rw [Bigraph.constructFromDict_eq, Bigraph.adj_constructFromTriples]
  have hsame := same_putAll_edges hentry
  exact (renames_putAll text_injective tpls).of_same
    ⟨fun x => (hsame.mem x).trans (hdct.mem x), fun x y => (hsame.wgt x y).trans (hdct.wgt x y)⟩

/-- As many edges as entries, just when no edge is there twice. -/
theorem length_edges_putAll_iff :
    tpls.length = (edges (putAll ∅ tpls)).length ↔ (tpls.map ends).Nodup := by
  rw [length_edges, endsSet_putAll, ← List.length_map (f := ends), eq_comm]
  exact Multiset.toFinset_card_eq_card_iff_nodup

theorem corresponds_iff (hdct : Same dct (putAll ∅ (tpls.map textEntry))) :
    Corresponds (Bigraph.constructFromTriples {} tpls) (Bigraph.constructFromDict {} dct) ↔
      (tpls.map ends).Nodup := by
  have hadj := Bigraph.adj_constructFromTriples tpls
  have hrenames := renames_constructFromDict hdct
  have hvisitedIds : (Bigraph.constructFromTriples {} tpls).traverse
      (fun _ _ _ cnt => cnt + 1) 0 = (edges (putAll ∅ tpls)).length := by
    rw [Bigraph.traverse_count, hadj]
  have hvisited : (Bigraph.constructFromDict {} dct).traverse (fun _ _ _ cnt => cnt + 1) 0 =
      (edges (putAll ∅ tpls)).length := by
    rw [Bigraph.traverse_count, hrenames.length_edges_eq text_injective]
  have he : (Bigraph.constructFromDict {} dct).e = (edges (putAll ∅ tpls)).length := by
    rw [Bigraph.constructFromDict_eq, Bigraph.e_constructFromTriples]
    exact hdct.edges_perm.length_eq.trans
      ((renames_putAll text_injective tpls).length_edges_eq text_injective)
  rw [← length_edges_putAll_iff, ← Bigraph.e_constructFromTriples, ← hvisitedIds]
  constructor
  · exact Corresponds.idsVisited
  · intro hcount
    refine ⟨?_, ?_, ?_, ?_, hcount, he.trans hvisited.symm⟩
    · intro x
      rw [Bigraph.leftVertexBag, Bigraph.leftVertexBag, hadj]
      exact hrenames.mem x
    · intro x y c
      rw [Bigraph.getData, Bigraph.getData, hadj]
      exact hrenames.wgt x y c
    · rw [Bigraph.v_constructFromTriples, Bigraph.constructFromDict_eq,
        Bigraph.v_constructFromTriples, ← Bigraph.adj_constructFromTriples (edges dct),
        ← Bigraph.constructFromDict_eq, hrenames.size_eq text_injective]
    · rw [hcount, hvisitedIds, he]

end Graphs

/-- On a comm of one process, the two overloads make the same graph of lines with numeric ids
    exactly when no edge occurs twice. -/
theorem createGraph_corresponds_iff {ws : Weights ℚ} {mix : Bool}
    {parserfunc : Str → Except Fault (List Str)} {linelst : List Str}
    {entries : Str → List (CompactTriple ℚ)} (hlines : Parses ws mix parserfunc linelst entries)
    {order : Adj Str → Adj Str} (horder : ∀ dct, Same (order dct) dct) (pattern : Str)
    (hfIds : UInt64 → Nat) (hf : Str → Nat) :
    ∃ a b, createGraphIds ws mix parserfunc pattern hfIds linelst {} = .ok a ∧
      createGraph ws mix parserfunc pattern hf order linelst {} = .ok b ∧
      (Corresponds a b ↔ ((linelst.flatMap entries).map ends).Nodup) :=
  ⟨_, _, createGraphIds_eq hlines hfIds, createGraph_eq hlines hf order,
    corresponds_iff (horder _)⟩

/-- `std::stod` and the literal `1.`. -/
def doubles : Weights ℚ where
  stod := stod
  one := 1

theorem organizeLine_doubles {row col w : Str} {c : ℚ} (hw : stod w = some c) :
    Organize.organizeLine some doubles false [row, col, w] = .ok [(row, col, c)] := by
  show ((orThrow (stod w)).bind fun val => .ok [(row, col, val)]) = _
  rw [hw]
  rfl

/-- Two edges from one vertex. -/
theorem createGraph_corresponds_iff_two :
    ∃ a b, createGraphIds doubles false (Organize.parserA 44) (lit "fsmap") UInt64.toNat
        [lit "1,2,5", lit "1,3,4"] {} = .ok a ∧
      createGraph doubles false (Organize.parserA 44) (lit "fsmap") List.length (fun dct => dct)
        [lit "1,2,5", lit "1,3,4"] {} = .ok b ∧
      (Corresponds a b ↔ (([lit "1,2,5", lit "1,3,4"].flatMap fun line =>
        if line = lit "1,2,5" then [((1 : UInt64), (2 : UInt64), (5 : ℚ))]
        else [(1, 3, 4)]).map ends).Nodup) :=
  createGraph_corresponds_iff (by
    refine List.forall_mem_cons.mpr ⟨?_, List.forall_mem_cons.mpr ⟨?_, List.forall_mem_nil _⟩⟩
    · exact ⟨[lit "1", lit "2", lit "5"], by decide +kernel,
        organizeLine_doubles (by decide +kernel)⟩
    · exact ⟨[lit "1", lit "3", lit "4"], by decide +kernel,
        organizeLine_doubles (by decide +kernel)⟩)
    (fun _ => Same.refl _) _ _ _

/-- An edge on two lines is counted twice. -/
theorem not_corresponds_twice :
    ¬∀ (linelst : List Str) (entries : Str → List (CompactTriple ℚ)),
      Parses doubles false (Organize.parserA 44) linelst entries →
      ∃ a b, createGraphIds doubles false (Organize.parserA 44) (lit "fsmap") UInt64.toNat
          linelst {} = .ok a ∧
        createGraph doubles false (Organize.parserA 44) (lit "fsmap") List.length (fun dct => dct)
          linelst {} = .ok b ∧
        Corresponds a b := by
  intro hall
  have hparses : Parses doubles false (Organize.parserA 44) [lit "1,2,5", lit "1,2,5"]
      fun _ => [(1, 2, 5)] := by
    intro line hline
    have hline : line = lit "1,2,5" := by simpa using hline
    subst hline
    exact ⟨[lit "1", lit "2", lit "5"], by decide +kernel,
      organizeLine_doubles (by decide +kernel)⟩
  obtain ⟨a, b, ha, hb, hcorresponds⟩ := hall _ _ hparses
  rw [createGraphIds_eq hparses] at ha
  rw [createGraph_eq hparses] at hb
  cases ha
  cases hb
  have hnodup := (corresponds_iff (Same.refl _)).mp hcorresponds
  exact absurd hnodup (by decide)

end Paracel.CreateGraph
