import Mathlib.Data.Finset.Sort
import Mathlib.Data.List.GetD
import Paracel.Load.Organize
import Paracel.Misc.Numbering

/-!
# Numbering the rows and columns

`scheduler::index_mapping` for string ids (`include/load/scheduler.hpp`). The
ranks of one grid row collect the row ids of all of them in a set and number the
set in its order, and so do the ranks of one grid column with the column ids. A
`std::set` is a `Finset`, which is traversed in increasing order.
-/

namespace Paracel

/-- `Comm::split`: the ranks of the same color, in their order. -/
def split {n : Nat} (color : Fin n → Nat) (r : Fin n) : List (Fin n) :=
  (List.finRange n).filter fun q => color q = color r

/-- `Comm::bcastring` on the rank `mRk` of ranks with these data: what `func` is called with,
    its own data and then that of the ranks to its right. -/
def bcastring {α : Type} (datas : List (List α)) (mRk : Nat) : List (List α) :=
  (List.range datas.length).map fun i => datas.getD ((mRk + i) % datas.length) []

/-- Every rank gets the data of every rank. -/
theorem mem_bcastring {α : Type} {datas : List (List α)} {mRk : Nat} (hrk : mRk < datas.length)
    {data : List α} : data ∈ bcastring datas mRk ↔ data ∈ datas := by
  constructor
  · intro h
    rcases List.mem_map.mp h with ⟨i, -, rfl⟩
    have hlt : (mRk + i) % datas.length < datas.length := Nat.mod_lt _ (by omega)
    rw [List.getD_eq_getElem _ _ hlt]
    exact List.getElem_mem hlt
  · intro h
    rcases List.getElem_of_mem h with ⟨j, hj, rfl⟩
    apply List.mem_map.mpr
    by_cases hle : mRk ≤ j
    · refine ⟨j - mRk, List.mem_range.mpr (by omega), ?_⟩
      rw [Nat.add_sub_cancel' hle, Nat.mod_eq_of_lt hj, List.getD_eq_getElem _ _ hj]
    · refine ⟨j + datas.length - mRk, List.mem_range.mpr (by omega), ?_⟩
      rw [show mRk + (j + datas.length - mRk) = j + datas.length by omega, Nat.add_mod_right,
        Nat.mod_eq_of_lt hj, List.getD_eq_getElem _ _ hj]

/-- The set of what the union functions inserted. -/
def insertAll (lists : List (List Str)) : Finset Str :=
  lists.foldl (fun set tmp => tmp.foldl (fun set item => insert item set) set) ∅

theorem mem_insertAll {lists : List (List Str)} {s : Str} :
    s ∈ insertAll lists ↔ ∃ tmp ∈ lists, s ∈ tmp :=
  Numbering.mem_insertAll

/-- The loop that numbers the items: `rm[indx] = item`, `rev_rm[item] = indx`. -/
def numberItems (items : List Str) (rm : Dict Nat Str) : Dict Nat Str × Dict Str Nat :=
  (items.zipIdx).foldl (fun maps item =>
    (maps.1.insert item.2 item.1, maps.2.insert item.1 item.2)) (rm, ∅)

/-- What `index_mapping` leaves in `stf`, `rm` and `cm` when they are passed empty. -/
structure Mapped (W : Type) where
  stf : List (Nat × Nat × W)
  rm : Dict Nat Str
  cm : Dict Nat Str

variable {W : Type} {n : Nat}

/-- The ids that the ranks of the same color have, collected on rank `r`. -/
def collect (color : Fin n → Nat) (ids : Fin n → List Str) (r : Fin n) : Finset Str :=
  let comm := split color r
  insertAll (bcastring (comm.map ids) (comm.idxOf r))

/-- `scheduler::index_mapping` on rank `rk`; `slotslst` are the entries of all ranks. -/
def indexMapping (npy : Nat) (slotslst : Fin n → List (Triple W)) (rk : Fin n) : Mapped W :=
  let rowcolor (q : Fin n) := q.val / npy
  let colcolor (q : Fin n) := q.val % npy
  let newRows := collect rowcolor (fun q => (slotslst q).map fun tpl => tpl.1) rk
  let newCols := collect colcolor (fun q => (slotslst q).map fun tpl => tpl.2.1) rk
  let rows := numberItems (newRows.sort (· ≤ ·)) ∅
  let cols := numberItems (newCols.sort (· ≤ ·)) ∅
  { stf := (slotslst rk).map fun tpl =>
      ((rows.2.lookup tpl.1).getD 0, (cols.2.lookup tpl.2.1).getD 0, tpl.2.2)
    rm := rows.1
    cm := cols.1 }

/-! ### Numbering -/

/-- A bijection from the numbers below the size of the dictionary. -/
structure IsNumbering (rm : Dict Nat Str) : Prop where
  dom : ∀ i, (rm.lookup i).isSome = true ↔ i < rm.keys.length
  inj : ∀ i j s, rm.lookup i = some s → rm.lookup j = some s → i = j

theorem isNumbering_numberItems {items : List Str} (hnodup : items.Nodup) :
    IsNumbering (numberItems items ∅).1 where
  dom := Numbering.isSome_lookup_number hnodup
  inj := fun _ _ _ => Numbering.number_inj hnodup

section Sorted

variable {ids : Finset Str} {s : Str}

/-- The numbered items are those of the set. -/
theorem mem_of_lookup {i : Nat}
    (h : (numberItems (ids.sort (· ≤ ·)) ∅).1.lookup i = some s) : s ∈ ids :=
  (Finset.mem_sort _).mp (Numbering.mem_of_lookup_number (Finset.sort_nodup ids _) h)

/-- The number of an item leads back to it. -/
theorem lookup_rev (h : s ∈ ids) :
    (numberItems (ids.sort (· ≤ ·)) ∅).1.lookup
      (((numberItems (ids.sort (· ≤ ·)) ∅).2.lookup s).getD 0) = some s :=
  Numbering.lookup_number_rev (Finset.sort_nodup ids _) ((Finset.mem_sort _).mpr h)

end Sorted

/-! ### The grid -/

theorem mem_split {color : Fin n → Nat} {r q : Fin n} : q ∈ split color r ↔ color q = color r := by
  simp [split]

/-- What reaches a rank is what the ranks of its color have. -/
theorem mem_bcastring_split {α : Type} {color : Fin n → Nat} {ids : Fin n → List α} {r : Fin n}
    {s : α} :
    (∃ tmp ∈ bcastring ((split color r).map ids) ((split color r).idxOf r), s ∈ tmp) ↔
      ∃ q, color q = color r ∧ s ∈ ids q := by
  have hr : r ∈ split color r := mem_split.mpr rfl
  have hidx : (split color r).idxOf r < ((split color r).map ids).length := by
    rw [List.length_map]
    exact List.idxOf_lt_length_iff.mpr hr
  constructor
  · rintro ⟨tmp, htmp, hs⟩
    rcases List.mem_map.mp ((mem_bcastring hidx).mp htmp) with ⟨q, hq, rfl⟩
    exact ⟨q, mem_split.mp hq, hs⟩
  · rintro ⟨q, hq, hs⟩
    exact ⟨ids q, (mem_bcastring hidx).mpr (List.mem_map_of_mem (mem_split.mpr hq)), hs⟩

theorem mem_collect {color : Fin n → Nat} {ids : Fin n → List Str} {r : Fin n} {s : Str} :
    s ∈ collect color ids r ↔ ∃ q, color q = color r ∧ s ∈ ids q := by
  rw [collect, mem_insertAll]
  exact mem_bcastring_split

/-- Ranks of the same color collect the same ids. -/
theorem collect_congr {color : Fin n → Nat} {ids : Fin n → List Str} {r r' : Fin n}
    (h : color r = color r') : collect color ids r = collect color ids r' := by
  ext s
  rw [mem_collect, mem_collect, h]

/-- The entry with its original ids. -/
def Mapped.Original (m : Mapped W) (tpl : Nat × Nat × W) (orig : Triple W) : Prop :=
  m.rm.lookup tpl.1 = some orig.1 ∧ m.cm.lookup tpl.2.1 = some orig.2.1 ∧ tpl.2.2 = orig.2.2

/-- The matrix with the entries `tpls` is distributed over the ranks as `stf`, and each rank
    has numbered the rows and columns of its block. -/
structure Assembled (hf : Str → Nat) (grid : Nat × Nat) (tpls stf : Fin n → List (Triple W))
    (m : Fin n → Mapped W) : Prop where
  once : ((List.finRange n).flatMap stf).Perm ((List.finRange n).flatMap tpls)
  placed : ∀ r, ∀ tpl ∈ stf r, tpl.slot hf grid = (r : Nat)
  numbered : ∀ r, IsNumbering (m r).rm ∧ IsNumbering (m r).cm
  original : ∀ r, List.Forall₂ (m r).Original (m r).stf (stf r)
  sameRow : ∀ r r' : Fin n, (r : Nat) / grid.2 = r' / grid.2 → (m r).rm = (m r').rm
  sameCol : ∀ r r' : Fin n, (r : Nat) % grid.2 = r' % grid.2 → (m r).cm = (m r').cm
  otherRow : ∀ r r' : Fin n, (r : Nat) / grid.2 ≠ r' / grid.2 →
    ∀ i j s, (m r).rm.lookup i = some s → (m r').rm.lookup j ≠ some s
  otherCol : ∀ r r' : Fin n, (r : Nat) % grid.2 ≠ r' % grid.2 →
    ∀ i j s, (m r).cm.lookup i = some s → (m r').cm.lookup j ≠ some s

/-! ### The assembled matrix -/

section Assembled

variable {hf : Str → Nat} {grid : Nat × Nat} {tpls stf : Fin n → List (Triple W)}

/-- Every entry has a rank. -/
theorem slot_lt_of_mem (hgrid : grid.1 * grid.2 = n) {tpl : Triple W}
    (htpl : tpl ∈ (List.finRange n).flatMap tpls) : tpl.slot hf grid < n := by
  rcases List.mem_flatMap.mp htpl with ⟨r, -, -⟩
  have hpos : 0 < grid.1 * grid.2 := hgrid.symm ▸ r.pos
  exact hgrid ▸ lineSlot_lt (Nat.pos_of_mul_pos_right hpos) (Nat.pos_of_mul_pos_left hpos)

theorem npy_pos (hgrid : grid.1 * grid.2 = n) (r : Fin n) : 0 < grid.2 := by
  have hpos : 0 < grid.1 * grid.2 := hgrid.symm ▸ r.pos
  exact Nat.pos_of_mul_pos_left hpos

/-- The row ids that are numbered on a rank have its grid row. -/
theorem row_of_lookup (hgrid : grid.1 * grid.2 = n)
    (hplaced : ∀ r, ∀ tpl ∈ stf r, tpl.slot hf grid = (r : Nat)) {r : Fin n} {i : Nat} {s : Str}
    (h : (indexMapping grid.2 stf r).rm.lookup i = some s) :
    (r : Nat) / grid.2 = hf s % grid.1 := by
  rcases mem_collect.mp (mem_of_lookup h) with ⟨q, hcolor, hs⟩
  rcases List.mem_map.mp hs with ⟨tpl, htpl, rfl⟩
  rw [← hcolor, ← hplaced q tpl htpl]
  exact lineSlot_div (npy_pos hgrid r)

/-- The column ids that are numbered on a rank have its grid column. -/
theorem col_of_lookup (hplaced : ∀ r, ∀ tpl ∈ stf r, tpl.slot hf grid = (r : Nat)) {r : Fin n}
    {i : Nat} {s : Str} (h : (indexMapping grid.2 stf r).cm.lookup i = some s) :
    (r : Nat) % grid.2 = hf s % grid.2 := by
  rcases mem_collect.mp (mem_of_lookup h) with ⟨q, hcolor, hs⟩
  rcases List.mem_map.mp hs with ⟨tpl, htpl, rfl⟩
  rw [← hcolor, ← hplaced q tpl htpl]
  exact lineSlot_mod

/-- Re-indexing keeps the entries. -/
theorem original_indexMapping (npy : Nat) (stf : Fin n → List (Triple W)) (r : Fin n) :
    List.Forall₂ (indexMapping npy stf r).Original (indexMapping npy stf r).stf (stf r) := by
  show List.Forall₂ _ ((stf r).map _) (stf r)
  rw [List.forall₂_map_left_iff, List.forall₂_same]
  intro tpl htpl
  refine ⟨lookup_rev ?_, lookup_rev ?_, rfl⟩
  · exact mem_collect.mpr ⟨r, rfl, List.mem_map_of_mem htpl⟩
  · exact mem_collect.mpr ⟨r, rfl, List.mem_map_of_mem htpl⟩

theorem assembled_of_perm (hgrid : grid.1 * grid.2 = n)
    (hperm : ∀ r : Fin n, (stf r).Perm
      (((List.finRange n).flatMap tpls).filter fun tpl => tpl.slot hf grid = (r : Nat))) :
    Assembled hf grid tpls stf (indexMapping grid.2 stf) := by
  have hplaced : ∀ r, ∀ tpl ∈ stf r, tpl.slot hf grid = (r : Nat) := by
    intro r tpl htpl
    simpa using (List.mem_filter.mp ((hperm r).mem_iff.mp htpl)).2
  refine ⟨?_, hplaced, ?_, original_indexMapping grid.2 stf, ?_, ?_, ?_, ?_⟩
  · apply (List.Perm.flatMap_left _ fun r _ => hperm r).trans
    exact Slots.flatMap_filter_perm _ _ fun tpl htpl => slot_lt_of_mem hgrid htpl
  · intro r
    exact ⟨isNumbering_numberItems (Finset.sort_nodup _ _),
      isNumbering_numberItems (Finset.sort_nodup _ _)⟩
  · intro r r' hrow
    have hids : collect (fun q : Fin n => q.val / grid.2)
        (fun q => (stf q).map fun tpl => tpl.1) r = collect _ _ r' := collect_congr hrow
    simp only [indexMapping, hids]
  · intro r r' hcol
    have hids : collect (fun q : Fin n => q.val % grid.2)
        (fun q => (stf q).map fun tpl => tpl.2.1) r = collect _ _ r' := collect_congr hcol
    simp only [indexMapping, hids]
  · intro r r' hne i j s hi hj
    exact hne ((row_of_lookup hgrid hplaced hi).trans (row_of_lookup hgrid hplaced hj).symm)
  · intro r r' hne i j s hi hj
    exact hne ((col_of_lookup hplaced hi).trans (col_of_lookup hplaced hj).symm)

end Assembled

open Network StepSystem Comm

/-- After `lines_organize`, a completed `exchange` and `index_mapping` on all ranks the matrix
    is assembled, for every grid and hash function and however the lines are distributed. -/
theorem matrix_assembled (ws : Weights W) (mix : Bool) (parser : Str → List Str) (hf : Str → Nat)
    (pattern : Str) {lines : Fin n → List Str} {slots : Fin n → List (List (Triple W))}
    (hslots : ∀ r, linesOrganize ws mix parser hf (dimInit pattern n) n (lines r) = some (slots r))
    {st : State n (Alltoall (Triple W)) (List (Triple W))}
    (hst : Reachable (step (alltoall n)) (alltoallInit slots) st) (hall : AllReturned st) :
    ∃ tpls : Fin n → List (Triple W),
      (∀ r, linesTriples ws mix parser (lines r) = some (tpls r)) ∧
      Assembled hf (dimInit pattern n) tpls (fun r => exchange (st.loc r).rbuf)
        (indexMapping (dimInit pattern n).2 fun r => exchange (st.loc r).rbuf) := by
  have hparse : ∀ r, ∃ tpls, linesTriples ws mix parser (lines r) = some tpls ∧
      slotsOf hf (dimInit pattern n) n tpls = slots r :=
    fun r => Option.map_eq_some_iff.mp (hslots r)
  choose tpls htpls hslotsOf using hparse
  obtain rfl : (fun r => slotsOf hf (dimInit pattern n) n (tpls r)) = slots := funext hslotsOf
  exact ⟨tpls, htpls, assembled_of_perm (dimInit_mul pattern n) (exchange_perm hst hall)⟩

/-- The lines of two ranks in one grid row. -/
def twoLines (r : Fin 2) : List Str :=
  if r.val = 0 then [lit "a,b", lit "a,bc"] else [lit "aa,bc"]

/-- The entries on these lines. -/
def twoEntries (r : Fin 2) : List (Triple Nat) :=
  if r.val = 0 then [(lit "a", lit "b", 1), (lit "a", lit "bc", 1)] else [(lit "aa", lit "bc", 1)]

theorem matrix_assembled_two :
    (∀ r, linesTriples { stod := fun _ => none, one := 1 } false
      (fun line => strSplit line (lit ",")) (twoLines r) = some (twoEntries r)) ∧
    ∃ st : State 2 (Alltoall (Triple Nat)) _,
      Reachable (step (alltoall 2))
        (alltoallInit fun r => slotsOf List.length (1, 2) 2 (twoEntries r)) st ∧
      AllReturned st ∧
      Assembled List.length (1, 2) twoEntries (fun r => exchange (st.loc r).rbuf)
        (indexMapping 2 fun r => exchange (st.loc r).rbuf) := by
  have hentries : ∀ r, linesTriples { stod := fun _ => none, one := 1 } false
      (fun line => strSplit line (lit ",")) (twoLines r) = some (twoEntries r) := by decide
  have hslots : ∀ r, linesOrganize { stod := fun _ => none, one := 1 } false
      (fun line => strSplit line (lit ",")) List.length (dimInit (lit "smap") 2) 2 (twoLines r) =
      some (slotsOf List.length (1, 2) 2 (twoEntries r)) := Fin.forall_fin_two.mpr ⟨rfl, rfl⟩
  refine ⟨hentries, ?_⟩
  rcases alltoall_returns (alltoallInv_init fun _ => length_slotsOf _ _ _ _) with
    ⟨as, st, hrun, hall⟩
  rcases matrix_assembled _ false _ List.length (lit "smap") hslots ⟨as, hrun⟩ hall with
    ⟨tpls, htpls, hassembled⟩
  obtain rfl : tpls = twoEntries := by
    funext r
    exact Option.some.inj ((htpls r).symm.trans (hentries r))
  exact ⟨st, ⟨as, hrun⟩, hall, hassembled⟩

end Paracel
