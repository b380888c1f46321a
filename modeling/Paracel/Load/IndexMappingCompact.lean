import Mathlib.Data.List.Zip
import Paracel.Load.IndexMapping

/-!
# Numbering the rows and columns, numeric ids

`scheduler::index_mapping` for compact triples (`include/load/scheduler.hpp`).
The ids are 64-bit numbers, but on their way into the sets they are in lists of
`int`. An `int` keeps the low 32 bits and comes back with its sign in the high
ones, so the maps number what the ids become, and an entry leads back to its own ids
only if this leaves them as they are.
-/

namespace Paracel

/-- `paracel::compact_triple_type`, over the weights `W`. -/
abbrev CompactTriple (W : Type) := UInt64 × UInt64 × W

/-- A `default_id_type` in an `int`. -/
def toInt (id : UInt64) : Int :=
  (id.toNat : Int).bmod (2 ^ 32)

/-- An `int` in a `default_id_type`. -/
def toId (item : Int) : UInt64 :=
  UInt64.ofInt item

/-- The loop that numbers the items: `rm[indx] = item`, `rev_rm[item] = indx`. -/
def numberInts (items : List Int) (rm : Dict Nat UInt64) : Dict Nat UInt64 × Dict UInt64 Nat :=
  (items.zipIdx).foldl (fun maps item =>
    (maps.1.insert item.2 (toId item.1), maps.2.insert (toId item.1) item.2)) (rm, ∅)

/-- `rev_rm[id]`, which inserts 0 for an absent id. -/
def subscript (rev : Dict UInt64 Nat) (id : UInt64) : Nat × Dict UInt64 Nat :=
  match rev.lookup id with
  | some indx => (indx, rev)
  | none => (0, rev.insert id 0)

variable {W : Type} {n : Nat}

/-- The loop over the entries that fills `stf`. -/
def reindex : Dict UInt64 Nat → Dict UInt64 Nat → List (CompactTriple W) → List (Nat × Nat × W)
  | _, _, [] => []
  | revRm, revCm, tpl :: rest =>
      let r := subscript revRm tpl.1
      let c := subscript revCm tpl.2.1
      (r.1, c.1, tpl.2.2) :: reindex r.2 c.2 rest

/-- What `index_mapping` leaves in `stf`, `rm` and `cm` when they are passed empty. -/
structure MappedIds (W : Type) where
  stf : List (Nat × Nat × W)
  rm : Dict Nat UInt64
  cm : Dict Nat UInt64

/-- The ids that the ranks of the same color have, as `int`, collected on rank `r`. -/
def collectInts (color : Fin n → Nat) (ids : Fin n → List UInt64) (r : Fin n) : Finset Int :=
  let comm := split color r
  Numbering.insertAll (bcastring (comm.map fun q => (ids q).map toInt) (comm.idxOf r))

/-- `scheduler::index_mapping` on rank `rk`; `slotslst` are the entries of all ranks. -/
def indexMappingIds (npy : Nat) (slotslst : Fin n → List (CompactTriple W)) (rk : Fin n) :
    MappedIds W :=
  let rowcolor (q : Fin n) := q.val / npy
  let colcolor (q : Fin n) := q.val % npy
  let newRows := collectInts rowcolor (fun q => (slotslst q).map fun tpl => tpl.1) rk
  let newCols := collectInts colcolor (fun q => (slotslst q).map fun tpl => tpl.2.1) rk
  let rows := numberInts (newRows.sort (· ≤ ·)) ∅
  let cols := numberInts (newCols.sort (· ≤ ·)) ∅
  { stf := reindex rows.2 cols.2 (slotslst rk)
    rm := rows.1
    cm := cols.1 }

/-! ### Ids in an `int` -/

/-- The ids that an `int` has room for: small ones, and those that are a small negative number
    modulo 2^64. -/
def FitsInt (id : UInt64) : Prop :=
  id.toNat < 2 ^ 31 ∨ 2 ^ 64 - 2 ^ 31 ≤ id.toNat

instance (id : UInt64) : Decidable (FitsInt id) :=
  inferInstanceAs (Decidable (_ ∨ _))

theorem toNat_toId (item : Int) : ((toId item).toNat : Int) = item % 2 ^ 64 := by
  have hpos : 0 ≤ item % 2 ^ 64 := Int.emod_nonneg _ (by decide)
  have hlt : item % 2 ^ 64 < 2 ^ 64 := Int.emod_lt_of_pos _ (by decide)
  rw [toId, UInt64.ofInt, UInt64.toNat_ofNat', Nat.mod_eq_of_lt (by omega)]
  exact Int.toNat_of_nonneg hpos

theorem toInt_bounds (id : UInt64) : -2 ^ 31 ≤ toInt id ∧ toInt id < 2 ^ 31 := by
  have hle : -(((2 ^ 32 : Nat) : Int) / 2) ≤ toInt id := Int.le_bmod (Nat.two_pow_pos 32)
  have hlt : toInt id < (((2 ^ 32 : Nat) : Int) + 1) / 2 := Int.bmod_lt (Nat.two_pow_pos 32)
  have hlow : ((2 ^ 32 : Nat) : Int) / 2 = 2 ^ 31 := by decide
  have hhigh : (((2 ^ 32 : Nat) : Int) + 1) / 2 = 2 ^ 31 := by decide
  rw [hlow] at hle
  rw [hhigh] at hlt
  exact ⟨hle, hlt⟩

/-- An id comes back from an `int` just when it fits. -/
theorem toId_toInt_iff (id : UInt64) : toId (toInt id) = id ↔ FitsInt id := by
  have hlt := id.toNat_lt
  have hval := toNat_toId (toInt id)
  have hbounds := toInt_bounds id
  have hmod : (id.toNat : Int) % 2 ^ 32 = toInt id % 2 ^ 32 :=
    (Int.bmod_emod (x := (id.toNat : Int)) (m := 2 ^ 32)).symm
  rw [← UInt64.toNat_inj, FitsInt]
  omega

/-- What comes out of an `int` fits. -/
theorem fitsInt_toId_toInt (id : UInt64) : FitsInt (toId (toInt id)) := by
  have hbounds := toInt_bounds id
  have hval := toNat_toId (toInt id)
  rw [FitsInt]
  omega

theorem toId_inj {a b : UInt64} (h : toId (toInt a) = toId (toInt b)) : toInt a = toInt b := by
  have ha := toInt_bounds a
  have hb := toInt_bounds b
  have hval := congrArg (fun id : UInt64 => (id.toNat : Int)) h
  simp only [toNat_toId] at hval
  omega

/-! ### The loops -/

theorem subscript_fst (rev : Dict UInt64 Nat) (id : UInt64) :
    (subscript rev id).1 = (rev.lookup id).getD 0 := by
  unfold subscript
  cases rev.lookup id <;> rfl

/-- The 0 that is inserted is what the next look gives anyway. -/
theorem subscript_snd (rev : Dict UInt64 Nat) (id id' : UInt64) :
    ((subscript rev id).2.lookup id').getD 0 = (rev.lookup id').getD 0 := by
  unfold subscript
  cases h : rev.lookup id with
  | some indx => rfl
  | none =>
      by_cases hid : id' = id
      · rw [hid, AList.lookup_insert, h]
        rfl
      · rw [AList.lookup_insert_ne hid]

theorem reindex_eq (revRm revCm : Dict UInt64 Nat) (tpls : List (CompactTriple W)) :
    reindex revRm revCm tpls =
      tpls.map fun tpl =>
        ((revRm.lookup tpl.1).getD 0, (revCm.lookup tpl.2.1).getD 0, tpl.2.2) := by
  induction tpls generalizing revRm revCm with
  | nil => rfl
  | cons tpl tpls ih => simp only [reindex, ih, List.map_cons, subscript_fst, subscript_snd]

/-- The items are numbered as the ids they become. -/
theorem numberInts_eq (items : List Int) :
    numberInts items ∅ = Numbering.number (items.map toId) := by
  rw [numberInts, Numbering.number, List.zipIdx_map, List.foldl_map]
  rfl

theorem mem_collectInts {color : Fin n → Nat} {ids : Fin n → List UInt64} {r : Fin n} {s : Int} :
    s ∈ collectInts color ids r ↔ ∃ q, color q = color r ∧ ∃ id ∈ ids q, toInt id = s := by
  rw [collectInts, Numbering.mem_insertAll]
  refine mem_bcastring_split.trans ?_
  simp only [List.mem_map]

/-- Ranks of the same color collect the same ids. -/
theorem collectInts_congr {color : Fin n → Nat} {ids : Fin n → List UInt64} {r r' : Fin n}
    (h : color r = color r') : collectInts color ids r = collectInts color ids r' := by
  ext s
  rw [mem_collectInts, mem_collectInts, h]

section Collected

variable {color : Fin n → Nat} {ids : Fin n → List UInt64} {r : Fin n}

/-- The ids that rank `r` numbers. -/
def collectedIds (color : Fin n → Nat) (ids : Fin n → List UInt64) (r : Fin n) : List UInt64 :=
  ((collectInts color ids r).sort (· ≤ ·)).map toId

theorem mem_collectedIds {id : UInt64} :
    id ∈ collectedIds color ids r ↔
      ∃ q, color q = color r ∧ ∃ id' ∈ ids q, toId (toInt id') = id := by
  simp only [collectedIds, List.mem_map, Finset.mem_sort, mem_collectInts]
  constructor
  · rintro ⟨item, ⟨q, hq, id', hid', rfl⟩, rfl⟩
    exact ⟨q, hq, id', hid', rfl⟩
  · rintro ⟨q, hq, id', hid', rfl⟩
    exact ⟨toInt id', ⟨q, hq, id', hid', rfl⟩, rfl⟩

theorem nodup_collectedIds : (collectedIds color ids r).Nodup := by
  apply List.Nodup.map_on _ (Finset.sort_nodup _ _)
  intro a ha b hb hab
  rcases mem_collectInts.mp ((Finset.mem_sort _).mp ha) with ⟨-, -, ida, -, rfl⟩
  rcases mem_collectInts.mp ((Finset.mem_sort _).mp hb) with ⟨-, -, idb, -, rfl⟩
  exact toId_inj hab

/-- An id that fits is numbered itself. -/
theorem self_mem_collectedIds {q : Fin n} {id : UInt64} (hq : color q = color r) (hid : id ∈ ids q)
    (hfits : FitsInt id) : id ∈ collectedIds color ids r :=
  mem_collectedIds.mpr ⟨q, hq, id, hid, (toId_toInt_iff id).mpr hfits⟩

end Collected

/-! ### The numbers of one axis -/

section Axis

variable (color : Fin n → Nat) (ids : Fin n → List UInt64) (r : Fin n)

/-- The ids by their numbers on rank `r`. -/
def idMap : Dict Nat UInt64 :=
  (Numbering.number (collectedIds color ids r)).1

/-- The number of an id on rank `r`. -/
def indexOf (id : UInt64) : Nat :=
  ((Numbering.number (collectedIds color ids r)).2.lookup id).getD 0

variable {color ids r}

theorem collectedIds_congr {r' : Fin n} (h : color r = color r') :
    collectedIds color ids r = collectedIds color ids r' := by
  rw [collectedIds, collectedIds, collectInts_congr h]

theorem indexOf_congr {r' : Fin n} (h : color r = color r') (id : UInt64) :
    indexOf color ids r id = indexOf color ids r' id := by
  rw [indexOf, indexOf, collectedIds_congr h]

theorem lookup_indexOf {id : UInt64} (h : id ∈ collectedIds color ids r) :
    (idMap color ids r).lookup (indexOf color ids r id) = some id :=
  Numbering.lookup_number_rev nodup_collectedIds h

theorem indexOf_eq_iff {id id' : UInt64} (h : id ∈ collectedIds color ids r)
    (h' : id' ∈ collectedIds color ids r) :
    indexOf color ids r id = indexOf color ids r id' ↔ id = id' := by
  constructor
  · intro heq
    have hlookup := lookup_indexOf h
    rw [heq, lookup_indexOf h', Option.some_inj] at hlookup
    exact hlookup.symm
  · rintro rfl
    rfl

/-- The numbers are those below the size of the map. -/
theorem isSome_lookup_idMap (i : Nat) :
    ((idMap color ids r).lookup i).isSome = true ↔ i < (idMap color ids r).keys.length :=
  Numbering.isSome_lookup_number nodup_collectedIds i

/-- Only ids that fit have a number that leads back to them. -/
theorem fitsInt_of_lookup {i : Nat} {id : UInt64} (h : (idMap color ids r).lookup i = some id) :
    FitsInt id := by
  have hmem := Numbering.mem_of_lookup_number nodup_collectedIds h
  rcases mem_collectedIds.mp hmem with ⟨-, -, id', -, rfl⟩
  exact fitsInt_toId_toInt id'

/-- When all ids fit, each number is the one of an id on some rank of the color. -/
theorem exists_indexOf (hfits : ∀ q, ∀ id ∈ ids q, FitsInt id) {i : Nat}
    (hi : i < (idMap color ids r).keys.length) :
    ∃ q, color q = color r ∧ ∃ id ∈ ids q, indexOf color ids q id = i := by
  have hsome := (isSome_lookup_idMap i).mpr hi
  rcases Option.isSome_iff_exists.mp hsome with ⟨id, hid⟩
  have hmem := Numbering.mem_of_lookup_number nodup_collectedIds hid
  rcases mem_collectedIds.mp hmem with ⟨q, hq, id', hid', rfl⟩
  rw [(toId_toInt_iff id').mpr (hfits q id' hid')] at hid hmem
  refine ⟨q, hq, id', hid', ?_⟩
  rw [indexOf_congr hq]
  exact Numbering.number_inj nodup_collectedIds (lookup_indexOf hmem) hid

end Axis

/-! ### What the ranks are left with -/

/-- The row and the column ids of the ranks. -/
def rowIds (slotslst : Fin n → List (CompactTriple W)) (q : Fin n) : List UInt64 :=
  (slotslst q).map fun tpl => tpl.1

def colIds (slotslst : Fin n → List (CompactTriple W)) (q : Fin n) : List UInt64 :=
  (slotslst q).map fun tpl => tpl.2.1

theorem indexMappingIds_eq (npy : Nat) (slotslst : Fin n → List (CompactTriple W)) (rk : Fin n) :
    indexMappingIds npy slotslst rk =
      { stf := (slotslst rk).map fun tpl =>
          (indexOf (fun q => q.val / npy) (rowIds slotslst) rk tpl.1,
            indexOf (fun q => q.val % npy) (colIds slotslst) rk tpl.2.1, tpl.2.2)
        rm := idMap (fun q => q.val / npy) (rowIds slotslst) rk
        cm := idMap (fun q => q.val % npy) (colIds slotslst) rk } := by
  simp only [indexMappingIds, numberInts_eq, reindex_eq]
  rfl

/-- The entry with its original ids. -/
def MappedIds.Original (m : MappedIds W) (tpl : Nat × Nat × W) (orig : CompactTriple W) : Prop :=
  m.rm.lookup tpl.1 = some orig.1 ∧ m.cm.lookup tpl.2.1 = some orig.2.1 ∧ tpl.2.2 = orig.2.2

/-- The entries of rank `rk` lead back to their ids; the entries of the ranks in its grid row
    have different row numbers just when their row ids differ, and use all row numbers, which
    are those below the size of `rm`; and so for the columns. -/
structure FaithfulIds (npy : Nat) (slotslst : Fin n → List (CompactTriple W))
    (m : Fin n → MappedIds W) (rk : Fin n) : Prop where
  original : List.Forall₂ (m rk).Original (m rk).stf (slotslst rk)
  distinctRows : ∀ q q' : Fin n, (q : Nat) / npy = rk / npy → (q' : Nat) / npy = rk / npy →
    ∀ p ∈ (m q).stf.zip (slotslst q), ∀ p' ∈ (m q').stf.zip (slotslst q'),
      p.1.1 = p'.1.1 ↔ p.2.1 = p'.2.1
  distinctCols : ∀ q q' : Fin n, (q : Nat) % npy = rk % npy → (q' : Nat) % npy = rk % npy →
    ∀ p ∈ (m q).stf.zip (slotslst q), ∀ p' ∈ (m q').stf.zip (slotslst q'),
      p.1.2.1 = p'.1.2.1 ↔ p.2.2.1 = p'.2.2.1
  rows : ∀ i, ((m rk).rm.lookup i).isSome = true ↔ i < (m rk).rm.keys.length
  cols : ∀ i, ((m rk).cm.lookup i).isSome = true ↔ i < (m rk).cm.keys.length
  usedRows : ∀ i < (m rk).rm.keys.length,
    ∃ q : Fin n, (q : Nat) / npy = rk / npy ∧ ∃ tpl ∈ (m q).stf, tpl.1 = i
  usedCols : ∀ i < (m rk).cm.keys.length,
    ∃ q : Fin n, (q : Nat) % npy = rk % npy ∧ ∃ tpl ∈ (m q).stf, tpl.2.1 = i

section Faithful

variable {npy : Nat} {slotslst : Fin n → List (CompactTriple W)}

/-- An entry and what it becomes. -/
theorem mem_zip_stf {q : Fin n} {p : (Nat × Nat × W) × CompactTriple W}
    (hp : p ∈ (indexMappingIds npy slotslst q).stf.zip (slotslst q)) :
    p.2 ∈ slotslst q ∧
      p.1.1 = indexOf (fun q => q.val / npy) (rowIds slotslst) q p.2.1 ∧
      p.1.2.1 = indexOf (fun q => q.val % npy) (colIds slotslst) q p.2.2.1 := by
  rw [indexMappingIds_eq] at hp
  obtain ⟨tpl, htpl, rfl⟩ : ∃ tpl ∈ slotslst q,
      ((indexOf (fun q => q.val / npy) (rowIds slotslst) q tpl.1,
        indexOf (fun q => q.val % npy) (colIds slotslst) q tpl.2.1, tpl.2.2), tpl) = p := by
    have hzip := List.zip_map' (f := fun tpl : CompactTriple W =>
      (indexOf (fun q => q.val / npy) (rowIds slotslst) q tpl.1,
        indexOf (fun q => q.val % npy) (colIds slotslst) q tpl.2.1, tpl.2.2))
      (g := id) (l := slotslst q)
    rw [List.map_id] at hzip
    rw [hzip] at hp
    exact List.mem_map.mp hp
  dsimp only
  exact ⟨htpl, rfl, rfl⟩

theorem faithfulIds_of_fits
    (hfits : ∀ q, ∀ tpl ∈ slotslst q, FitsInt tpl.1 ∧ FitsInt tpl.2.1) (rk : Fin n) :
    FaithfulIds npy slotslst (indexMappingIds npy slotslst) rk := by
  have hrow : ∀ q r : Fin n, (q : Nat) / npy = r / npy → ∀ tpl ∈ slotslst q,
      tpl.1 ∈ collectedIds (fun q => q.val / npy) (rowIds slotslst) r := fun q r hq tpl htpl =>
    self_mem_collectedIds (q := q) hq (List.mem_map_of_mem htpl) (hfits q tpl htpl).1
  have hcol : ∀ q r : Fin n, (q : Nat) % npy = r % npy → ∀ tpl ∈ slotslst q,
      tpl.2.1 ∈ collectedIds (fun q => q.val % npy) (colIds slotslst) r := fun q r hq tpl htpl =>
    self_mem_collectedIds (q := q) hq (List.mem_map_of_mem htpl) (hfits q tpl htpl).2
  constructor
  case original =>
    rw [indexMappingIds_eq, List.forall₂_map_left_iff, List.forall₂_same]
    intro tpl htpl
    have hr := lookup_indexOf (hrow rk rk rfl tpl htpl)
    have hc := lookup_indexOf (hcol rk rk rfl tpl htpl)
    dsimp only [MappedIds.Original]
    exact ⟨hr, hc, rfl⟩
  case distinctRows =>
    intro q q' hq hq' p hp p' hp'
    rcases mem_zip_stf hp with ⟨hmem, hindex, -⟩
    rcases mem_zip_stf hp' with ⟨hmem', hindex', -⟩
    rw [hindex.trans (indexOf_congr hq _), hindex'.trans (indexOf_congr hq' _)]
    exact indexOf_eq_iff (hrow q rk hq _ hmem) (hrow q' rk hq' _ hmem')
  case distinctCols =>
    intro q q' hq hq' p hp p' hp'
    rcases mem_zip_stf hp with ⟨hmem, -, hindex⟩
    rcases mem_zip_stf hp' with ⟨hmem', -, hindex'⟩
    rw [hindex.trans (indexOf_congr hq _), hindex'.trans (indexOf_congr hq' _)]
    exact indexOf_eq_iff (hcol q rk hq _ hmem) (hcol q' rk hq' _ hmem')
  case rows =>
    rw [indexMappingIds_eq]
    exact isSome_lookup_idMap
  case cols =>
    rw [indexMappingIds_eq]
    exact isSome_lookup_idMap
  case usedRows =>
    intro i hi
    rw [indexMappingIds_eq] at hi
    have hids : ∀ q, ∀ id ∈ rowIds slotslst q, FitsInt id := fun q =>
      List.forall_mem_map.mpr fun tpl htpl => (hfits q tpl htpl).1
    rcases exists_indexOf hids hi with ⟨q, hq, id, hid, rfl⟩
    rcases List.mem_map.mp hid with ⟨tpl, htpl, rfl⟩
    refine ⟨q, hq, ?_⟩
    rw [indexMappingIds_eq]
    refine ⟨_, List.mem_map_of_mem htpl, ?_⟩
    dsimp only
  case usedCols =>
    intro i hi
    rw [indexMappingIds_eq] at hi
    have hids : ∀ q, ∀ id ∈ colIds slotslst q, FitsInt id := fun q =>
      List.forall_mem_map.mpr fun tpl htpl => (hfits q tpl htpl).2
    rcases exists_indexOf hids hi with ⟨q, hq, id, hid, rfl⟩
    rcases List.mem_map.mp hid with ⟨tpl, htpl, rfl⟩
    refine ⟨q, hq, ?_⟩
    rw [indexMappingIds_eq]
    refine ⟨_, List.mem_map_of_mem htpl, ?_⟩
    dsimp only

/-- The numbering is faithful on all ranks just when all ids fit in an `int`. -/
theorem index_mapping_ids_iff (npy : Nat) (slotslst : Fin n → List (CompactTriple W)) :
    (∀ rk, FaithfulIds npy slotslst (indexMappingIds npy slotslst) rk) ↔
      ∀ rk, ∀ tpl ∈ slotslst rk,
        (tpl.1.toNat < 2 ^ 31 ∨ 2 ^ 64 - 2 ^ 31 ≤ tpl.1.toNat) ∧
          (tpl.2.1.toNat < 2 ^ 31 ∨ 2 ^ 64 - 2 ^ 31 ≤ tpl.2.1.toNat) := by
  constructor
  · intro hall rk tpl htpl
    have horig := (hall rk).original
    rw [indexMappingIds_eq, List.forall₂_map_left_iff, List.forall₂_same] at horig
    rcases horig tpl htpl with ⟨hrow, hcol, -⟩
    exact ⟨fitsInt_of_lookup hrow, fitsInt_of_lookup hcol⟩
  · exact faithfulIds_of_fits

end Faithful

/-- One rank with one entry, whose row id is 3000000000. -/
def bigId : Fin 1 → List (CompactTriple Nat) :=
  fun _ => [(3000000000, 7, 1)]

/-- The id that is numbered is 18446744072414584320 instead. -/
theorem not_faithfulIds_bigId :
    toId (toInt 3000000000) = 18446744072414584320 ∧
      ¬FaithfulIds 1 bigId (indexMappingIds 1 bigId) 0 := by
  refine ⟨by decide, ?_⟩
  intro h
  have horig := h.original
  rw [indexMappingIds_eq, List.forall₂_map_left_iff, List.forall₂_same] at horig
  have hfits := fitsInt_of_lookup (horig _ List.mem_cons_self).1
  exact absurd hfits (by decide)

end Paracel
