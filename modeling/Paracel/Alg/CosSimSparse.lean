import Mathlib.Algebra.BigOperators.Group.List.Basic
import Mathlib.Algebra.Ring.Int.Defs
import Paracel.Kv

/-!
# Cosine similarities by blocks of rows

`cos_sim_sparse` (`alg/cos_sim_sparse/cos_sim_sparse.cpp`) multiplies the rows of
a matrix with all its rows, some thousand rows at a time, and keeps each block of
the result as a vector on the servers; `dump` makes matrices of the vectors again
and reports every entry under the ids of its row and column. The workers' parts
are added entry by entry, so one worker stands for all of them here. With fewer
than 2000 rows there is one block.
-/

namespace Paracel.CosSimSparse

variable {D : Type}

/-! ### Matrices -/

/-- An Eigen matrix; `coeff` counts inside of its bounds only. -/
structure Mtx (D : Type) where
  rows : Nat
  cols : Nat
  coeff : Nat → Nat → D

/-- `m.block(startRow, startCol, blockRows, blockCols)`, which asserts that the block is inside
    of the matrix. -/
def block (m : Mtx D) (startRow startCol blockRows blockCols : Nat) : Option (Mtx D) :=
  if startRow + blockRows ≤ m.rows ∧ startCol + blockCols ≤ m.cols then
    some ⟨blockRows, blockCols, fun i j => m.coeff (startRow + i) (startCol + j)⟩
  else none

/-- `a * b.transpose()`. -/
def mulTranspose [Semiring D] (a b : Mtx D) : Mtx D :=
  ⟨a.rows, b.rows, fun i j => ((List.range a.cols).map fun c => a.coeff i c * b.coeff j c).sum⟩

/-- `mat2vec`: the entries column by column. -/
def mat2vec (m : Mtx D) : List D :=
  (List.range (m.rows * m.cols)).map fun p => m.coeff (p % m.rows) (p / m.rows)

/-- `vec2mat`: column by column again, but what is passed is the number of columns. -/
def vec2mat [Zero D] (v : List D) (cols : Nat) : Mtx D :=
  let rows := v.length / cols
  ⟨rows, cols, fun i j => v.getD (i + j * rows) 0⟩

/-! ### The blocks -/

/-- `blk_size`. -/
def blkSize (rows : Nat) : Nat :=
  if rows / 1000 = 0 then 1 else rows / 1000

/-- `rows` of block `k`, as `solve` and `dump` compute it. -/
def blkRows (rows k : Nat) : Nat :=
  if k = blkSize rows - 1 then rows / blkSize rows + rows % blkSize rows else rows / blkSize rows

/-- `solve`: the vectors `"result_" + k`. -/
def solve [Semiring D] (blkAT : Mtx D) : Option (List (List D)) :=
  (List.range (blkSize blkAT.rows)).mapM fun k =>
    (block blkAT (k * blkSize blkAT.rows) 0 (blkRows blkAT.rows k) blkAT.cols).map fun part =>
      mat2vec (mulTranspose part blkAT)

/-- `r[kv.first].push_back(kv.second)`. -/
def pushUnder {V : Type} (r : Dict Str (List V)) (kv : Str × V) : Dict Str (List V) :=
  r.insert kv.1 ((r.lookup kv.1).getD [] ++ [kv.2])

/-- `row_map[x]`, which is empty for a row that does not exist. -/
def rowId (rowMap : List Str) (x : Nat) : Str :=
  rowMap.getD x []

/-- The entries that `dump` reports for block `k`, in order. -/
def blockPushes [Zero D] (rowMap : List Str) (rows k : Nat) (data : List D) :
    List (Str × Str × D) :=
  let result := vec2mat data (blkRows rows k)
  (List.range result.rows).flatMap fun i => (List.range result.cols).map fun j =>
    (rowId rowMap (i + k * blkSize rows), rowId rowMap j, result.coeff i j)

/-- `dump`: what is written by `paracel_dump_dict`. -/
def dump [Zero D] (rowMap : List Str) (rows : Nat) (stored : List (List D)) :
    Dict Str (List (Str × D)) :=
  ((List.range (blkSize rows)).flatMap fun k =>
    blockPushes rowMap rows k (stored.getD k [])).foldl pushUnder ∅

/-- The row ids: one for each row, all of them different and none empty. -/
structure RowMap (rows : Nat) where
  ids : List Str
  length_eq : ids.length = rows
  nodup : ids.Nodup
  ne_nil : ∀ id ∈ ids, id ≠ []

/-- The blocks lie behind one another and have each row once. -/
def Tiles (rows : Nat) : Prop :=
  ((List.range (blkSize rows)).flatMap fun k => List.range' (k * blkSize rows) (blkRows rows k)) =
    List.range rows

/-- Each row is reported once, under its own id, with its similarities to all rows. -/
def Reported [Semiring D] (blkAT : Mtx D) (rowMap : List Str) : Prop :=
  ∃ stored, solve blkAT = some stored ∧ ∀ key lst,
    (dump rowMap blkAT.rows stored).lookup key = some lst ↔
      ∃ i < blkAT.rows, key = rowId rowMap i ∧ lst = (List.range blkAT.rows).map fun j =>
        (rowId rowMap j, (mulTranspose blkAT blkAT).coeff i j)

/-! ### Which blocks tile -/

section Tiling

variable {rows : Nat}

theorem blkSize_of_lt (h : rows < 2000) : blkSize rows = 1 := by
  rw [blkSize]
  split <;> omega

theorem blkSize_of_ge (h : 2000 ≤ rows) : blkSize rows = rows / 1000 ∧ 2 ≤ blkSize rows := by
  have hblk : blkSize rows = rows / 1000 := if_neg (by omega)
  rw [hblk]
  omega

theorem blkRows_one (h : blkSize rows = 1) (k : Nat) : blkRows rows k = rows := by
  rw [blkRows, h, Nat.div_one, Nat.mod_one]
  split <;> rfl

/-- Blocks of `b` rows that start every `b` rows. -/
theorem flatMap_range'_mul (b n : Nat) :
    ((List.range n).flatMap fun k => List.range' (k * b) b) = List.range (n * b) := by
  induction n with
  | zero => simp
  | succ n ih =>
      rw [List.range_succ, List.flatMap_append, ih, List.flatMap_singleton, Nat.succ_mul,
        List.range_eq_range', List.range_eq_range']
      have happend := @List.range'_append 0 (n * b) b 1
      rwa [Nat.one_mul, Nat.zero_add] at happend

/-- Blocks tile where they start as far apart as they are long. -/
theorem tiles_of_div_eq (h : rows / blkSize rows = blkSize rows) : Tiles rows := by
  have hpos : 0 < blkSize rows := by
    rw [blkSize]
    split <;> omega
  obtain ⟨n, hn⟩ : ∃ n, blkSize rows = n + 1 := ⟨blkSize rows - 1, by omega⟩
  have hrows : (n + 1) * (n + 1) + rows % (n + 1) = rows := by
    have hmod := Nat.div_add_mod rows (blkSize rows)
    rwa [h, hn] at hmod
  have hfirst : ((List.range n).flatMap fun k => List.range' (k * (n + 1)) (blkRows rows k)) =
      List.range (n * (n + 1)) := by
    rw [← flatMap_range'_mul]
    apply List.flatMap_congr
    intro k hk
    have hlt := List.mem_range.mp hk
    rw [blkRows, if_neg (by omega), h, hn]
  have hlast : blkRows rows n = n + 1 + rows % (n + 1) := by
    rw [blkRows, if_pos (by omega), h, hn]
  rw [Tiles, hn, List.range_succ, List.flatMap_append, hfirst, List.flatMap_singleton, hlast,
    List.range_eq_range', List.range_eq_range']
  have happend := @List.range'_append 0 (n * (n + 1)) (n + 1 + rows % (n + 1)) 1
  rwa [Nat.one_mul, Nat.zero_add, ← Nat.add_assoc, ← Nat.succ_mul, hrows] at happend

/-- With two blocks or more the second one starts right behind the first only there. -/
theorem div_eq_of_tiles (hge : 2000 ≤ rows) (h : Tiles rows) :
    rows / blkSize rows = blkSize rows := by
  obtain ⟨hblk, htwo⟩ := blkSize_of_ge hge
  obtain ⟨n, hn⟩ : ∃ n, blkSize rows = n + 2 := ⟨blkSize rows - 2, by omega⟩
  have hdiv : 0 < rows / blkSize rows := Nat.div_pos (by omega) (by omega)
  have hdivlt : rows / blkSize rows < rows := Nat.div_lt_self (by omega) htwo
  have hzero : blkRows rows 0 = rows / blkSize rows := if_neg (by omega)
  have hone : 0 < blkRows rows 1 := by
    rw [blkRows]
    split <;> omega
  have hget := congrArg (fun l => l[rows / blkSize rows]?) h
  simp only [hn, List.range_succ_eq_map (n := n + 1), List.range_succ_eq_map (n := n),
    List.map_cons, List.flatMap_cons, hzero, Nat.zero_mul] at hget
  rw [List.getElem?_append_right (by simp), List.length_range', ← hn, Nat.sub_self,
    List.getElem?_append_left (by simpa using hone), List.getElem?_range' hone,
    List.getElem?_range hdivlt, Option.some.injEq] at hget
  simp only [hn] at hget ⊢
  omega

/-- The one number of blocks above one that fits is 1000. -/
theorem div_blkSize_eq_iff (hge : 2000 ≤ rows) :
    rows / blkSize rows = blkSize rows ↔ rows / 1000 = 1000 := by
  obtain ⟨hblk, htwo⟩ := blkSize_of_ge hge
  rw [hblk]
  constructor
  · intro h
    have hlow := Nat.div_mul_le_self rows (rows / 1000)
    have hhigh := Nat.lt_mul_div_succ rows (b := rows / 1000) (by omega)
    rw [h] at hlow hhigh
    have hle : rows < rows / 1000 * 1000 + 1000 := by omega
    have hge' : rows / 1000 * 1000 ≤ rows := Nat.div_mul_le_self rows 1000
    generalize rows / 1000 = b at *
    have hupper : ¬1001 ≤ b := by
      intro hb
      have hmul : 1001 * b ≤ b * b := Nat.mul_le_mul_right b hb
      omega
    have hlower : ¬b < 1000 := by
      intro hb
      have hmul : b * (b + 1) ≤ b * 1000 := Nat.mul_le_mul_left b hb
      omega
    omega
  · intro h
    rw [h, h]

theorem tiles_iff : Tiles rows ↔ rows < 2000 ∨ rows / 1000 = 1000 := by
  by_cases hlt : rows < 2000
  · have hblk := blkSize_of_lt hlt
    refine ⟨fun _ => .inl hlt, fun _ => ?_⟩
    rw [Tiles, hblk, List.range_one, List.flatMap_singleton, blkRows_one hblk, Nat.zero_mul,
      List.range_eq_range']
  · have hge : 2000 ≤ rows := Nat.not_lt.mp hlt
    rw [or_iff_right hlt, ← div_blkSize_eq_iff hge]
    exact ⟨div_eq_of_tiles hge, tiles_of_div_eq⟩

end Tiling

/-! ### What is reported -/

section Report

/-- Lists that were grown entry by entry have the entries of their keys. -/
theorem lookup_foldl_pushUnder {V : Type} (pushes : List (Str × V)) (r : Dict Str (List V))
    (key : Str) :
    (pushes.foldl pushUnder r).lookup key =
      match pushes.filter fun kv => kv.1 = key with
      | [] => r.lookup key
      | kvs => some ((r.lookup key).getD [] ++ kvs.map Prod.snd) := by
  induction pushes generalizing r with
  | nil => rfl
  | cons kv pushes ih =>
      rw [List.foldl_cons, ih, List.filter_cons]
      by_cases hkey : kv.1 = key
      · subst hkey
        rw [pushUnder, AList.lookup_insert]
        cases pushes.filter fun kv' => kv'.1 = kv.1 <;> simp
      · rw [pushUnder, AList.lookup_insert_ne (Ne.symm hkey)]
        simp [hkey]

/-- Of the members of a range only one gives anything. -/
theorem flatMap_range_single {β : Type} {f : Nat → List β} {n i : Nat} (hi : i < n)
    (h : ∀ j < n, j ≠ i → f j = []) : (List.range n).flatMap f = f i := by
  have hsplit : List.range n = List.range i ++ i :: (List.range' (i + 1) (n - (i + 1))) := by
    rw [List.range_eq_range', List.range_eq_range', ← List.range'_succ]
    have happend := @List.range'_append 0 i (n - (i + 1) + 1) 1
    rw [Nat.one_mul, Nat.zero_add] at happend
    rw [happend]
    congr 1
    omega
  have hbefore : (List.range i).flatMap f = [] :=
    List.flatMap_eq_nil_iff.mpr fun j hj => h j (by have := List.mem_range.mp hj; omega)
      (by have := List.mem_range.mp hj; omega)
  have hbehind : (List.range' (i + 1) (n - (i + 1))).flatMap f = [] :=
    List.flatMap_eq_nil_iff.mpr fun j hj => h j (by have := List.mem_range'_1.mp hj; omega)
      (by have := List.mem_range'_1.mp hj; omega)
  rw [hsplit, List.flatMap_append, List.flatMap_cons, hbefore, hbehind, List.nil_append,
    List.append_nil]

theorem length_mat2vec (m : Mtx D) : (mat2vec m).length = m.rows * m.cols := by
  simp [mat2vec]

/-- A square matrix comes back as it was. -/
theorem coeff_vec2mat_mat2vec [Zero D] {m : Mtx D} {n : Nat} (hrows : m.rows = n)
    (hcols : m.cols = n) {i j : Nat} (hi : i < n) (hj : j < n) :
    (vec2mat (mat2vec m) n).coeff i j = m.coeff i j := by
  have hdiv : (mat2vec m).length / n = n := by
    rw [length_mat2vec, hrows, hcols, Nat.mul_div_cancel _ (by omega)]
  have hlt : i + j * n < n * n := by
    calc
      i + j * n < n + j * n := Nat.add_lt_add_right hi _
      _ = (j + 1) * n := by rw [Nat.succ_mul, Nat.add_comm]
      _ ≤ n * n := Nat.mul_le_mul_right n hj
  have hget : (mat2vec m)[i + j * n]? = some (m.coeff i j) := by
    rw [mat2vec, List.getElem?_map, hrows, hcols, List.getElem?_range hlt, Option.map_some,
      Nat.add_mul_mod_self_right, Nat.mod_eq_of_lt hi, Nat.add_mul_div_right _ _ (by omega),
      Nat.div_eq_of_lt hi, Nat.zero_add]
  simp only [vec2mat, hdiv, List.getD_eq_getElem?_getD, hget, Option.getD_some]

variable {rows : Nat} (rm : RowMap rows)

theorem RowMap.rowId_eq {i : Nat} (hi : i < rows) :
    rm.ids[i]? = some (rowId rm.ids i) ∧ rowId rm.ids i ≠ [] := by
  have hlt : i < rm.ids.length := by rwa [rm.length_eq]
  have hget : rm.ids[i]? = some (rowId rm.ids i) := by
    rw [rowId, List.getD_eq_getElem?_getD, List.getElem?_eq_getElem hlt]
    rfl
  exact ⟨hget, rm.ne_nil _ (List.mem_of_getElem? hget)⟩

/-- A row has an id that no other row has, and none of those behind the last one. -/
theorem RowMap.rowId_inj {i x : Nat} (hi : i < rows) (h : rowId rm.ids x = rowId rm.ids i) :
    x = i := by
  obtain ⟨hget, hne⟩ := rm.rowId_eq hi
  rcases Nat.lt_or_ge x rows with hx | hx
  · have hgetx := (rm.rowId_eq hx).1
    rw [h, ← hget] at hgetx
    exact (List.getElem?_inj (by rwa [rm.length_eq]) rm.nodup).mp hgetx
  · have hempty : rowId rm.ids x = [] := by
      rw [rowId, List.getD_eq_getElem?_getD, List.getElem?_eq_none (by rwa [rm.length_eq])]
      rfl
    exact absurd (h.symm.trans hempty) hne

/-- The reported list of a row, where one place of the loops over the blocks and their rows has
    its id. -/
theorem lookup_dump [Zero D] (stored : List (List D)) {k i x : Nat} (hx : x < rows)
    (hk : k < blkSize rows) (hi : i < (vec2mat (stored.getD k []) (blkRows rows k)).rows)
    (hcols : 0 < blkRows rows k)
    (hplace : ∀ k' < blkSize rows, ∀ i', i' + k' * blkSize rows = x → k' = k ∧ i' = i)
    (hown : i + k * blkSize rows = x) :
    (dump rm.ids rows stored).lookup (rowId rm.ids x) =
      some ((List.range (blkRows rows k)).map fun j =>
        (rowId rm.ids j, (vec2mat (stored.getD k []) (blkRows rows k)).coeff i j)) := by
  let entries : Nat → Nat → List (Str × Str × D) := fun k' i' =>
    (List.range (blkRows rows k')).map fun j =>
      (rowId rm.ids (i' + k' * blkSize rows), rowId rm.ids j,
        (vec2mat (stored.getD k' []) (blkRows rows k')).coeff i' j)
  have hfilter : ∀ k' i', (entries k' i').filter (fun kv => kv.1 = rowId rm.ids x) =
      if i' + k' * blkSize rows = x then entries k' i' else [] := by
    intro k' i'
    split
    · rename_i heq
      refine List.filter_eq_self.mpr fun kv hkv => ?_
      obtain ⟨j, -, rfl⟩ := List.mem_map.mp hkv
      simp [heq]
    · rename_i hne
      refine List.filter_eq_nil_iff.mpr fun kv hkv => ?_
      obtain ⟨j, -, rfl⟩ := List.mem_map.mp hkv
      have hid : rowId rm.ids (i' + k' * blkSize rows) ≠ rowId rm.ids x := fun h =>
        hne (rm.rowId_inj hx h)
      simpa using hid
  have hpushes : (((List.range (blkSize rows)).flatMap fun k' =>
      blockPushes rm.ids rows k' (stored.getD k' [])).filter fun kv => kv.1 = rowId rm.ids x) =
      entries k i := by
    rw [List.filter_flatMap, flatMap_range_single hk]
    · show ((List.range _).flatMap (entries k)).filter _ = _
      rw [List.filter_flatMap, flatMap_range_single hi, hfilter, if_pos hown]
      intro i' _ hne
      rw [hfilter, if_neg fun h => hne (hplace k hk i' h).2]
    · intro k' hk' hne
      show ((List.range _).flatMap (entries k')).filter _ = _
      rw [List.filter_flatMap]
      refine List.flatMap_eq_nil_iff.mpr fun i' _ => ?_
      rw [hfilter, if_neg fun h => hne (hplace k' hk' i' h).1]
  have hne : entries k i ≠ [] := by
    simp only [entries, ne_eq, List.map_eq_nil_iff, List.range_eq_nil]
    omega
  rw [dump, lookup_foldl_pushUnder, hpushes]
  split
  · rename_i h
    exact absurd h hne
  · simp [entries]

/-- A key that is reported is the id of some row of a block's matrix. -/
theorem exists_of_lookup_dump [Zero D] {rowMap : List Str} {stored : List (List D)} {key : Str}
    {lst : List (Str × D)} (h : (dump rowMap rows stored).lookup key = some lst) :
    ∃ k < blkSize rows, ∃ i < (vec2mat (stored.getD k []) (blkRows rows k)).rows,
      key = rowId rowMap (i + k * blkSize rows) := by
  rw [dump, lookup_foldl_pushUnder] at h
  split at h
  · rw [AList.lookup_empty] at h
    cases h
  · rename_i kvs hne
    obtain ⟨kv, hkv⟩ := List.exists_mem_of_ne_nil _ hne
    obtain ⟨hpush, hkey⟩ := List.mem_filter.mp hkv
    obtain ⟨k, hk, hpush⟩ := List.mem_flatMap.mp hpush
    obtain ⟨i, hi, hpush⟩ := List.mem_flatMap.mp hpush
    obtain ⟨j, -, rfl⟩ := List.mem_map.mp hpush
    exact ⟨k, List.mem_range.mp hk, i, List.mem_range.mp hi, (of_decide_eq_true hkey).symm⟩

variable [Semiring D] {blkAT : Mtx D}

/-- One block is the matrix itself. -/
theorem solve_one (h : blkSize blkAT.rows = 1) :
    solve blkAT = some [mat2vec (mulTranspose blkAT blkAT)] := by
  have hblock : block blkAT 0 0 blkAT.rows blkAT.cols = some blkAT := by
    simp [block]
  rw [solve, h, List.range_one, List.mapM_cons, List.mapM_nil, Nat.zero_mul, blkRows_one h, hblock]
  rfl

/-- The first vector is that of the first rows. -/
theorem solve_head {stored : List (List D)} (h : solve blkAT = some stored) :
    ∃ part rest, stored = mat2vec (mulTranspose part blkAT) :: rest ∧
      part.rows = blkRows blkAT.rows 0 := by
  obtain ⟨n, hn⟩ : ∃ n, blkSize blkAT.rows = n + 1 := by
    refine ⟨blkSize blkAT.rows - 1, ?_⟩
    rw [blkSize]
    split <;> omega
  have hrange : List.range (blkSize blkAT.rows) = 0 :: (List.range n).map Nat.succ := by
    rw [hn, List.range_succ_eq_map]
  rw [solve, hrange, List.mapM_cons] at h
  obtain ⟨v, hv, h⟩ := Option.bind_eq_some_iff.mp h
  obtain ⟨rest, -, h⟩ := Option.bind_eq_some_iff.mp h
  obtain ⟨part, hblock, rfl⟩ := Option.map_eq_some_iff.mp hv
  refine ⟨part, rest, (Option.some.inj h).symm, ?_⟩
  rw [block] at hblock
  split at hblock
  · rw [← Option.some.inj hblock]
  · cases hblock

/-- A single block is reported as it is. -/
theorem reported_of_lt (rm : RowMap blkAT.rows) (hpos : 1 ≤ blkAT.rows) (hlt : blkAT.rows < 2000) :
    Reported blkAT rm.ids := by
  have hblk := blkSize_of_lt hlt
  have hrows : ∀ k, blkRows blkAT.rows k = blkAT.rows := blkRows_one hblk
  have hmtx : (vec2mat (mat2vec (mulTranspose blkAT blkAT)) blkAT.rows).rows = blkAT.rows := by
    rw [vec2mat, length_mat2vec]
    exact Nat.mul_div_cancel _ hpos
  have hlookup : ∀ i < blkAT.rows,
      (dump rm.ids blkAT.rows [mat2vec (mulTranspose blkAT blkAT)]).lookup (rowId rm.ids i) =
        some ((List.range blkAT.rows).map fun j =>
          (rowId rm.ids j, (mulTranspose blkAT blkAT).coeff i j)) := by
    intro i hi
    rw [lookup_dump rm _ (k := 0) (i := i) hi (by omega) (by rw [hrows]; exact hmtx.symm ▸ hi)
      (by rw [hrows]; exact hpos) (by intro k' hk' i' h; rw [hblk] at hk' h; omega) (by omega),
      hrows]
    refine congrArg some (List.map_congr_left fun j hj => ?_)
    have hcoeff := coeff_vec2mat_mat2vec (m := mulTranspose blkAT blkAT) (n := blkAT.rows) rfl rfl
      hi (List.mem_range.mp hj)
    rw [List.getD_cons_zero, hcoeff]
  refine ⟨_, solve_one hblk, fun key lst => ⟨?_, ?_⟩⟩
  · intro h
    obtain ⟨k, hk, i, hi, rfl⟩ := exists_of_lookup_dump h
    obtain rfl : k = 0 := by omega
    rw [hrows, List.getD_cons_zero, hmtx] at hi
    rw [Nat.zero_mul, Nat.add_zero, hlookup i hi] at h
    exact ⟨i, hi, by rw [Nat.zero_mul, Nat.add_zero], (Option.some.inj h).symm⟩
  · intro ⟨i, hi, hkey, hlst⟩
    rw [hkey, hlst]
    exact hlookup i hi

/-- With several blocks the first row is reported with as many entries as the block has rows,
    because the matrix that `dump` makes of a vector is not the one it was made of. -/
theorem not_reported_of_ge (rm : RowMap blkAT.rows) (hge : 2000 ≤ blkAT.rows) :
    ¬Reported blkAT rm.ids := by
  intro ⟨stored, hsolve, hreport⟩
  obtain ⟨hblk, htwo⟩ := blkSize_of_ge hge
  obtain ⟨part, rest, rfl, hpart⟩ := solve_head hsolve
  have hzero : blkRows blkAT.rows 0 = blkAT.rows / blkSize blkAT.rows := if_neg (by omega)
  have hcols : 0 < blkRows blkAT.rows 0 := by
    rw [hzero]
    exact Nat.div_pos (by omega) (by omega)
  have hmtx : (vec2mat (mat2vec (mulTranspose part blkAT)) (blkRows blkAT.rows 0)).rows =
      blkAT.rows := by
    rw [vec2mat, length_mat2vec]
    show part.rows * blkAT.rows / _ = _
    rw [hpart, Nat.mul_div_cancel_left _ hcols]
  have hplace : ∀ k' < blkSize blkAT.rows, ∀ i', i' + k' * blkSize blkAT.rows = 0 →
      k' = 0 ∧ i' = 0 := by
    intro k' _ i' h
    have hk' := Nat.eq_zero_of_add_eq_zero_left h
    rcases Nat.mul_eq_zero.mp hk' with hk' | hk'
    · exact ⟨hk', by omega⟩
    · omega
  have hfirst := lookup_dump rm (mat2vec (mulTranspose part blkAT) :: rest) (k := 0) (i := 0)
    (x := 0) (by omega) (by omega) (by rw [List.getD_cons_zero, hmtx]; omega) hcols hplace
    (by omega)
  have hmeant := (hreport _ _).mpr ⟨0, by omega, rfl, rfl⟩
  have hlength := congrArg List.length (Option.some.inj (hfirst.symm.trans hmeant))
  rw [List.length_map, List.length_map, List.length_range, List.length_range, hzero] at hlength
  have hless : blkAT.rows / blkSize blkAT.rows < blkAT.rows := Nat.div_lt_self (by omega) htwo
  omega

end Report

/-- The blocks of `solve` have each row once and in order, and `dump` reports each row once
    under its own id, just when the matrix has fewer than 2000 rows. -/
theorem blocks_tile_and_reported_iff [Semiring D] (blkAT : Mtx D) (rm : RowMap blkAT.rows)
    (hpos : 1 ≤ blkAT.rows) :
    Tiles blkAT.rows ∧ Reported blkAT rm.ids ↔ blkAT.rows < 2000 := by
  constructor
  · intro ⟨_, hreported⟩
    by_contra hge
    exact not_reported_of_ge rm (Nat.not_lt.mp hge) hreported
  · intro hlt
    exact ⟨tiles_iff.mpr (.inl hlt), reported_of_lt rm hpos hlt⟩

/-- The rows of a matrix numbered. -/
def numbered (rows : Nat) : RowMap rows where
  ids := (List.range rows).map toStr
  length_eq := by simp
  nodup := List.nodup_range.map toStr_injective
  ne_nil := by
    intro id hid
    obtain ⟨i, -, rfl⟩ := List.mem_map.mp hid
    exact toStr_ne_nil i

theorem blocks_tile_and_reported_iff_threeRows :
    Tiles 3 ∧ Reported (⟨3, 1, fun i _ => (i : ℤ)⟩ : Mtx ℤ) (numbered 3).ids :=
  (blocks_tile_and_reported_iff (⟨3, 1, fun i _ => (i : ℤ)⟩ : Mtx ℤ) (numbered 3) (by decide)).mpr
    (by decide)

/-- The blocks of 2000 rows are the rows 0 to 999 and the rows 2 to 1001. -/
theorem not_blocks_tile_twoThousand :
    ¬∀ (blkAT : Mtx ℤ) (rm : RowMap blkAT.rows), 1 ≤ blkAT.rows →
      Tiles blkAT.rows ∧ Reported blkAT rm.ids := by
  intro h
  have htiles := (h ⟨2000, 1, fun _ _ => 0⟩ (numbered 2000) (by decide)).1
  have hno : ¬(2000 < 2000 ∨ 2000 / 1000 = 1000) := by decide
  exact hno (tiles_iff.mp htiles)

end Paracel.CosSimSparse
