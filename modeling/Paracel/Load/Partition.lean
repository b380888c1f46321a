import Mathlib.Order.Monotone.Basic
import Paracel.Misc.Lines
import Paracel.Types

/-!
# Loading files by blocks

`partition::files_partition` and `files_load_lines_impl`
(`include/load/partition.hpp`). The bytes of all files in a row are cut into
blocks of one size, and who loads a block gets the lines that start in it. The
file in which the block ends is read up to that place; a file that ends before
is read up to an empty line, which stands for its end.
-/

namespace Paracel.Partition

open Lines

/-- The end of a line for `std::getline`. -/
abbrev newline : UInt8 := 10

/-- `displs[i]`: where file `i` starts. A file of `namelst` is its contents. -/
def displs (namelst : List Str) : Nat → Nat
  | 0 => 0
  | i + 1 => displs namelst i + (namelst.getD i []).length

/-- `sz`, the size of all files. -/
abbrev size (namelst : List Str) : Nat := displs namelst namelst.length

/-- `nbk`, the number of blocks. -/
def nblocks (np : Nat) (pattern : Str) (blkSz : Nat) : Nat :=
  np * if pattern = lit "linesplit" ∨ pattern = lit "fvec" then 1 else blkSz

/-- `slst[i]` and `elst[i]`; the last block goes to the end. -/
def block (sz nbk i : Nat) : Nat × Nat :=
  (i * (sz / nbk), if i = nbk - 1 then sz else (i + 1) * (sz / nbk))

/-- `files_partition`; `none` where its assertion fails. -/
def filesPartition (namelst : List Str) (np : Nat) (pattern : Str) (blkSz : Nat) :
    Option (List (Nat × Nat)) :=
  let nbk := nblocks np pattern blkSz
  (List.range nbk).mapM fun i =>
    let b := block (size namelst) nbk i
    if b.1 < b.2 then some b else none

/-- The loop over the files that finds `fst` and `fen`, after `n` turns. -/
def locateLoop (namelst : List Str) (st en : Nat) : Nat → Nat × Nat
  | 0 => (0, 0)
  | i + 1 =>
      let p := locateLoop namelst st en i
      (if displs namelst i ≤ st then i else p.1,
        if displs namelst (i + 1) < en then i + 1 else p.2)

/-- `fst` and `fen`: the files that a block starts and ends in. -/
def locate (namelst : List Str) (st en : Nat) : Nat × Nat :=
  locateLoop namelst st en namelst.length

section Load

variable {σ : Type} (func : σ → Str → σ)

/-- `f.seekg(offset - 1)` and the line after it: where reading starts and what is left. -/
def seek (offset : Nat) (f : Str) : Nat × Str :=
  if offset ≠ 0 then
    let l := getline newline (f.drop (offset - 1))
    (offset + l.1.length, l.2)
  else (offset, f)

/-- `while(offset + displs[fi] < en)`. -/
def readTo (displ en offset : Nat) (rest : Str) (s : σ) : σ :=
  if offset + displ < en then
    let l := getline newline rest
    readTo displ en (offset + (l.1.length + 1)) l.2 (func s l.1)
  else s
termination_by en - (offset + displ)

/-- `while(1)`, up to an empty line. -/
def readToBlank (rest : Str) (s : σ) : σ :=
  if (getline newline rest).1 = [] then s
  else readToBlank (getline newline rest).2 (func s (getline newline rest).1)
termination_by rest.length
decreasing_by exact length_getline_lt newline ‹_›

/-- One turn of the loop over the files. -/
def loadFile (namelst : List Str) (fen en fi offset : Nat) (s : σ) : σ :=
  let p := seek offset (namelst.getD fi [])
  if fi = fen then readTo func (displs namelst fi) en p.1 p.2 s
  else readToBlank func p.2 s

/-- `files_load_lines_impl` with a callback, which acts on a state; `none` where an assertion
    fails. -/
def filesLoadLines (namelst : List Str) (st en : Nat) (s : σ) : Option σ :=
  let fst := (locate namelst st en).1
  let fen := (locate namelst st en).2
  if fst ≤ fen ∧ displs namelst fst ≤ st then
    some ((List.range' fst (fen + 1 - fst)).foldl
      (fun s fi =>
        loadFile func namelst fen en fi (if fi = fst then st - displs namelst fst else 0) s)
      s)
  else none

end Load

/-- `files_load_lines_impl` without a callback does `lines.push_back(l)`. -/
def filesLoadLinesImpl (namelst : List Str) (st en : Nat) : Option (List Str) :=
  filesLoadLines (fun lines l => lines ++ [l]) namelst st en []

/-- What `files_load_lines_impl` gives for the blocks, in order. -/
def loadBlocks (namelst : List Str) (blocks : List (Nat × Nat)) : Option (List Str) :=
  (blocks.mapM fun b => filesLoadLinesImpl namelst b.1 b.2).map List.flatten

/-- The lines of a file. -/
def lines (f : Str) : List Str :=
  (linesFrom newline 0 f).map Prod.snd

/-- Where the block ends that byte `g` is in. -/
def blockEnd (sz nbk g : Nat) : Nat :=
  (block sz nbk (min (g / (sz / nbk)) (nbk - 1))).2

/-! ### The files in a row -/

section Files

variable {namelst : List Str}

theorem displs_mono {i j : Nat} (h : i ≤ j) : displs namelst i ≤ displs namelst j :=
  monotone_nat_of_le_succ (fun _ => Nat.le_add_right _ _) h

/-- The lines of file `k`, with their places in all files. -/
def part (namelst : List Str) (k : Nat) : List (Nat × Str) :=
  linesFrom newline (displs namelst k) (namelst.getD k [])

theorem mem_part {k : Nat} {p : Nat × Str} (h : p ∈ part namelst k) :
    displs namelst k ≤ p.1 ∧ p.1 < displs namelst (k + 1) :=
  mem_linesFrom h

/-- The lines of all files. -/
def allParts (namelst : List Str) : List (Nat × Str) :=
  (List.range namelst.length).flatMap (part namelst)

theorem map_snd_allParts (namelst : List Str) :
    (allParts namelst).map Prod.snd = namelst.flatMap lines := by
  have hfiles : namelst = (List.range namelst.length).map fun k => namelst.getD k [] := by
    apply List.ext_getElem
    · simp
    · intro k h _
      simp [h]
  rw [allParts, List.map_flatMap]
  conv_rhs => rw [hfiles, List.flatMap_map]
  apply List.flatMap_congr
  intro k _
  exact map_snd_linesFrom _ _

theorem mem_allParts {p : Nat × Str} (h : p ∈ allParts namelst) : p.1 < size namelst := by
  rcases List.mem_flatMap.mp h with ⟨k, hk, hp⟩
  rw [List.mem_range] at hk
  exact (mem_part hp).2.trans_le (displs_mono hk)

theorem pairwise_allParts (namelst : List Str) :
    (allParts namelst).Pairwise fun p q => p.1 < q.1 := by
  rw [allParts, List.pairwise_flatMap]
  refine ⟨fun k _ => pairwise_linesFrom _ _, ?_⟩
  apply List.Pairwise.imp_of_mem _ (List.pairwise_lt_range)
  intro i j hi hj hij p hp q hq
  rw [List.mem_range] at hi hj
  calc
    p.1 < displs namelst (i + 1) := (mem_part hp).2
    _ ≤ displs namelst j := displs_mono hij
    _ ≤ q.1 := (mem_part hq).1

end Files

/-! ### Where a block starts and ends -/

section Locate

variable {namelst : List Str} {st en : Nat}

theorem locateLoop_fst (namelst : List Str) (st en n : Nat) :
    displs namelst (locateLoop namelst st en n).1 ≤ st ∧
      ∀ i < n, displs namelst i ≤ st → i ≤ (locateLoop namelst st en n).1 := by
  induction n with
  | zero => simp [locateLoop, displs]
  | succ n ih =>
      rw [locateLoop]
      by_cases hn : displs namelst n ≤ st
      · rw [if_pos hn]
        exact ⟨hn, fun i hi _ => Nat.le_of_lt_succ hi⟩
      · rw [if_neg hn]
        refine ⟨ih.1, ?_⟩
        intro i hi hle
        rcases Nat.lt_succ_iff_lt_or_eq.mp hi with hi | rfl
        · exact ih.2 i hi hle
        · exact absurd hle hn

theorem locateLoop_fst_lt (namelst : List Str) (st en : Nat) {n : Nat} (hn : 0 < n) :
    (locateLoop namelst st en n).1 < n := by
  induction n with
  | zero => omega
  | succ n ih =>
      rw [locateLoop]
      split
      · exact Nat.lt_succ_self n
      · by_cases h : n = 0
        · simp [h, locateLoop]
        · exact (ih (Nat.pos_of_ne_zero h)).trans (Nat.lt_succ_self n)

theorem locateLoop_snd (namelst : List Str) (st : Nat) {en : Nat} (hen : 0 < en) (n : Nat) :
    displs namelst (locateLoop namelst st en n).2 < en ∧
      ∀ i < n, displs namelst (i + 1) < en → i + 1 ≤ (locateLoop namelst st en n).2 := by
  induction n with
  | zero => simpa [locateLoop, displs] using hen
  | succ n ih =>
      rw [locateLoop]
      by_cases hn : displs namelst (n + 1) < en
      · rw [if_pos hn]
        exact ⟨hn, fun i hi _ => hi⟩
      · rw [if_neg hn]
        refine ⟨ih.1, ?_⟩
        intro i hi hlt
        rcases Nat.lt_succ_iff_lt_or_eq.mp hi with hi | rfl
        · exact ih.2 i hi hlt
        · exact absurd hlt hn

/-- A block within the files starts in file `fst` and ends in file `fen`. -/
structure Located (namelst : List Str) (st en fst fen : Nat) : Prop where
  le_st : displs namelst fst ≤ st
  st_lt : st < displs namelst (fst + 1)
  lt_en : displs namelst fen < en
  en_le : en ≤ displs namelst (fen + 1)
  le : fst ≤ fen
  lt : fen < namelst.length

theorem locate_spec (hlt : st < en) (hen : en ≤ size namelst) :
    Located namelst st en (locate namelst st en).1 (locate namelst st en).2 := by
  rcases locateLoop_fst namelst st en namelst.length with ⟨hst, hlast⟩
  rcases locateLoop_snd namelst st (Nat.zero_lt_of_lt hlt) namelst.length with ⟨hfen, hlast'⟩
  have hpos : 0 < namelst.length := by
    by_contra h
    have h0 : size namelst = 0 := by
      rw [size, Nat.eq_zero_of_not_pos h]
      rfl
    omega
  have hfst := locateLoop_fst_lt namelst st en hpos
  rw [locate]
  generalize (locateLoop namelst st en namelst.length).1 = fst at *
  generalize (locateLoop namelst st en namelst.length).2 = fen at *
  have hfenlt : fen < namelst.length := by
    by_contra h
    have hle := (displs_mono (Nat.le_of_not_lt h)).trans_lt hfen
    exact absurd hen (Nat.not_le.mpr hle)
  have hstlt : st < displs namelst (fst + 1) := by
    by_contra h
    rw [Nat.not_lt] at h
    by_cases heq : fst + 1 = namelst.length
    · rw [heq] at h
      exact absurd (hen.trans h) (Nat.not_le.mpr hlt)
    · have := hlast (fst + 1) (by omega) h
      omega
  have henle : en ≤ displs namelst (fen + 1) := by
    by_contra h
    have := hlast' fen hfenlt (Nat.lt_of_not_le h)
    omega
  refine ⟨hst, hstlt, hfen, henle, ?_, hfenlt⟩
  by_contra h
  have hbefore : displs namelst (fen + 1) ≤ displs namelst fst := displs_mono (by omega)
  omega

end Locate

/-! ### What the loops read -/

section Read

variable {σ : Type} (func : σ → Str → σ)

/-- After the seek the lines are those that start at `offset` or later. -/
theorem linesFrom_seek (displ offset : Nat) (f : Str) :
    linesFrom newline (displ + (seek offset f).1) (seek offset f).2 =
      (linesFrom newline displ f).filter fun p => displ + offset ≤ p.1 := by
  by_cases h : offset = 0
  · rw [seek, if_neg (by simpa using h), h, List.filter_eq_self.mpr]
    · rfl
    · rintro ⟨g, l⟩ hmem
      exact decide_eq_true (mem_linesFrom hmem).1
  · rw [seek, if_pos h]
    exact linesFrom_skip displ offset f (Nat.pos_of_ne_zero h)

/-- The rest after the seek reaches to the end of the file. -/
theorem length_le_seek (offset : Nat) (f : Str) :
    f.length ≤ (seek offset f).1 + (seek offset f).2.length := by
  by_cases h : offset = 0
  · rw [seek, if_neg (by simpa using h)]
    exact Nat.le_add_left _ _
  · rw [seek, if_pos h]
    have hline := length_le_getline newline (f.drop (offset - 1))
    rw [List.length_drop] at hline
    dsimp only
    omega

theorem readTo_eq {displ en : Nat} (offset : Nat) (rest : Str)
    (hen : en ≤ displ + offset + rest.length) (s : σ) :
    readTo func displ en offset rest s =
      (((linesFrom newline (displ + offset) rest).filter fun p => p.1 < en).map
        Prod.snd).foldl func s := by
  induction rest using text_induction newline generalizing offset s with
  | nil =>
      rw [List.length_nil] at hen
      rw [readTo, if_neg (by omega), linesFrom_nil]
      rfl
  | last l hne hl =>
      rw [readTo, linesFrom_of_notMem _ hne hl, getline_of_notMem hl]
      dsimp only
      by_cases hlt : displ + offset < en
      · rw [if_pos (by omega), readTo, if_neg (by omega), List.filter_cons_of_pos (by simpa)]
        rfl
      · rw [if_neg (by omega), List.filter_cons_of_neg (by simpa using hlt)]
        rfl
  | line l tail hl ih =>
      rw [List.length_append, List.length_cons] at hen
      rw [readTo, linesFrom_append _ hl, getline_append hl]
      dsimp only
      by_cases hlt : displ + offset < en
      · have hrest := ih (offset + (l.length + 1)) (by omega) (func s l)
        rw [if_pos (by omega), List.filter_cons_of_pos (by simpa), hrest,
          show displ + (offset + (l.length + 1)) = displ + offset + l.length + 1 by omega]
        rfl
      · rw [if_neg (by omega), List.filter_cons_of_neg (by simpa using hlt),
          List.filter_eq_nil_iff.mpr]
        · rfl
        · rintro ⟨g, l'⟩ hmem
          have hg := (mem_linesFrom hmem).1
          simp only [decide_eq_true_eq]
          omega

theorem readToBlank_eq (pos : Nat) (rest : Str) (s : σ) :
    readToBlank func rest s =
      (((linesFrom newline pos rest).map Prod.snd).takeWhile fun l => l ≠ []).foldl
        func s := by
  induction rest using text_induction newline generalizing pos s with
  | nil =>
      rw [readToBlank, getline_nil, if_pos rfl, linesFrom_nil]
      rfl
  | last l hne hl =>
      rw [readToBlank, linesFrom_of_notMem pos hne hl, getline_of_notMem hl, if_neg hne,
        readToBlank, getline_nil, if_pos rfl]
      simp [hne]
  | line l tail hl ih =>
      rw [readToBlank, linesFrom_append pos hl, getline_append hl, List.map_cons]
      by_cases hne : l = []
      · rw [if_pos hne, List.takeWhile_cons_of_neg (by simpa using hne)]
        rfl
      · rw [if_neg hne, List.takeWhile_cons_of_pos (by simpa using hne), List.foldl_cons]
        exact ih _ _

end Read

/-! ### What a block gets -/

/-- The numbers below `n`, cut at `a` and at `b`. -/
theorem range_split {a b n : Nat} (hab : a ≤ b) (hbn : b ≤ n) :
    List.range n = List.range a ++ (List.range' a (b - a) ++ List.range' b (n - b)) := by
  have hbehind : List.range' a (b - a) ++ List.range' b (n - b) = List.range' a (n - a) := by
    have h := List.range'_append_1 (s := a) (m := b - a) (n := n - b)
    rwa [show a + (b - a) = b by omega, show b - a + (n - b) = n - a by omega] at h
  have hall := List.range'_append_1 (s := 0) (m := a) (n := n - a)
  rw [Nat.zero_add, show a + (n - a) = n by omega] at hall
  rw [hbehind, List.range_eq_range', List.range_eq_range', hall]

section Block

variable {namelst : List Str} {b : Nat × Nat}

/-- The lines of file `k` that start in a block. -/
def blockPart (namelst : List Str) (b : Nat × Nat) (k : Nat) : List Str :=
  (within b (part namelst k)).map Prod.snd

/-- The lines of file `k` that are read for a block: where the file ends before the block, only
    those up to a blank line. -/
def piece (namelst : List Str) (b : Nat × Nat) (k : Nat) : List Str :=
  if displs namelst (k + 1) < b.2 then
    (blockPart namelst b k).takeWhile fun l => l ≠ []
  else blockPart namelst b k

theorem piece_sublist (namelst : List Str) (b : Nat × Nat) (k : Nat) :
    (piece namelst b k).Sublist (blockPart namelst b k) := by
  unfold piece
  split
  · exact List.takeWhile_sublist _
  · exact List.Sublist.refl _

/-- No line is lost unless a blank one starts in the block, in a file that ends before. -/
theorem piece_eq_iff (namelst : List Str) (b : Nat × Nat) (k : Nat) :
    piece namelst b k = blockPart namelst b k ↔
      ∀ g, (g, []) ∈ part namelst k → b.1 ≤ g → g < b.2 → b.2 ≤ displs namelst (k + 1) := by
  have hblank : ([] : Str) ∈ blockPart namelst b k ↔
      ∃ g, (g, []) ∈ part namelst k ∧ b.1 ≤ g ∧ g < b.2 := by
    simp [blockPart, mem_within]
  unfold piece
  split
  · rename_i hend
    rw [List.takeWhile_eq_self_iff]
    constructor
    · intro hall g hg hle hlt
      have hmem := hblank.mpr ⟨g, hg, hle, hlt⟩
      exact absurd rfl (of_decide_eq_true (hall [] hmem))
    · intro hnone l hl
      refine decide_eq_true ?_
      rintro rfl
      rcases hblank.mp hl with ⟨g, hg, hle, hlt⟩
      exact absurd (hnone g hg hle hlt) (Nat.not_le.mpr hend)
  · rename_i hend
    simp only [true_iff]
    intro g _ _ _
    exact Nat.le_of_not_lt hend

/-- A file without lines in the block. -/
theorem piece_eq_nil {k : Nat}
    (h : displs namelst (k + 1) ≤ b.1 ∨ b.2 ≤ displs namelst k) : piece namelst b k = [] := by
  have hnil : blockPart namelst b k = [] := by
    rw [blockPart, List.map_eq_nil_iff]
    apply List.eq_nil_iff_forall_not_mem.mpr
    intro p hp
    rw [mem_within] at hp
    have hpos := mem_part hp.1
    omega
  exact List.sublist_nil.mp (hnil ▸ piece_sublist namelst b k)

section Func

variable {σ : Type} (func : σ → Str → σ)

theorem loadFile_eq {fst fen k : Nat} (hloc : Located namelst b.1 b.2 fst fen) (hk : fst ≤ k)
    (hk' : k ≤ fen) (s : σ) :
    loadFile func namelst fen b.2 k (if k = fst then b.1 - displs namelst fst else 0) s =
      (piece namelst b k).foldl func s := by
  have hlen : k < namelst.length := hk'.trans_lt hloc.lt
  have hoff : ∀ p ∈ part namelst k,
      (displs namelst k + (if k = fst then b.1 - displs namelst fst else 0) ≤ p.1 ↔
        b.1 ≤ p.1) := by
    intro p hp
    have hle := hloc.le_st
    split
    · rename_i heq
      rw [heq]
      omega
    · have hlate : displs namelst (fst + 1) ≤ displs namelst k := displs_mono (by omega)
      have hpos := (mem_part hp).1
      have hlt := hloc.st_lt
      omega
  generalize (if k = fst then b.1 - displs namelst fst else 0) = offset at *
  have hseek := linesFrom_seek (displs namelst k) offset (namelst.getD k [])
  by_cases hend : k = fen
  · have hsize := length_le_seek offset (namelst.getD k [])
    have hen := hloc.en_le
    rw [← hend, displs] at hen
    rw [loadFile, if_pos hend, readTo_eq _ _ _ (by omega), hseek, List.filter_filter, piece,
      if_neg (by rw [hend]; exact Nat.not_lt.mpr hloc.en_le), blockPart, within]
    congr 2
    apply List.filter_congr
    intro p hp
    rw [← Bool.decide_and, decide_eq_decide, hoff p hp]
    exact And.comm
  · have hbefore : displs namelst (k + 1) ≤ displs namelst fen := displs_mono (by omega)
    have hen := hbefore.trans_lt hloc.lt_en
    rw [loadFile, if_neg hend, readToBlank_eq func (displs namelst k + (seek offset _).1), hseek,
      piece, if_pos hen, blockPart, within]
    congr 3
    apply List.filter_congr
    intro p hp
    have hpos := (mem_part hp).2
    rw [decide_eq_decide, hoff p hp]
    omega

/-- What `files_load_lines_impl` gives to its callback. -/
theorem filesLoadLines_eq (hlt : b.1 < b.2) (hen : b.2 ≤ size namelst) (s : σ) :
    filesLoadLines func namelst b.1 b.2 s =
      some (((List.range namelst.length).flatMap (piece namelst b)).foldl func s) := by
  have hloc := locate_spec hlt hen
  rw [filesLoadLines]
  generalize (locate namelst b.1 b.2).1 = fst at *
  generalize (locate namelst b.1 b.2).2 = fen at *
  rw [if_pos ⟨hloc.le, hloc.le_st⟩]
  have hle := hloc.le
  have hlast := hloc.lt
  have hsplit := range_split (a := fst) (b := fen + 1) (n := namelst.length) (by omega) hlast
  have hbefore : (List.range fst).flatMap (piece namelst b) = [] := by
    rw [List.flatMap_eq_nil_iff]
    intro k hk
    rw [List.mem_range] at hk
    exact piece_eq_nil (Or.inl ((displs_mono hk).trans hloc.le_st))
  have hafter :
      (List.range' (fen + 1) (namelst.length - (fen + 1))).flatMap (piece namelst b) = [] := by
    rw [List.flatMap_eq_nil_iff]
    intro k hk
    rw [List.mem_range'_1] at hk
    exact piece_eq_nil (Or.inr (hloc.en_le.trans (displs_mono hk.1)))
  rw [hsplit, List.flatMap_append, List.flatMap_append, hbefore, hafter, List.nil_append,
    List.append_nil, List.foldl_flatMap]
  congr 1
  apply List.foldl_ext
  intro s k hk
  rw [List.mem_range'_1] at hk
  exact loadFile_eq func hloc hk.1 (by omega) s

end Func

/-- Without a callback the lines are collected. -/
theorem filesLoadLinesImpl_eq (hlt : b.1 < b.2) (hen : b.2 ≤ size namelst) :
    filesLoadLinesImpl namelst b.1 b.2 =
      some ((List.range namelst.length).flatMap (piece namelst b)) := by
  rw [filesLoadLinesImpl, filesLoadLines_eq _ hlt hen, List.foldl_append_eq_append,
    List.nil_append, ← List.flatMap_def, List.flatMap_singleton']

/-- The callback gets the lines that are collected without one. -/
theorem filesLoadLines_foldl {σ : Type} (func : σ → Str → σ) (hlt : b.1 < b.2)
    (hen : b.2 ≤ size namelst) (s : σ) :
    filesLoadLines func namelst b.1 b.2 s =
      (filesLoadLinesImpl namelst b.1 b.2).map (List.foldl func s) := by
  rw [filesLoadLines_eq func hlt hen, filesLoadLinesImpl_eq hlt hen]
  rfl

end Block

/-! ### The blocks in a row -/

section Blocks

variable {sz nbk : Nat}

theorem block_fst_lt (hnbk : 1 ≤ nbk) (hsz : nbk ≤ sz) {i : Nat} (hi : i < nbk) :
    (block sz nbk i).1 < (block sz nbk i).2 ∧ (block sz nbk i).2 ≤ sz := by
  have hbk : 0 < sz / nbk := Nat.div_pos hsz hnbk
  have hnext : i * (sz / nbk) < (i + 1) * (sz / nbk) := Nat.mul_lt_mul_of_pos_right (by omega) hbk
  have hend : (i + 1) * (sz / nbk) ≤ sz :=
    (Nat.mul_le_mul_right _ hi).trans (Nat.mul_div_le sz nbk)
  simp only [block]
  split
  · exact ⟨hnext.trans_le hend, le_rfl⟩
  · exact ⟨hnext, hend⟩

theorem tiles_block (hnbk : 1 ≤ nbk) (hsz : nbk ≤ sz) {i n : Nat} (h : i + (n + 1) = nbk) :
    Tiles sz (i * (sz / nbk)) ((List.range' i (n + 1)).map (block sz nbk)) := by
  have hlt := (block_fst_lt hnbk hsz (i := i) (by omega)).1
  induction n generalizing i with
  | zero =>
      have hlast : (block sz nbk i).2 = sz := if_pos (by omega)
      exact ⟨rfl, hlt.le, hlast⟩
  | succ n ih =>
      have hnext : (block sz nbk i).2 = (i + 1) * (sz / nbk) := if_neg (by omega)
      have hrest := ih (i := i + 1) (by omega) (block_fst_lt hnbk hsz (by omega)).1
      rw [List.range'_succ, List.map_cons]
      refine ⟨rfl, hlt.le, ?_⟩
      rw [hnext]
      exact hrest

theorem tiles_blocks (hnbk : 1 ≤ nbk) (hsz : nbk ≤ sz) :
    Tiles sz 0 ((List.range nbk).map (block sz nbk)) := by
  have h := tiles_block hnbk hsz (i := 0) (n := nbk - 1) (by omega)
  rwa [Nat.zero_mul, Nat.sub_add_cancel hnbk, ← List.range_eq_range'] at h

/-- The block that a byte is in. -/
theorem block_iff (hnbk : 1 ≤ nbk) (hsz : nbk ≤ sz) {g i : Nat} (hg : g < sz) (hi : i < nbk) :
    (block sz nbk i).1 ≤ g ∧ g < (block sz nbk i).2 ↔ i = min (g / (sz / nbk)) (nbk - 1) := by
  have hbk : 0 < sz / nbk := Nat.div_pos hsz hnbk
  have hle : i * (sz / nbk) ≤ g ↔ i ≤ g / (sz / nbk) := (Nat.le_div_iff_mul_le hbk).symm
  have hlt : g < (i + 1) * (sz / nbk) ↔ g / (sz / nbk) < i + 1 := (Nat.div_lt_iff_lt_mul hbk).symm
  simp only [block]
  split
  · rw [hle]
    omega
  · rw [hle, hlt]
    omega

end Blocks

/-! ### The blocks tile the files -/

section Tiling

variable {namelst : List Str} {np blkSz : Nat} {pattern : Str}

theorem nblocks_pos (hnp : 1 ≤ np) (hblk : 1 ≤ blkSz) : 1 ≤ nblocks np pattern blkSz := by
  unfold nblocks
  split
  · omega
  · exact Nat.mul_pos hnp hblk

theorem filesPartition_eq (hnbk : 1 ≤ nblocks np pattern blkSz)
    (hsz : nblocks np pattern blkSz ≤ size namelst) :
    filesPartition namelst np pattern blkSz =
      some ((List.range (nblocks np pattern blkSz)).map
        (block (size namelst) (nblocks np pattern blkSz))) := by
  apply mapM_eq_some
  intro i hi
  rw [List.mem_range] at hi
  exact if_pos (block_fst_lt hnbk hsz hi).1

/-- With fewer bytes than blocks all blocks but the last are empty, and so is a last one that
    has no bytes at all. -/
theorem filesPartition_eq_none (hnbk : 1 ≤ nblocks np pattern blkSz)
    (hsz : size namelst < nblocks np pattern blkSz) :
    filesPartition namelst np pattern blkSz = none := by
  have hwidth : size namelst / nblocks np pattern blkSz = 0 := Nat.div_eq_of_lt hsz
  have hfirst : ¬(block (size namelst) (nblocks np pattern blkSz) 0).1 <
      (block (size namelst) (nblocks np pattern blkSz) 0).2 := by
    simp only [block, hwidth]
    split <;> omega
  rw [filesPartition]
  generalize nblocks np pattern blkSz = nbk at *
  obtain ⟨m, rfl⟩ : ∃ m, nbk = m + 1 := ⟨nbk - 1, by omega⟩
  dsimp only
  rw [List.range_succ_eq_map, List.mapM_cons, if_neg hfirst]
  rfl

/-- The blocks are non-empty and tile the files just when there is a byte for each of them;
    otherwise the assertion fails. -/
theorem files_partition_tiles_iff (hnp : 1 ≤ np) (hblk : 1 ≤ blkSz) :
    (∃ bs, filesPartition namelst np pattern blkSz = some bs ∧
      bs.length = nblocks np pattern blkSz ∧ Tiles (size namelst) 0 bs ∧ ∀ b ∈ bs, b.1 < b.2) ↔
      nblocks np pattern blkSz ≤ size namelst := by
  have hnbk : 1 ≤ nblocks np pattern blkSz := nblocks_pos hnp hblk
  constructor
  · rintro ⟨bs, hbs, -⟩
    by_contra hsz
    rw [filesPartition_eq_none hnbk (Nat.lt_of_not_le hsz)] at hbs
    cases hbs
  · intro hsz
    refine ⟨_, filesPartition_eq hnbk hsz, by simp, tiles_blocks hnbk hsz, ?_⟩
    intro b hb
    rcases List.mem_map.mp hb with ⟨i, hi, rfl⟩
    exact (block_fst_lt hnbk hsz (List.mem_range.mp hi)).1

theorem files_partition_tiles_iff_lines :
    ∃ bs, filesPartition [lit "ab\n", lit "c\n"] 2 (lit "linesplit") 32 = some bs ∧
      bs.length = 2 ∧ Tiles 5 0 bs ∧ ∀ b ∈ bs, b.1 < b.2 :=
  (files_partition_tiles_iff (by decide) (by decide)).mpr (by decide)

/-- One byte does not make 32 blocks, of which the first is empty. -/
theorem not_tiles_oneByte :
    0 < size [lit "a"] ∧
      ¬∃ bs, filesPartition [lit "a"] 1 (lit "fmap") 32 = some bs ∧
        bs.length = nblocks 1 (lit "fmap") 32 ∧ Tiles (size [lit "a"]) 0 bs ∧
        ∀ b ∈ bs, b.1 < b.2 := by
  refine ⟨by decide, ?_⟩
  rintro ⟨bs, hbs, -⟩
  rw [filesPartition_eq_none (by decide) (by decide)] at hbs
  cases hbs

end Tiling

/-! ### Every line is loaded once -/

section Once

variable {namelst : List Str} {np blkSz : Nat} {pattern : Str}

theorem loadBlocks_eq {bs : List (Nat × Nat)}
    (hbs : ∀ b ∈ bs, b.1 < b.2 ∧ b.2 ≤ size namelst) :
    loadBlocks namelst bs =
      some (bs.flatMap fun b => (List.range namelst.length).flatMap (piece namelst b)) := by
  rw [loadBlocks, mapM_eq_some fun b hb => filesLoadLinesImpl_eq (hbs b hb).1 (hbs b hb).2]
  rfl

/-- Without the early ends the blocks give all lines. -/
theorem flatMap_blockPart {bs : List (Nat × Nat)} (hbs : Tiles (size namelst) 0 bs) :
    (bs.flatMap fun b => (List.range namelst.length).flatMap (blockPart namelst b)) =
      namelst.flatMap lines := by
  have hpart : ∀ b, (List.range namelst.length).flatMap (blockPart namelst b) =
      (within b (allParts namelst)).map Prod.snd := by
    intro b
    rw [within, allParts, List.filter_flatMap, List.map_flatMap]
    rfl
  have hall := hbs.flatMap_within (pairwise_allParts namelst) fun p hp =>
    ⟨Nat.zero_le _, mem_allParts hp⟩
  rw [List.flatMap_congr fun b _ => hpart b, ← List.map_flatMap, hall, map_snd_allParts]

/-- No block loses a line just when each blank line is in a block that ends no later than its
    file. -/
theorem pieces_eq_iff {nbk : Nat} (hnbk : 1 ≤ nbk) (hsz : nbk ≤ size namelst) :
    (∀ i < nbk, ∀ k < namelst.length,
        piece namelst (block (size namelst) nbk i) k =
          blockPart namelst (block (size namelst) nbk i) k) ↔
      ∀ k < namelst.length, ∀ g, (g, []) ∈ part namelst k →
        blockEnd (size namelst) nbk g ≤ displs namelst (k + 1) := by
  have hbyte : ∀ k < namelst.length, ∀ g, (g, []) ∈ part namelst k → g < size namelst :=
    fun k hk g hg => (mem_part hg).2.trans_le (displs_mono hk)
  constructor
  · intro h k hk g hg
    have hi : min (g / (size namelst / nbk)) (nbk - 1) < nbk := by omega
    have hin := (block_iff hnbk hsz (hbyte k hk g hg) hi).mpr rfl
    exact (piece_eq_iff namelst _ k).mp (h _ hi k hk) g hg hin.1 hin.2
  · intro h i hi k hk
    rw [piece_eq_iff]
    intro g hg hle hlt
    have hend := h k hk g hg
    rwa [blockEnd, ← (block_iff hnbk hsz (hbyte k hk g hg) hi).mp ⟨hle, hlt⟩] at hend

/-- The blocks give every line once and in order just when each blank line is in a block that
    ends no later than its file. -/
theorem files_load_lines_once_iff (hnp : 1 ≤ np) (hblk : 1 ≤ blkSz)
    (hsz : nblocks np pattern blkSz ≤ size namelst) :
    (filesPartition namelst np pattern blkSz).bind (loadBlocks namelst) =
        some (namelst.flatMap lines) ↔
      ∀ k < namelst.length, ∀ g,
        (g, []) ∈ linesFrom newline (displs namelst k) (namelst.getD k []) →
          blockEnd (size namelst) (nblocks np pattern blkSz) g ≤ displs namelst (k + 1) := by
  have hnbk : 1 ≤ nblocks np pattern blkSz := nblocks_pos hnp hblk
  generalize hn : nblocks np pattern blkSz = nbk at *
  rw [filesPartition_eq (hn ▸ hnbk) (hn ▸ hsz), hn]
  have hbs : ∀ b ∈ (List.range nbk).map (block (size namelst) nbk),
      b.1 < b.2 ∧ b.2 ≤ size namelst := by
    intro b hb
    rcases List.mem_map.mp hb with ⟨i, hi, rfl⟩
    exact block_fst_lt hnbk hsz (List.mem_range.mp hi)
  rw [Option.bind_some, loadBlocks_eq hbs, Option.some_inj,
    ← flatMap_blockPart (tiles_blocks hnbk hsz),
    flatMap_eq_iff_of_sublist fun b _ =>
      List.Sublist.flatMap_right _ fun k _ => piece_sublist namelst b k]
  refine Iff.trans ?_ (pieces_eq_iff hnbk hsz)
  simp only [List.forall_mem_map, List.mem_range,
    flatMap_eq_iff_of_sublist fun k _ => piece_sublist namelst _ k]

/-- A blank line in the second file, which is the last. -/
def blankLast : List Str := [lit "a\n", lit "\nb\n"]

theorem files_load_lines_once_iff_blankLast :
    (filesPartition blankLast 2 (lit "linesplit") 32).bind (loadBlocks blankLast) =
      some (blankLast.flatMap lines) := by
  apply (files_load_lines_once_iff (by decide) (by decide) (by decide)).mpr
  intro k hk g hg
  have hfirst : linesFrom newline (displs blankLast 0) (blankLast.getD 0 []) = [(0, lit "a")] := by
    decide +kernel
  have hsecond : linesFrom newline (displs blankLast 1) (blankLast.getD 1 []) =
      [(2, []), (3, lit "b")] := by
    decide +kernel
  have hk' : k = 0 ∨ k = 1 := Nat.le_one_iff_eq_zero_or_eq_one.mp (Nat.le_of_lt_succ hk)
  rcases hk' with rfl | rfl
  · rw [hfirst] at hg
    simp [lit] at hg
  · rw [hsecond] at hg
    simp [lit] at hg
    rw [hg]
    decide

/-- A blank line in the first file, which ends before the block does. -/
def blankFirst : List Str := [lit "a\n\nb\n", lit "c\n"]

/-- The blank line is taken for the end of the file: it and the line after it are lost. -/
theorem files_load_lines_blankFirst :
    nblocks 1 (lit "linesplit") 32 ≤ size blankFirst ∧
      (filesPartition blankFirst 1 (lit "linesplit") 32).bind (loadBlocks blankFirst) =
        some [lit "a", lit "c"] ∧
      blankFirst.flatMap lines = [lit "a", [], lit "b", lit "c"] ∧
      (filesPartition blankFirst 1 (lit "linesplit") 32).bind (loadBlocks blankFirst) ≠
        some (blankFirst.flatMap lines) := by
  have hload : (filesPartition blankFirst 1 (lit "linesplit") 32).bind (loadBlocks blankFirst) =
      some [lit "a", lit "c"] := by
    decide +kernel
  have hlines : blankFirst.flatMap lines = [lit "a", [], lit "b", lit "c"] := by
    decide +kernel
  refine ⟨by decide, hload, hlines, ?_⟩
  rw [hload, hlines]
  decide

end Once

end Paracel.Partition
