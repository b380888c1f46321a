import Paracel.Load.Partition

/-!
# One file, cut anywhere

`partition::file_partition` and `file_load_lines_impl`
(`include/load/partition.hpp`), which the tests load single files with. Nothing
depends on the cuts being in equal distance: each block gets the lines that start
in it, wherever it starts and ends, and a list of one file is loaded the same way.
-/

namespace Paracel.Partition

open Lines

/-- `file_partition`: the blocks of `ss` and `ee`. -/
def filePartition (f : Str) (np : Nat) : List (Nat × Nat) :=
  (List.range np).map (block f.length np)

/-- `file_load_lines_impl`. -/
def fileLoadLinesImpl (f : Str) (st en : Nat) : List Str :=
  let p := seek st f
  readTo (fun lines l => lines ++ [l]) 0 en p.1 p.2 []

variable {f : Str}

/-- A block gets the lines that start in it. -/
theorem fileLoadLinesImpl_eq (st : Nat) {en : Nat} (hen : en ≤ f.length) :
    fileLoadLinesImpl f st en = (within (st, en) (linesFrom newline 0 f)).map Prod.snd := by
  have hsize := length_le_seek st f
  have hseek := linesFrom_seek 0 st f
  rw [Nat.zero_add] at hseek
  rw [fileLoadLinesImpl]
  rw [readTo_eq _ _ _ (by omega), Nat.zero_add, hseek, List.filter_filter,
    List.foldl_append_eq_append, List.nil_append, ← List.flatMap_def, List.flatMap_singleton',
    within]
  congr 1
  apply List.filter_congr
  intro p _
  rw [← Bool.decide_and, decide_eq_decide, Nat.zero_add]
  exact And.comm

theorem part_zero (f : Str) : part [f] 0 = linesFrom newline 0 f := rfl

theorem size_singleton (f : Str) : size [f] = f.length := Nat.zero_add _

/-- A file that is alone in the list does not end before a block. -/
theorem filesLoadLinesImpl_singleton {st en : Nat} (hlt : st < en) (hen : en ≤ f.length) :
    filesLoadLinesImpl [f] st en =
      some ((within (st, en) (linesFrom newline 0 f)).map Prod.snd) := by
  have hsize : en ≤ size [f] := by rwa [size_singleton]
  have hwhole : piece [f] (st, en) 0 = blockPart [f] (st, en) 0 := by
    rw [piece_eq_iff]
    exact fun _ _ _ _ => hsize
  rw [filesLoadLinesImpl_eq (b := (st, en)) hlt hsize, List.length_singleton, List.range_one,
    List.flatMap_singleton, hwhole, blockPart, part_zero]

/-- Blocks that tile the file give all lines. -/
theorem flatMap_fileLoadLinesImpl {bs : List (Nat × Nat)} (hbs : Tiles f.length 0 bs)
    (hend : ∀ b ∈ bs, b.2 ≤ f.length) :
    (bs.flatMap fun b => fileLoadLinesImpl f b.1 b.2) = lines f := by
  have hin : ∀ p ∈ linesFrom newline 0 f, 0 ≤ p.1 ∧ p.1 < f.length := by
    intro p hp
    have h := mem_linesFrom hp
    rwa [Nat.zero_add] at h
  have hall := hbs.flatMap_within (pairwise_linesFrom 0 f) hin
  rw [List.flatMap_congr fun b hb => fileLoadLinesImpl_eq b.1 (hend b hb), ← List.map_flatMap,
    hall, lines]

/-- Whatever the cuts are, each block gets the lines whose first byte it has, and together the
    blocks give all lines in order. -/
theorem file_load_lines_cuts (f : Str) {cuts : List Nat} (hcuts : (0 :: cuts).Pairwise (· < ·))
    (hlast : cuts.getLastD 0 = f.length) :
    (∀ b ∈ (0 :: cuts).zip cuts,
      fileLoadLinesImpl f b.1 b.2 =
          ((linesFrom newline 0 f).filter fun p => b.1 ≤ p.1 ∧ p.1 < b.2).map Prod.snd ∧
        filesLoadLinesImpl [f] b.1 b.2 = some (fileLoadLinesImpl f b.1 b.2)) ∧
      (((0 :: cuts).zip cuts).flatMap fun b => fileLoadLinesImpl f b.1 b.2) = lines f := by
  have htiles := tiles_zip hcuts
  rw [hlast] at htiles
  have hblock := mem_zip_cuts hcuts
  rw [hlast] at hblock
  refine ⟨?_, ?_⟩
  · intro b hb
    have hin := hblock b hb
    have hone := fileLoadLinesImpl_eq b.1 hin.2
    refine ⟨hone, ?_⟩
    rw [filesLoadLinesImpl_singleton hin.1 hin.2, hone]
  · exact flatMap_fileLoadLinesImpl htiles fun b hb => (hblock b hb).2

/-- Cuts on a newline, behind one and in a last line without one. -/
theorem file_load_lines_cuts_blank :
    let f := lit "ab\n\nc"
    (∀ b ∈ [(0, 2), (2, 3), (3, 5)],
      fileLoadLinesImpl f b.1 b.2 =
          ((linesFrom newline 0 f).filter fun p => b.1 ≤ p.1 ∧ p.1 < b.2).map Prod.snd ∧
        filesLoadLinesImpl [f] b.1 b.2 = some (fileLoadLinesImpl f b.1 b.2)) ∧
      ([(0, 2), (2, 3), (3, 5)].flatMap fun b => fileLoadLinesImpl f b.1 b.2) = lines f :=
  @file_load_lines_cuts (lit "ab\n\nc") [2, 3, 5] (by decide) (by decide)

/-- What the test does: the equal blocks give all lines of a file with a byte for each. -/
theorem flatMap_filePartition {np : Nat} (hnp : 1 ≤ np) (hsz : np ≤ f.length) :
    ((filePartition f np).flatMap fun b => fileLoadLinesImpl f b.1 b.2) = lines f := by
  apply flatMap_fileLoadLinesImpl (tiles_blocks hnp hsz)
  intro b hb
  rcases List.mem_map.mp hb with ⟨i, hi, rfl⟩
  exact (block_fst_lt hnp hsz (List.mem_range.mp hi)).2

end Paracel.Partition
