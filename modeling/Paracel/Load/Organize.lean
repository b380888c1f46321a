import Mathlib.Data.List.FinRange
import Mathlib.Data.Nat.Sqrt
import Paracel.Comm.Alltoall
import Paracel.Misc.Slots
import Paracel.Types

/-!
# Distributing the entries of a matrix

`scheduler::dim_init`, `h`, `lines_organize` and `exchange` for string ids
(`include/load/scheduler.hpp`, `src/scheduler.cpp`, `include/utils/decomp.hpp`).
Every rank parses its lines into entries and puts each into the slot of the rank
that holds the block of the matrix with its row and column; `alltoall` then takes
the slots to their ranks.
-/

namespace Paracel

/-! ### The process grid -/

/-- `npfactx`. -/
def npfactx (np : Nat) : Nat × Nat := (np, 1)

/-- `npfacty`. -/
def npfacty (np : Nat) : Nat × Nat := (1, np)

/-- The loop of `npfact2d`, which goes down from `upbnd` to 2, with `row_master`. -/
def npfact2dLoop (np : Nat) : Nat → Nat × Nat
  | 0 | 1 => (np, 1)
  | upbnd + 2 =>
      if np % (upbnd + 2) = 0 then (upbnd + 2, np / (upbnd + 2))
      else npfact2dLoop np (upbnd + 1)

/-- `npfact2d`. -/
def npfact2d (np : Nat) : Nat × Nat := npfact2dLoop np np.sqrt

/-- `scheduler::dim_init`: `npx` and `npy`. -/
def dimInit (pattern : Str) (np : Nat) : Nat × Nat :=
  if pattern = lit "smap" then npfacty np
  else if pattern = lit "fsmap" then npfact2d np
  else npfactx np

theorem npfact2dLoop_mul (np upbnd : Nat) :
    (npfact2dLoop np upbnd).1 * (npfact2dLoop np upbnd).2 = np := by
  fun_induction npfact2dLoop np upbnd with
  | case1 => simp
  | case2 => simp
  | case3 upbnd hdvd => exact Nat.mul_div_cancel' (Nat.dvd_of_mod_eq_zero hdvd)
  | case4 upbnd hdvd ih => exact ih

/-- The grid has one place for each rank. -/
theorem dimInit_mul (pattern : Str) (np : Nat) :
    (dimInit pattern np).1 * (dimInit pattern np).2 = np := by
  unfold dimInit
  split
  · simp [npfacty]
  · split
    · exact npfact2dLoop_mul np np.sqrt
    · simp [npfactx]

/-- `scheduler::h` on two strings. -/
def lineSlot (hf : Str → Nat) (i j : Str) (nx ny : Nat) : Nat :=
  hf i % nx * ny + hf j % ny

/-- A cell of the grid is in it. -/
theorem cell_lt (i j : Nat) {nx ny : Nat} (hnx : 0 < nx) (hny : 0 < ny) :
    i % nx * ny + j % ny < nx * ny := by
  have hrow : i % nx < nx := Nat.mod_lt _ hnx
  have hcol : j % ny < ny := Nat.mod_lt _ hny
  calc
    i % nx * ny + j % ny < i % nx * ny + ny := Nat.add_lt_add_left hcol _
    _ = (i % nx + 1) * ny := (Nat.succ_mul _ _).symm
    _ ≤ nx * ny := Nat.mul_le_mul_right ny hrow

section Slot

variable {hf : Str → Nat} {i j : Str} {nx ny : Nat}

theorem lineSlot_lt (hnx : 0 < nx) (hny : 0 < ny) : lineSlot hf i j nx ny < nx * ny :=
  cell_lt (hf i) (hf j) hnx hny

/-- The grid row of the slot depends on the row id only. -/
theorem lineSlot_div (hny : 0 < ny) : lineSlot hf i j nx ny / ny = hf i % nx := by
  rw [lineSlot, Nat.mul_comm, Nat.mul_add_div hny, Nat.div_eq_of_lt (Nat.mod_lt _ hny),
    Nat.add_zero]

/-- The grid column of the slot depends on the column id only. -/
theorem lineSlot_mod : lineSlot hf i j nx ny % ny = hf j % ny := by
  rw [lineSlot, Nat.mul_comm, Nat.mul_add_mod, Nat.mod_mod]

end Slot

/-! ### Entries -/

/-- `std::stod`, which throws on what is no number, and the literal `1.`. -/
structure Weights (W : Type) where
  stod : Str → Option W
  one : W

/-- `str_split` at any of the bytes of `seps`, without the empty pieces. -/
def strSplit (str seps : Str) : List Str :=
  (str.splitOnP fun c => decide (c ∈ seps)).filter fun s => decide (s ≠ [])

/-- The delimiter of `lines_organize`. -/
def delimiter : Str := lit "[:| ]*"

variable {W : Type}

/-- The entry of a row and one item, which is a column or a column and its weight. `none`
    where `tmp[0]` is out of range or `stod` throws. -/
def itemTriple (ws : Weights W) (row item : Str) : Option (Triple W) :=
  match strSplit item delimiter with
  | [] => none
  | [_] => some (row, item, ws.one)
  | col :: w :: _ => (ws.stod w).map fun w => (row, col, w)

/-- The entries of one parsed line; `none` where the format is not supported. -/
def lineTriples (ws : Weights W) (mix : Bool) : List Str → Option (List (Triple W))
  | [row, item] => (itemTriple ws row item).map fun tpl => [tpl]
  | stf =>
      if mix then
        match stf with
        | [] => some []
        | row :: items => items.mapM (itemTriple ws row)
      else
        match stf with
        | [row, col, w] => (ws.stod w).map fun w => [(row, col, w)]
        | _ => none

/-- The entries of all lines, in order. -/
def linesTriples (ws : Weights W) (mix : Bool) (parser : Str → List Str) (lines : List Str) :
    Option (List (Triple W)) :=
  (lines.mapM fun line => lineTriples ws mix (parser line)).map List.flatten

/-- `line_slot_lst[h(i, j, npx, npy)].push_back(tpl)`. -/
def pushBack (hf : Str → Nat) (grid : Nat × Nat) (slots : List (List (Triple W)))
    (tpl : Triple W) : List (List (Triple W)) :=
  slots.modify (lineSlot hf tpl.1 tpl.2.1 grid.1 grid.2) (· ++ [tpl])

/-- `scheduler::lines_organize`. -/
def linesOrganize (ws : Weights W) (mix : Bool) (parser : Str → List Str) (hf : Str → Nat)
    (grid : Nat × Nat) (np : Nat) (lines : List Str) : Option (List (List (Triple W))) :=
  (linesTriples ws mix parser lines).map fun tpls =>
    tpls.foldl (pushBack hf grid) (List.replicate np [])

/-- `scheduler::exchange` after its `alltoall`. -/
def exchange (recvLsl : List (List (Triple W))) : List (Triple W) :=
  recvLsl.flatten

/-! ### What the slots hold -/

/-- The slot of an entry. -/
def Triple.slot (hf : Str → Nat) (grid : Nat × Nat) (tpl : Triple W) : Nat :=
  lineSlot hf tpl.1 tpl.2.1 grid.1 grid.2

theorem length_pushBack (hf : Str → Nat) (grid : Nat × Nat) (tpls : List (Triple W))
    (slots : List (List (Triple W))) :
    (tpls.foldl (pushBack hf grid) slots).length = slots.length :=
  Slots.length_foldl_put (Triple.slot hf grid) tpls slots

section Exchange

open Network StepSystem Comm

variable {np : Nat} {grid : Nat × Nat} {hf : Str → Nat}

/-- The list of the slots of a rank with these entries. -/
def slotsOf (hf : Str → Nat) (grid : Nat × Nat) (np : Nat) (tpls : List (Triple W)) :
    List (List (Triple W)) :=
  tpls.foldl (pushBack hf grid) (List.replicate np [])

theorem length_slotsOf (hf : Str → Nat) (grid : Nat × Nat) (np : Nat) (tpls : List (Triple W)) :
    (slotsOf hf grid np tpls).length = np := by
  rw [slotsOf, length_pushBack, List.length_replicate]

theorem getD_slotsOf (hf : Str → Nat) (grid : Nat × Nat) (tpls : List (Triple W)) {k : Nat}
    (hk : k < np) :
    (slotsOf hf grid np tpls).getD k [] = tpls.filter fun tpl => tpl.slot hf grid = k :=
  Slots.getD_foldl_put_replicate (Triple.slot hf grid) tpls hk

/-- Whatever slot they are put in, a rank receives all entries for it and nothing else. -/
theorem exchange_perm {tpls : Fin np → List (Triple W)} {st : State np (Alltoall (Triple W)) _}
    (hst : Reachable (step (alltoall np)) (alltoallInit fun r => slotsOf hf grid np (tpls r)) st)
    (hall : AllReturned st) (r : Fin np) :
    (exchange (st.loc r).rbuf).Perm
      (((List.finRange np).flatMap tpls).filter fun tpl => tpl.slot hf grid = (r : Nat)) := by
  have hinv := alltoallInv_reachable (fun r => length_slotsOf hf grid np (tpls r)) hst
  have hflat := (rbuf_perm hinv hall r).flatten
  have hout : (fun p => outgoing (fun r => slotsOf hf grid np (tpls r)) p r) =
      fun p => (tpls p).filter fun tpl => tpl.slot hf grid = (r : Nat) := by
    funext p
    exact getD_slotsOf hf grid (tpls p) r.isLt
  rw [hout] at hflat
  rw [List.filter_flatMap]
  exact hflat

end Exchange

end Paracel
