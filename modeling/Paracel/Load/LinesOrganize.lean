import Paracel.Load.Organize
import Paracel.Misc.FirstError
import Paracel.Misc.SplitSet

/-!
# Both overloads of `lines_organize`, with their faults

`scheduler::lines_organize` (`include/load/scheduler.hpp`) for string ids and for
numeric ones. The overloads differ in the conversion of the ids only. A line or
an item that is not as expected ends a call in one of two ways: by an exception,
or by reading an element that a split result does not have, which is undefined.
The entries go to their slots one after another; what was put there before an
exception is lost with it.
-/

namespace Paracel.Organize

/-! ### Pieces -/

section Pieces

variable {str seps : Str}

theorem strSplit_append_cons (str tail : Str) {c : UInt8} (hc : c ∈ seps) :
    strSplit (str ++ c :: tail) seps = strSplit str seps ++ strSplit tail seps :=
  SplitSet.split_append_cons str tail (decide_eq_true hc)

theorem strSplit_of_forall (hne : str ≠ []) (h : ∀ c ∈ str, c ∉ seps) :
    strSplit str seps = [str] :=
  SplitSet.split_of_forall hne fun c hc => decide_eq_false (h c hc)

theorem mem_strSplit {s : Str} (h : s ∈ strSplit str seps) : s ≠ [] ∧ ∀ c ∈ s, c ∉ seps := by
  rcases SplitSet.mem_split h with ⟨hne, hclean⟩
  exact ⟨hne, fun c hc => of_decide_eq_false (hclean c hc)⟩

theorem strSplit_eq_nil_iff : strSplit str seps = [] ↔ ∀ c ∈ str, c ∈ seps := by
  refine SplitSet.split_eq_nil_iff.trans ?_
  simp only [decide_eq_true_eq]

theorem length_strSplit_eq_one_iff :
    (strSplit str seps).length = 1 ↔
      ∃ pre core post, str = pre ++ core ++ post ∧ core ≠ [] ∧ (∀ c ∈ core, c ∉ seps) ∧
        ∀ c ∈ pre ++ post, c ∈ seps := by
  refine SplitSet.length_split_eq_one_iff.trans ?_
  simp only [decide_eq_true_eq, decide_eq_false_iff_not]

end Pieces

/-! ### `std::stoull` -/

/-- `std::stoull`: white space, a sign and digits; what follows them is not read. -/
def stoull (s : Str) : Option UInt64 :=
  let t := s.dropWhile isSpace
  let ds := (dropSign t).takeWhile isDigit
  if ds = [] ∨ 2 ^ 64 ≤ decVal ds then none
  else if t.head? = some 45 then some (-UInt64.ofNat (decVal ds))
  else some (UInt64.ofNat (decVal ds))

/-! ### The two overloads -/

section Generic

variable {I W : Type} (conv : Str → Option I) (ws : Weights W)

/-- The entry of a row and one item, which is a column or a column and its weight. -/
def organizeItem (row item : Str) : Except Fault (I × I × W) :=
  let tmp := strSplit item delimiter
  if tmp.length = 1 then do
    let i ← orThrow (conv row)
    let j ← orThrow (conv item)
    return (i, j, ws.one)
  else do
    let col ← elem tmp 0
    let w ← elem tmp 1
    let i ← orThrow (conv row)
    let j ← orThrow (conv col)
    let val ← orThrow (ws.stod w)
    return (i, j, val)

/-- The entries of the fields of one line. -/
def organizeLine (mix : Bool) (stf : List Str) : Except Fault (List (I × I × W)) :=
  if stf.length = 2 then do
    let row ← elem stf 0
    let item ← elem stf 1
    let tpl ← organizeItem conv ws row item
    return [tpl]
  else if mix then
    (List.range' 1 (stf.length - 1)).mapM fun i => do
      let item ← elem stf i
      let row ← elem stf 0
      organizeItem conv ws row item
  else if stf.length ≠ 3 then .error .thrown
  else do
    let row ← elem stf 0
    let col ← elem stf 1
    let w ← elem stf 2
    let i ← orThrow (conv row)
    let j ← orThrow (conv col)
    let val ← orThrow (ws.stod w)
    return [(i, j, val)]

/-- `scheduler::h`. -/
def h (hf : I → Nat) (i j : I) (nx ny : Nat) : Nat :=
  hf i % nx * ny + hf j % ny

/-- `line_slot_lst[h(i, j, npx, npy)].push_back(tpl)`. -/
def pushBack (hf : I → Nat) (grid : Nat × Nat) (slots : List (List (I × I × W)))
    (tpl : I × I × W) : List (List (I × I × W)) :=
  slots.modify (h hf tpl.1 tpl.2.1 grid.1 grid.2) (· ++ [tpl])

/-- The slots with these entries. -/
def slotsOf (hf : I → Nat) (grid : Nat × Nat) (np : Nat) (tpls : List (I × I × W)) :
    List (List (I × I × W)) :=
  tpls.foldl (pushBack hf grid) (List.replicate np [])

/-- The loop over the lines. -/
def organize (mix : Bool) (parser : Str → Except Fault (List Str)) (hf : I → Nat)
    (grid : Nat × Nat) (np : Nat) (lines : List Str) :
    Except Fault (List (List (I × I × W))) := do
  let tpls ← lines.mapM fun line => do
    let stf ← parser line
    organizeLine conv ws mix stf
  return slotsOf hf grid np tpls.flatten

end Generic

section Overloads

variable {W : Type} (ws : Weights W) (mix : Bool) (parser : Str → Except Fault (List Str))

/-- `scheduler::lines_organize` for string ids. -/
def linesOrganize (hf : Str → Nat) (grid : Nat × Nat) (np : Nat) (lines : List Str) :
    Except Fault (List (List (Triple W))) :=
  organize some ws mix parser hf grid np lines

/-- `scheduler::lines_organize` for numeric ids. -/
def linesOrganizeIds (hf : UInt64 → Nat) (grid : Nat × Nat) (np : Nat) (lines : List Str) :
    Except Fault (List (List (UInt64 × UInt64 × W))) :=
  organize stoull ws mix parser hf grid np lines

end Overloads

/-! ### What an item and a line give -/

section Spec

variable {I W : Type} {conv : Str → Option I} {ws : Weights W} {row item : Str}

/-- An item in one piece is taken whole. -/
theorem organizeItem_of_one (hpieces : (strSplit item delimiter).length = 1) :
    organizeItem conv ws row item =
      (orThrow (conv row)).bind fun i => (orThrow (conv item)).bind fun j =>
        .ok (i, j, ws.one) := by
  rw [organizeItem, if_pos hpieces]
  rfl

/-- An item without pieces is read past its end. -/
theorem organizeItem_nil (hpieces : strSplit item delimiter = []) :
    organizeItem conv ws row item = .error .outOfRange := by
  rw [organizeItem, hpieces]
  rfl

/-- Of several pieces the first one is the column and the second its weight. -/
theorem organizeItem_of_cons {col w : Str} {rest : List Str}
    (hpieces : strSplit item delimiter = col :: w :: rest) :
    organizeItem conv ws row item =
      (orThrow (conv row)).bind fun i => (orThrow (conv col)).bind fun j =>
        (orThrow (ws.stod w)).bind fun val => .ok (i, j, val) := by
  rw [organizeItem, hpieces, if_neg (by simp)]
  rfl

theorem organizeItem_one (hpieces : (strSplit item delimiter).length = 1) {i j : I}
    (hi : conv row = some i) (hj : conv item = some j) :
    organizeItem conv ws row item = .ok (i, j, ws.one) := by
  rw [organizeItem_of_one hpieces, hi, hj]
  rfl

theorem organizeItem_cons {col w : Str} {rest : List Str}
    (hpieces : strSplit item delimiter = col :: w :: rest) {i j : I} (hi : conv row = some i)
    (hj : conv col = some j) :
    organizeItem conv ws row item = (orThrow (ws.stod w)).bind fun val => .ok (i, j, val) := by
  rw [organizeItem_of_cons hpieces, hi]
  show ((orThrow (conv col)).bind fun j => (orThrow (ws.stod w)).bind fun val =>
    .ok (i, j, val)) = _
  rw [hj]
  rfl

/-- The entries of the items of a line, if there is one or `mix` is on. -/
theorem organizeLine_items {mix : Bool} {items : List Str} (hmix : mix = true ∨ items.length = 1) :
    organizeLine conv ws mix (row :: items) = items.mapM (organizeItem conv ws row) := by
  by_cases htwo : items.length = 1
  · obtain ⟨item, rfl⟩ := List.length_eq_one_iff.mp htwo
    rw [FirstError.mapM_cons]
    show ((organizeItem conv ws row item).bind fun tpl => .ok [tpl]) = _
    cases organizeItem conv ws row item <;> rfl
  · have hon := hmix.resolve_right htwo
    rw [organizeLine, if_neg (by simpa using htwo), if_pos hon]
    -- the indices from 1 on give the items
    have hloop : ∀ (pre post : List Str), items = pre ++ post →
        ((List.range' (1 + pre.length) post.length).mapM fun i => do
          let item ← elem (row :: items) i
          let row ← elem (row :: items) 0
          organizeItem conv ws row item) = post.mapM (organizeItem conv ws row) := by
      intro pre post hsplit
      induction post generalizing pre with
      | nil => rfl
      | cons item post ih =>
          have hitem : elem (row :: items) (1 + pre.length) = .ok item := by
            rw [elem, hsplit, Nat.add_comm]
            simp
          have hrest := ih (pre ++ [item]) (by simp [hsplit])
          rw [List.length_append, List.length_singleton, ← Nat.add_assoc] at hrest
          rw [List.length_cons, List.range'_succ, FirstError.mapM_cons, FirstError.mapM_cons,
            hrest, hitem]
          rfl
    exact hloop [] items rfl

end Spec

/-! ### The slots -/

section Slots

variable {I W : Type} {hf : I → Nat} {grid : Nat × Nat} {np : Nat}

/-- The slots tell which entries were put into them. -/
theorem perm_of_slotsOf_eq (hgrid : grid.1 * grid.2 = np) (hnp : 0 < np)
    {tpls tpls' : List (I × I × W)} (h : slotsOf hf grid np tpls = slotsOf hf grid np tpls') :
    tpls.Perm tpls' := by
  have hpos : 0 < grid.1 * grid.2 := hgrid ▸ hnp
  have hlt : ∀ tpl : I × I × W, Organize.h hf tpl.1 tpl.2.1 grid.1 grid.2 < np := fun tpl =>
    hgrid ▸ cell_lt _ _ (Nat.pos_of_mul_pos_right hpos) (Nat.pos_of_mul_pos_left hpos)
  exact Slots.perm_of_slots_eq (fun tpl : I × I × W => Organize.h hf tpl.1 tpl.2.1 grid.1 grid.2)
    (fun tpl _ => hlt tpl) (fun tpl _ => hlt tpl) h

end Slots

/-! ### The outcome without the faults -/

section Outcome

variable {W : Type} (ws : Weights W) (mix : Bool)

theorem toOption_organizeItem (row item : Str) :
    (organizeItem some ws row item).toOption = itemTriple ws row item := by
  unfold itemTriple
  rcases hpieces : strSplit item delimiter with _ | ⟨col, _ | ⟨w, rest⟩⟩
  · rw [organizeItem_nil hpieces]
    rfl
  · rw [organizeItem_one (by rw [hpieces]; rfl) rfl rfl]
    rfl
  · rw [organizeItem_cons hpieces rfl rfl]
    show _ = (ws.stod w).map fun val => (row, col, val)
    cases ws.stod w <;> rfl

theorem toOption_organizeLine (stf : List Str) :
    (organizeLine some ws mix stf).toOption = lineTriples ws mix stf := by
  have hitems : ∀ (row : Str) (items : List Str),
      (items.mapM (organizeItem some ws row)).toOption = items.mapM (itemTriple ws row) := by
    intro row items
    rw [FirstError.toOption_mapM]
    simp only [toOption_organizeItem]
  rcases stf with _ | ⟨row, _ | ⟨item, _ | ⟨w, rest⟩⟩⟩
  · cases mix <;> rfl
  · cases mix <;> rfl
  · rw [organizeLine_items (.inr rfl), hitems, List.mapM_cons]
    cases h : itemTriple ws row item <;> simp [lineTriples, h]
  · cases mix with
    | true =>
        rw [organizeLine_items (.inl rfl), hitems]
        rfl
    | false =>
        cases rest with
        | nil =>
            show ((orThrow (ws.stod w)).bind fun val => .ok [(row, item, val)]).toOption = _
            cases h : ws.stod w <;> simp [lineTriples, h] <;> rfl
        | cons field rest => rfl

/-- The overload for string ids fails just when `linesOrganize` of the matrix does, and puts the
    same entries into the slots otherwise. -/
theorem toOption_linesOrganize (parser : Str → List Str) (hf : Str → Nat) (grid : Nat × Nat)
    (np : Nat) (lines : List Str) :
    (linesOrganize ws mix (fun line => .ok (parser line)) hf grid np lines).toOption =
      Paracel.linesOrganize ws mix parser hf grid np lines := by
  have hlines : (lines.mapM fun line => organizeLine some ws mix (parser line)).toOption =
      lines.mapM fun line => lineTriples ws mix (parser line) := by
    rw [FirstError.toOption_mapM]
    simp only [toOption_organizeLine]
  rw [Paracel.linesOrganize, linesTriples, ← hlines]
  show ((lines.mapM fun line => organizeLine some ws mix (parser line)).bind _).toOption = _
  cases lines.mapM fun line => organizeLine some ws mix (parser line) <;> rfl

end Outcome

/-! ### Numerals -/

/-- Digits are read as the number that they stand for. -/
theorem stoull_of_digits {ds : Str} (hne : ds ≠ []) (h : ∀ c ∈ ds, isDigit c = true)
    (hlt : decVal ds < 2 ^ 64) : stoull ds = some (UInt64.ofNat (decVal ds)) := by
  obtain ⟨d, rest, rfl⟩ := List.exists_cons_of_ne_nil hne
  have hd : isDigit d = true := h d List.mem_cons_self
  have hminus := ne_of_isDigit (d := 45) hd (by decide)
  have htext : (d :: rest).dropWhile isSpace = d :: rest := by
    rw [List.dropWhile_cons, isSpace_of_isDigit hd]
    rfl
  simp only [stoull, htext, dropSign_of_isDigit rest hd, takeWhile_isDigit h, hne,
    Nat.not_le.mpr hlt, List.head?_cons, Option.some_inj, hminus, or_self, if_false]

end Paracel.Organize
