import Paracel.Load.LinesOrganize

/-!
# The parsers, and reading past the pieces

`parser_a` and `parser_b` (`include/load/parser.hpp`) in front of
`lines_organize`. How many pieces a split gives does not depend on how many
separators there are: a line or an item can have none at all. `parser_b` takes
the first two pieces of a line, and `lines_organize` the first two of an item,
without looking whether they are there. The lines and items are read in order up
to the first exception, so only those before it matter.
-/

namespace Paracel.Organize

/-- `parser_a`. -/
def parserA (sep : UInt8) (line : Str) : Except Fault (List Str) :=
  .ok (strSplit line [sep])

/-- `parser_b`. -/
def parserB (sep1 sep2 : UInt8) (line : Str) : Except Fault (List Str) := do
  let tmp := strSplit line [sep1]
  let s ← elem tmp 1
  let r := strSplit s [sep2]
  let row ← elem tmp 0
  return row :: r

/-! ### Which lines and items are read -/

section Conditions

variable {I W : Type} (conv : Str → Option I) (ws : Weights W) (mix : Bool)

/-- An item that an entry is made of: one piece that is an id, or an id and a weight. -/
def Readable (row item : Str) : Prop :=
  (conv row).isSome ∧
    (((strSplit item delimiter).length = 1 ∧ (conv item).isSome) ∨
      ∃ col w rest, strSplit item delimiter = col :: w :: rest ∧ (conv col).isSome ∧
        (ws.stod w).isSome)

/-- The fields of a line that entries are made of. -/
def Accepted : List Str → Prop
  | [] => mix = true
  | row :: items =>
      if mix = true ∨ items.length = 1 then ∀ item ∈ items, Readable conv ws row item
      else ∃ col w, items = [col, w] ∧ (conv row).isSome ∧ (conv col).isSome ∧ (ws.stod w).isSome

/-- The first item that no entry is made of has a character that is not in the delimiter. -/
def Safe : List Str → Prop
  | [] => True
  | row :: items => (mix = true ∨ items.length = 1) → ∀ pre item post,
      items = pre ++ item :: post → (∀ x ∈ pre, Readable conv ws row x) →
        ∃ c ∈ item, c ∉ delimiter

/-- The first line that no entries are made of has fields, and they are safe. -/
def InRange (fields : Str → Option (List Str)) (lines : List Str) : Prop :=
  ∀ pre line post, lines = pre ++ line :: post →
    (∀ l ∈ pre, ∃ stf, fields l = some stf ∧ Accepted conv ws mix stf) →
      ∃ stf, fields line = some stf ∧ Safe conv ws mix stf

end Conditions

/-- The fields that `parser_a` finds. -/
def fieldsA (sep : UInt8) (line : Str) : Option (List Str) :=
  some (strSplit line [sep])

/-- The fields that `parser_b` finds in a line of two pieces or more. -/
def fieldsB (sep1 sep2 : UInt8) (line : Str) : Option (List Str) :=
  match strSplit line [sep1] with
  | row :: s :: _ => some (row :: strSplit s [sep2])
  | _ => none

/-! ### What the loops do -/

section Outcome

variable {I W : Type} {conv : Str → Option I} {ws : Weights W} {mix : Bool}

theorem organizeItem_eq_ok_iff (row item : Str) :
    (∃ tpl, organizeItem conv ws row item = .ok tpl) ↔ Readable conv ws row item := by
  simp only [Readable, Option.isSome_iff_exists]
  rcases hpieces : strSplit item delimiter with _ | ⟨col, _ | ⟨w, rest⟩⟩
  · rw [organizeItem_nil hpieces]
    simp
  · rw [organizeItem_of_one (by rw [hpieces]; rfl)]
    simp [orThrow_bind_eq_ok_iff]
  · rw [organizeItem_of_cons hpieces]
    simp [orThrow_bind_eq_ok_iff]

theorem organizeItem_eq_outOfRange_iff (row item : Str) :
    organizeItem conv ws row item = .error .outOfRange ↔ ∀ c ∈ item, c ∈ delimiter := by
  rw [← strSplit_eq_nil_iff]
  rcases hpieces : strSplit item delimiter with _ | ⟨col, _ | ⟨w, rest⟩⟩
  · rw [organizeItem_nil hpieces]
    simp
  · rw [organizeItem_of_one (by rw [hpieces]; rfl)]
    simp [orThrow_bind_eq_outOfRange_iff]
  · rw [organizeItem_of_cons hpieces]
    simp [orThrow_bind_eq_outOfRange_iff]

/-- A line in neither format gives one entry or throws. -/
theorem organizeLine_others {row : Str} {items : List Str}
    (hmix : ¬(mix = true ∨ items.length = 1)) :
    organizeLine conv ws mix (row :: items) =
      match items with
      | [col, w] => (orThrow (conv row)).bind fun i => (orThrow (conv col)).bind fun j =>
          (orThrow (ws.stod w)).bind fun val => .ok [(i, j, val)]
      | _ => .error .thrown := by
  rw [not_or] at hmix
  rw [organizeLine, if_neg (by simpa using hmix.2), if_neg hmix.1]
  rcases items with _ | ⟨col, _ | ⟨w, _ | ⟨x, rest⟩⟩⟩
  · rfl
  · exact absurd rfl hmix.2
  · rfl
  · rfl

theorem organizeLine_eq_ok_iff (stf : List Str) :
    (∃ tpls, organizeLine conv ws mix stf = .ok tpls) ↔ Accepted conv ws mix stf := by
  cases stf with
  | nil =>
      cases mix with
      | true => exact ⟨fun _ => rfl, fun _ => ⟨[], rfl⟩⟩
      | false => simp [organizeLine, Accepted]
  | cons row items =>
      rw [Accepted]
      split
      · rename_i hmix
        rw [organizeLine_items hmix, FirstError.exists_mapM_eq_ok_iff]
        simp only [organizeItem_eq_ok_iff]
      · rename_i hmix
        rw [organizeLine_others hmix]
        rcases items with _ | ⟨col, _ | ⟨w, _ | ⟨x, rest⟩⟩⟩
        · simp
        · simp
        · simp [orThrow_bind_eq_ok_iff, Option.isSome_iff_exists]
        · simp

theorem organizeLine_eq_outOfRange_iff (stf : List Str) :
    organizeLine conv ws mix stf = .error .outOfRange ↔ ¬Safe conv ws mix stf := by
  cases stf with
  | nil =>
      cases mix with
      | true =>
          constructor
          · intro h
            cases h
          · intro h
            exact absurd trivial h
      | false => simp [organizeLine, Safe]
  | cons row items =>
      rw [Safe]
      by_cases hmix : mix = true ∨ items.length = 1
      · rw [organizeLine_items hmix, FirstError.mapM_eq_error_iff, forall_prop_of_true hmix]
        simp only [organizeItem_eq_ok_iff, organizeItem_eq_outOfRange_iff]
        push Not
        rfl
      · rw [organizeLine_others hmix, forall_prop_of_false hmix]
        rcases items with _ | ⟨col, _ | ⟨w, _ | ⟨x, rest⟩⟩⟩
        · simp
        · simp
        · simp [orThrow_bind_eq_outOfRange_iff]
        · simp

end Outcome

/-! ### Parser and loop together -/

section Lines

variable {I W : Type} {conv : Str → Option I} {ws : Weights W} {mix : Bool}
  {parser : Str → Except Fault (List Str)} {fields : Str → Option (List Str)}

/-- `parser` returns the fields, or reads past the end where there are none. -/
def Finds (parser : Str → Except Fault (List Str)) (fields : Str → Option (List Str)) : Prop :=
  ∀ line, parser line = match fields line with
    | some stf => .ok stf
    | none => .error .outOfRange

theorem finds_parserA (sep : UInt8) : Finds (parserA sep) (fieldsA sep) :=
  fun _ => rfl

theorem finds_parserB (sep1 sep2 : UInt8) : Finds (parserB sep1 sep2) (fieldsB sep1 sep2) := by
  intro line
  rw [parserB, fieldsB]
  rcases strSplit line [sep1] with _ | ⟨row, _ | ⟨s, rest⟩⟩ <;> rfl

theorem line_eq_ok_iff (hfinds : Finds parser fields) (line : Str) :
    (∃ tpls, ((parser line).bind fun stf => organizeLine conv ws mix stf) = .ok tpls) ↔
      ∃ stf, fields line = some stf ∧ Accepted conv ws mix stf := by
  rw [hfinds line]
  cases fields line with
  | none => simp [Except.bind]
  | some stf => simpa [Except.bind] using organizeLine_eq_ok_iff stf

theorem line_eq_outOfRange_iff (hfinds : Finds parser fields) (line : Str) :
    ((parser line).bind fun stf => organizeLine conv ws mix stf) = .error .outOfRange ↔
      ¬∃ stf, fields line = some stf ∧ Safe conv ws mix stf := by
  rw [hfinds line]
  cases fields line with
  | none => simp [Except.bind]
  | some stf => simpa [Except.bind] using organizeLine_eq_outOfRange_iff stf

/-- No element is read that is not there just when the first line and the first item that no
    entries are made of can be taken apart. -/
theorem organize_ne_outOfRange_iff (hfinds : Finds parser fields) (hf : I → Nat)
    (grid : Nat × Nat) (np : Nat) (lines : List Str) :
    organize conv ws mix parser hf grid np lines ≠ .error .outOfRange ↔
      InRange conv ws mix fields lines := by
  have hloop : organize conv ws mix parser hf grid np lines = .error .outOfRange ↔
      (lines.mapM fun line => (parser line).bind fun stf => organizeLine conv ws mix stf) =
        .error .outOfRange := by
    show ((lines.mapM fun line => (parser line).bind fun stf =>
      organizeLine conv ws mix stf).bind fun tpls => .ok (slotsOf hf grid np tpls.flatten)) = _ ↔ _
    cases lines.mapM fun line => (parser line).bind fun stf => organizeLine conv ws mix stf <;>
      simp [Except.bind]
  rw [ne_eq, hloop, FirstError.mapM_eq_error_iff, InRange]
  simp only [line_eq_ok_iff hfinds, line_eq_outOfRange_iff hfinds]
  push Not
  rfl

end Lines

/-- For both parsers and both overloads: no element of a split result is accessed that does not
    exist, just when the first line that no entries are made of has the fields that the parser
    takes and its first item that no entry is made of has a character that is not in the
    delimiter. -/
theorem parser_lines_organize_in_range_iff {W : Type} (ws : Weights W) (mix : Bool)
    (sep sep1 sep2 : UInt8) (hf : Str → Nat) (hfId : UInt64 → Nat) (grid : Nat × Nat) (np : Nat)
    (lines : List Str) :
    (linesOrganize ws mix (parserB sep1 sep2) hf grid np lines ≠ .error .outOfRange ↔
      InRange some ws mix (fieldsB sep1 sep2) lines) ∧
    (linesOrganize ws mix (parserA sep) hf grid np lines ≠ .error .outOfRange ↔
      InRange some ws mix (fieldsA sep) lines) ∧
    (linesOrganizeIds ws mix (parserB sep1 sep2) hfId grid np lines ≠ .error .outOfRange ↔
      InRange stoull ws mix (fieldsB sep1 sep2) lines) ∧
    (linesOrganizeIds ws mix (parserA sep) hfId grid np lines ≠ .error .outOfRange ↔
      InRange stoull ws mix (fieldsA sep) lines) :=
  ⟨organize_ne_outOfRange_iff (finds_parserB sep1 sep2) hf grid np lines,
    organize_ne_outOfRange_iff (finds_parserA sep) hf grid np lines,
    organize_ne_outOfRange_iff (finds_parserB sep1 sep2) hfId grid np lines,
    organize_ne_outOfRange_iff (finds_parserA sep) hfId grid np lines⟩

/-- Weights of one digit. -/
def digitWeights : Weights Nat where
  stod := fun s => if s.all isDigit then some (decVal s) else none
  one := 1

/-- A blank line, a line of one field, and an item of nothing but a separator. -/
theorem not_in_range_blank :
    (∀ line ∈ [lit "", lit "a", lit "  "],
      linesOrganize digitWeights false (parserB 32 32) List.length (1, 1) 1 [line] =
        .error .outOfRange) ∧
      (∀ mix, linesOrganize digitWeights mix (parserB 32 44) List.length (1, 1) 1 [lit "a :"] =
        .error .outOfRange) ∧
      linesOrganize digitWeights true (parserA 32) List.length (1, 1) 1 [lit "a b:1 |"] =
        .error .outOfRange := by
  refine ⟨?_, ?_, rfl⟩
  · intro line hline
    simp only [List.mem_cons, List.not_mem_nil, or_false] at hline
    rcases hline with rfl | rfl | rfl <;> rfl
  · intro mix
    cases mix <;> rfl

end Paracel.Organize
