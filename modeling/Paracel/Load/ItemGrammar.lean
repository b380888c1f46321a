import Paracel.Load.LinesOrganize

/-!
# The items of a line

An item is an id, alone or with a weight behind a `:` or a `|`. `lines_organize`
looks for these with a delimiter that is written as a regular expression but used
as a set of characters, so a bracket or a star in an id separates as well. An id
alone is not changed by such a character at one of its ends, because an item in
one piece is taken whole; an id with a weight is cut at the first one.
-/

namespace Paracel.Organize

variable {W : Type} {ws : Weights W} {mix : Bool}

/-- The characters of a decimal number. -/
def IsDecimal (w : Str) : Prop :=
  w ≠ [] ∧ ∀ c ∈ w, c ∈ lit "0123456789+-.eE"

instance (w : Str) : Decidable (IsDecimal w) :=
  inferInstanceAs (Decidable (_ ∧ _))

/-- A weight in an item: the character before it, its text and its value. -/
structure ItemWeight (ws : Weights W) where
  sep : UInt8
  text : Str
  val : W
  sep_mem : sep ∈ lit ":|"
  isDecimal : IsDecimal text
  stod_eq : ws.stod text = some val

/-- `id`, `id:weight` or `id|weight`. -/
structure Item (ws : Weights W) where
  id : Str
  weight : Option (ItemWeight ws)
  id_clean : ∀ c ∈ id, c ∉ lit ":| "

namespace Item

/-- An item as it stands in a line. -/
def text (item : Item ws) : Str :=
  match item.weight with
  | none => item.id
  | some w => item.id ++ w.sep :: w.text

/-- The weight of an item; without one it is `1.`. -/
def val (item : Item ws) : W :=
  match item.weight with
  | none => ws.one
  | some w => w.val

/-- The id has none of the other characters of the delimiter; where no weight follows they may
    stand before or behind the rest of it. -/
def Whole (item : Item ws) : Prop :=
  match item.weight with
  | none => ∃ pre core post, item.id = pre ++ core ++ post ∧ core ≠ [] ∧
      (∀ c ∈ core, c ∉ lit "[]*") ∧ ∀ c ∈ pre ++ post, c ∈ lit "[]*"
  | some _ => item.id ≠ [] ∧ ∀ c ∈ item.id, c ∉ lit "[]*"

end Item

/-- A line: one item in any mode, any number of items with `mix`. -/
structure Line (ws : Weights W) (mix : Bool) where
  row : Str
  items : List (Item ws)
  shape : mix = true ∨ items.length = 1

namespace Line

/-- What the parser makes of a line. -/
def fields (line : Line ws mix) : List Str :=
  line.row :: line.items.map Item.text

/-- The entries that a line stands for. -/
def entries (line : Line ws mix) : List (Triple W) :=
  line.items.map fun item => (line.row, item.id, item.val)

/-- The entries that a line with numeric ids stands for. -/
def idEntries (line : Line ws mix) : List (UInt64 × UInt64 × W) :=
  line.items.map fun item =>
    (UInt64.ofNat (decVal line.row), UInt64.ofNat (decVal item.id), item.val)

end Line

/-- The digits of a 64-bit number. -/
def IsNumeral (s : Str) : Prop :=
  s ≠ [] ∧ (∀ c ∈ s, isDigit c = true) ∧ decVal s < 2 ^ 64

/-- Every 64-bit number has a numeral. -/
theorem isNumeral_toStr {n : Nat} (h : n < 2 ^ 64) : IsNumeral (toStr n) :=
  ⟨toStr_ne_nil n, fun _ hc => isDigit_of_mem_toStr hc, by rwa [decVal_toStr]⟩

/-! ### The pieces of an item -/

theorem mem_delimiter_iff (c : UInt8) : c ∈ delimiter ↔ c ∈ lit ":| " ∨ c ∈ lit "[]*" := by
  simp only [delimiter, lit]
  simp
  tauto

/-- A weight has no character of the delimiter. -/
theorem notMem_delimiter_of_isDecimal {w : Str} (h : IsDecimal w) : ∀ c ∈ w, c ∉ delimiter := by
  have hnone : ∀ c ∈ lit "0123456789+-.eE", c ∉ delimiter :=
    List.forall_iff_forall_mem.mp (by decide)
  exact fun c hc => hnone c (h.2 c hc)

theorem notMem_brackets_of_isDigit {c : UInt8} (h : isDigit c = true) : c ∉ lit "[]*" := by
  have hnone : ∀ c ∈ lit "[]*", isDigit c = false := List.forall_iff_forall_mem.mp (by decide)
  intro hc
  rw [hnone c hc] at h
  cases h

namespace Item

/-- In an id the delimiter has its other characters only. -/
theorem mem_delimiter_iff_of_mem (item : Item ws) {c : UInt8} (hc : c ∈ item.id) :
    c ∈ delimiter ↔ c ∈ lit "[]*" := by
  rw [mem_delimiter_iff]
  exact or_iff_right (item.id_clean c hc)

theorem strSplit_text_of_weight {item : Item ws} {w : ItemWeight ws} (h : item.weight = some w) :
    strSplit item.text delimiter = strSplit item.id delimiter ++ [w.text] := by
  have hsep : w.sep ∈ delimiter := by
    have hall : ∀ c ∈ lit ":|", c ∈ delimiter := List.forall_iff_forall_mem.mp (by decide)
    exact hall w.sep w.sep_mem
  rw [text, h]
  dsimp only
  rw [strSplit_append_cons _ _ hsep,
    strSplit_of_forall w.isDecimal.1 (notMem_delimiter_of_isDecimal w.isDecimal)]

/-- A clean id is one piece. -/
theorem strSplit_id {item : Item ws} (hne : item.id ≠ []) (h : ∀ c ∈ item.id, c ∉ lit "[]*") :
    strSplit item.id delimiter = [item.id] :=
  strSplit_of_forall hne fun c hc => mt (item.mem_delimiter_iff_of_mem hc).mp (h c hc)

theorem whole_of_clean {item : Item ws} (hne : item.id ≠ []) (h : ∀ c ∈ item.id, c ∉ lit "[]*") :
    item.Whole := by
  rw [Whole]
  split
  · exact ⟨[], item.id, [], by simp, hne, h, by simp⟩
  · exact ⟨hne, h⟩

/-- An item without a weight is in one piece just when it is whole. -/
theorem length_strSplit_id_iff {item : Item ws} (hweight : item.weight = none) :
    (strSplit item.id delimiter).length = 1 ↔ item.Whole := by
  rw [length_strSplit_eq_one_iff, Whole, hweight]
  dsimp only
  refine exists_congr fun pre => exists_congr fun core => exists_congr fun post => ?_
  refine and_congr_right fun hid => and_congr_right fun _ => and_congr ?_ ?_
  · refine forall₂_congr fun c hc => ?_
    rw [item.mem_delimiter_iff_of_mem (by rw [hid]; simp [hc])]
  · refine forall₂_congr fun c hc => ?_
    have hmem : c ∈ item.id := by
      rw [hid]
      rcases List.mem_append.mp hc with hc | hc <;> simp [hc]
    rw [item.mem_delimiter_iff_of_mem hmem]

end Item

/-! ### What an item becomes -/

section Outcome

variable {I : Type} {conv : Str → Option I} {item : Item ws}

/-- A whole item becomes the entry that it stands for. -/
theorem organizeItem_of_whole (hwhole : item.Whole) {row : Str} {i j : I}
    (hi : conv row = some i) (hj : conv item.id = some j) :
    organizeItem conv ws row item.text = .ok (i, j, item.val) := by
  cases hweight : item.weight with
  | none =>
      have hone := (Item.length_strSplit_id_iff hweight).mpr hwhole
      have htext : item.text = item.id := by rw [Item.text, hweight]
      rw [htext, organizeItem_one hone hi hj, Item.val, hweight]
  | some w =>
      rw [Item.Whole, hweight] at hwhole
      have hpieces := Item.strSplit_text_of_weight hweight
      rw [Item.strSplit_id hwhole.1 hwhole.2] at hpieces
      rw [organizeItem_cons hpieces hi hj, w.stod_eq, Item.val, hweight]
      rfl

/-- A column that is no id of an item that is not whole: a non-empty piece, or a text with one
    of the separators. -/
def Foreign (col : Str) : Prop :=
  (col ≠ [] ∧ ∀ c ∈ col, c ∉ delimiter) ∨ ∃ c ∈ col, c ∈ lit ":| "

theorem not_foreign_id (hnot : ¬item.Whole) : ¬Foreign item.id := by
  rintro (⟨hne, hclean⟩ | ⟨c, hc, hsep⟩)
  · apply hnot
    apply Item.whole_of_clean hne
    exact fun c hc => mt (item.mem_delimiter_iff_of_mem hc).mpr (hclean c hc)
  · exact item.id_clean c hc hsep

/-- If an item that is not whole becomes an entry, its column is another one. -/
theorem foreign_of_organizeItem (hnot : ¬item.Whole) {row : Str} {tpl : Triple W}
    (h : organizeItem some ws row item.text = .ok tpl) : Foreign tpl.2.1 := by
  have hfirst : ∀ {col w : Str} {rest : List Str},
      strSplit item.text delimiter = col :: w :: rest → Foreign tpl.2.1 := by
    intro col w rest hpieces
    have hcol := mem_strSplit (hpieces ▸ List.mem_cons_self : col ∈ strSplit item.text delimiter)
    rw [organizeItem_cons hpieces rfl rfl] at h
    cases hval : ws.stod w with
    | none =>
        rw [hval] at h
        cases h
    | some val =>
        rw [hval] at h
        cases h
        exact .inl hcol
  cases hweight : item.weight with
  | none =>
      have hone := mt (Item.length_strSplit_id_iff hweight).mp hnot
      have htext : item.text = item.id := by rw [Item.text, hweight]
      rw [← htext] at hone
      rcases hpieces : strSplit item.text delimiter with _ | ⟨col, _ | ⟨w, rest⟩⟩
      · rw [organizeItem_nil hpieces] at h
        cases h
      · exact absurd (by rw [hpieces]; rfl) hone
      · exact hfirst hpieces
  | some w =>
      have hpieces := Item.strSplit_text_of_weight hweight
      rcases hid : strSplit item.id delimiter with _ | ⟨col, _ | ⟨w', rest⟩⟩
      · -- nothing but the weight is left, and the text is taken whole
        rw [hid, List.nil_append] at hpieces
        rw [organizeItem_one (by rw [hpieces]; rfl) rfl rfl] at h
        cases h
        refine .inr ⟨w.sep, ?_, ?_⟩
        · show w.sep ∈ item.text
          rw [Item.text, hweight]
          simp
        · have hall : ∀ c ∈ lit ":|", c ∈ lit ":| " := List.forall_iff_forall_mem.mp (by decide)
          exact hall w.sep w.sep_mem
      · rw [hid] at hpieces
        exact hfirst hpieces
      · rw [hid] at hpieces
        exact hfirst hpieces

end Outcome

/-! ### What the lines become -/

section Lines

variable {I : Type} {conv : Str → Option I} {parser : Str → Except Fault (List Str)}
  {lines : List Str} {line : Str → Line ws mix}

/-- The entries of a line that was parsed. -/
theorem organizeLine_fields {s : Str} (hparse : parser s = .ok (line s).fields) :
    ((parser s).bind fun stf => organizeLine conv ws mix stf) =
      (line s).items.mapM fun item => organizeItem conv ws (line s).row item.text := by
  have hshape : mix = true ∨ ((line s).items.map Item.text).length = 1 := by
    rw [List.length_map]
    exact (line s).shape
  rw [hparse]
  show organizeLine conv ws mix ((line s).row :: (line s).items.map Item.text) = _
  rw [organizeLine_items hshape, List.mapM_map]
  rfl

/-- The slots of the entries, for lines that all give some. -/
theorem organize_eq_ok {hf : I → Nat} {grid : Nat × Nat} {np : Nat}
    {entry : Str → Item ws → I × I × W} (hparse : ∀ s ∈ lines, parser s = .ok (line s).fields)
    (hitem : ∀ s ∈ lines, ∀ item ∈ (line s).items,
      organizeItem conv ws (line s).row item.text = .ok (entry s item)) :
    organize conv ws mix parser hf grid np lines =
      .ok (slotsOf hf grid np (lines.flatMap fun s => (line s).items.map (entry s))) := by
  have hlines : (lines.mapM fun s => (parser s).bind fun stf => organizeLine conv ws mix stf) =
      .ok (lines.map fun s => (line s).items.map (entry s)) := by
    apply FirstError.mapM_eq_ok
    intro s hs
    rw [organizeLine_fields (hparse s hs)]
    exact FirstError.mapM_eq_ok (hitem s hs)
  show ((lines.mapM fun s => (parser s).bind fun stf => organizeLine conv ws mix stf).bind
    fun tpls => .ok (slotsOf hf grid np tpls.flatten)) = _
  rw [hlines, List.flatMap_def]
  rfl

/-- If the call returns, every item gave an entry. -/
theorem organizeItem_of_organize_eq_ok {hf : I → Nat} {grid : Nat × Nat} {np : Nat}
    {slots : List (List (I × I × W))} (hparse : ∀ s ∈ lines, parser s = .ok (line s).fields)
    (h : organize conv ws mix parser hf grid np lines = .ok slots) :
    ∀ s ∈ lines, ∀ item ∈ (line s).items,
      ∃ tpl, organizeItem conv ws (line s).row item.text = .ok tpl := by
  have h' : ((lines.mapM fun s => (parser s).bind fun stf => organizeLine conv ws mix stf).bind
      fun tpls => .ok (slotsOf hf grid np tpls.flatten)) = .ok slots := h
  cases hlines : lines.mapM fun s => (parser s).bind fun stf => organizeLine conv ws mix stf with
  | error e =>
      rw [hlines] at h'
      cases h'
  | ok tpls =>
      intro s hs
      rcases FirstError.exists_ok_of_mapM hlines s hs with ⟨tpls', hline⟩
      rw [organizeLine_fields (hparse s hs)] at hline
      exact FirstError.exists_ok_of_mapM hline

end Lines

/-- A list in which members were replaced by others is no permutation of it, if one of those
    that are gone does not come back for another. -/
theorem not_perm_of_replaced {α β : Type} {f g : β → α} {l : List β} {b : β} (hb : b ∈ l)
    (hgone : f b ≠ g b) (hback : ∀ b' ∈ l, f b' = g b → g b' = g b) :
    ¬(l.map f).Perm (l.map g) := by
  classical
  intro hperm
  have hcount := hperm.countP_eq fun a => decide (a = g b)
  rw [List.countP_map, List.countP_map] at hcount
  have hle : ∀ l', l' ⊆ l → l'.countP ((fun a => decide (a = g b)) ∘ f) ≤
      l'.countP ((fun a => decide (a = g b)) ∘ g) := by
    intro l' hsub
    apply List.countP_mono_left
    intro b' hb' hf
    exact decide_eq_true (hback b' (hsub hb') (of_decide_eq_true hf))
  rcases List.append_of_mem hb with ⟨pre, post, rfl⟩
  have hpre := hle pre (by simp)
  have hpost := hle post (fun x hx => by simp [hx])
  simp only [List.countP_append, List.countP_cons, Function.comp_apply, hgone, decide_false,
    decide_true, Bool.false_eq_true, if_false, if_true] at hcount
  simp only [Function.comp_def] at hcount hpre hpost
  omega

section Overloads

variable {parser : Str → Except Fault (List Str)} {grid : Nat × Nat} {np : Nat} {lines : List Str}
  {line : Str → Line ws mix}

/-- The items of the lines with the rows that they stand in. -/
def rowItems (lines : List Str) (line : Str → Line ws mix) : List (Str × Item ws) :=
  lines.flatMap fun s => (line s).items.map fun item => ((line s).row, item)

/-- The entry that an item is to give. -/
def meant (p : Str × Item ws) : Triple W :=
  (p.1, p.2.id, p.2.val)

/-- The entry that it gives. -/
def given (p : Str × Item ws) : Triple W :=
  (organizeItem some ws p.1 p.2.text).toOption.getD (meant p)

theorem map_rowItems (g : Str × Item ws → Triple W) :
    (rowItems lines line).map g =
      lines.flatMap fun s => (line s).items.map fun item => g ((line s).row, item) := by
  rw [rowItems, List.map_flatMap]
  simp only [List.map_map, Function.comp_def]

theorem mem_rowItems {s : Str} (hs : s ∈ lines) {item : Item ws} (hitem : item ∈ (line s).items) :
    ((line s).row, item) ∈ rowItems lines line :=
  List.mem_flatMap.mpr ⟨s, hs, List.mem_map_of_mem hitem⟩

/-- If the call returns, the slots are those of the entries that the items give. -/
theorem linesOrganize_eq_given (hparse : ∀ s ∈ lines, parser s = .ok (line s).fields)
    {hf : Str → Nat} {slots : List (List (Triple W))}
    (hslots : linesOrganize ws mix parser hf grid np lines = .ok slots) :
    slots = slotsOf hf grid np ((rowItems lines line).map given) ∧
      ∀ p ∈ rowItems lines line, organizeItem some ws p.1 p.2.text = .ok (given p) := by
  have hgiven : ∀ s ∈ lines, ∀ item ∈ (line s).items,
      organizeItem some ws (line s).row item.text = .ok (given ((line s).row, item)) := by
    intro s hs item hitem
    rcases organizeItem_of_organize_eq_ok hparse hslots s hs item hitem with ⟨tpl, htpl⟩
    simp only [given, htpl]
    rfl
  constructor
  · have horganize : linesOrganize ws mix parser hf grid np lines =
        .ok (slotsOf hf grid np ((rowItems lines line).map given)) := by
      rw [map_rowItems]
      exact organize_eq_ok hparse hgiven
    exact Except.ok.inj (hslots.symm.trans horganize)
  · intro p hp
    rcases List.mem_flatMap.mp hp with ⟨s, hs, hp⟩
    rcases List.mem_map.mp hp with ⟨item, hitem, rfl⟩
    exact hgiven s hs item hitem

/-- If the slots are those of the entries that are meant, all items are whole: what an item that
    is not gives instead does not come from any other either. -/
theorem whole_of_linesOrganize (hgrid : grid.1 * grid.2 = np) (hnp : 0 < np)
    (hparse : ∀ s ∈ lines, parser s = .ok (line s).fields) {hf : Str → Nat}
    (hslots : linesOrganize ws mix parser hf grid np lines =
      .ok (slotsOf hf grid np (lines.flatMap fun s => (line s).entries))) :
    ∀ s ∈ lines, ∀ item ∈ (line s).items, item.Whole := by
  intro s₀ hs₀ item₀ hitem₀
  by_contra hnot
  rcases linesOrganize_eq_given hparse hslots with ⟨heq, hgiven⟩
  have hentries : (lines.flatMap fun s => (line s).entries) = (rowItems lines line).map meant :=
    (map_rowItems meant).symm
  rw [hentries] at heq
  have hforeign : ∀ p ∈ rowItems lines line, ¬p.2.Whole →
      given p ≠ meant ((line s₀).row, item₀) := by
    intro p hp hnot' hsame
    have hcol := foreign_of_organizeItem hnot' (hgiven p hp)
    rw [hsame] at hcol
    exact not_foreign_id hnot hcol
  have hmem₀ := mem_rowItems hs₀ hitem₀
  refine not_perm_of_replaced hmem₀ (hforeign _ hmem₀ hnot) ?_
    (perm_of_slotsOf_eq hgrid hnp heq.symm)
  intro p hp hsame
  by_cases hwhole : p.2.Whole
  · have hown := hgiven p hp
    rw [organizeItem_of_whole hwhole rfl rfl, Except.ok.injEq] at hown
    exact hown.trans hsame
  · exact absurd hsame (hforeign p hp hwhole)

/-- Numerals are whole, and converted to their numbers. -/
theorem linesOrganizeIds_eq_ok (hparse : ∀ s ∈ lines, parser s = .ok (line s).fields)
    (hnum : ∀ s ∈ lines, IsNumeral (line s).row ∧ ∀ item ∈ (line s).items, IsNumeral item.id)
    (hf : UInt64 → Nat) :
    linesOrganizeIds ws mix parser hf grid np lines =
      .ok (slotsOf hf grid np (lines.flatMap fun s => (line s).idEntries)) := by
  apply organize_eq_ok hparse
  intro s hs item hitem
  have hid := (hnum s hs).2 item hitem
  have hwhole : item.Whole := Item.whole_of_clean hid.1 fun c hc =>
    notMem_brackets_of_isDigit (hid.2.1 c hc)
  have hrow := (hnum s hs).1
  exact organizeItem_of_whole hwhole (stoull_of_digits hrow.1 hrow.2.1 hrow.2.2)
    (stoull_of_digits hid.1 hid.2.1 hid.2.2)

end Overloads

/-- The overload for string ids makes of each item the entry that it stands for, and puts it in
    its slot, just when all items are whole; the overload for numeric ids always does. -/
theorem lines_organize_items_iff {parser : Str → Except Fault (List Str)} {grid : Nat × Nat}
    {np : Nat} (hgrid : grid.1 * grid.2 = np) (hnp : 0 < np) {lines : List Str}
    {line : Str → Line ws mix} (hparse : ∀ s ∈ lines, parser s = .ok (line s).fields)
    (hf : Str → Nat) (hfId : UInt64 → Nat) :
    (linesOrganize ws mix parser hf grid np lines =
        .ok (slotsOf hf grid np (lines.flatMap fun s => (line s).entries)) ↔
      ∀ s ∈ lines, ∀ item ∈ (line s).items, item.Whole) ∧
    ((∀ s ∈ lines, IsNumeral (line s).row ∧ ∀ item ∈ (line s).items, IsNumeral item.id) →
      linesOrganizeIds ws mix parser hfId grid np lines =
        .ok (slotsOf hfId grid np (lines.flatMap fun s => (line s).idEntries))) := by
  refine ⟨⟨whole_of_linesOrganize hgrid hnp hparse, ?_⟩, ?_⟩
  · intro hwhole
    exact organize_eq_ok hparse fun s hs item hitem =>
      organizeItem_of_whole (hwhole s hs item hitem) rfl rfl
  · intro hnum
    exact linesOrganizeIds_eq_ok hparse hnum hfId

/-- The weights `0.5` and `1`, in tenths. -/
def halfWeights : Weights Nat where
  stod := fun s => if s = lit "0.5" then some 5 else if s = lit "1" then some 10 else none
  one := 10

/-- The weight in `:0.5`. -/
def half : ItemWeight halfWeights where
  sep := 58
  text := lit "0.5"
  val := 5
  sep_mem := by decide
  isDecimal := by decide +kernel
  stod_eq := rfl

/-- `12 7` and `12 7:0.5` as they are meant. -/
def twoLines (s : Str) : Line halfWeights false where
  row := lit "12"
  items := [⟨lit "7", if s = lit "12 7" then none else some half,
    List.forall_iff_forall_mem.mp (by decide)⟩]
  shape := .inr rfl

theorem lines_organize_items_iff_twoLines :
    linesOrganize halfWeights false (fun s => .ok (strSplit s (lit " "))) List.length (1, 2) 2
        [lit "12 7", lit "12 7:0.5"] =
      .ok [[], [(lit "12", lit "7", 10), (lit "12", lit "7", 5)]] ∧
    linesOrganizeIds halfWeights false (fun s => .ok (strSplit s (lit " "))) UInt64.toNat (1, 2) 2
        [lit "12 7", lit "12 7:0.5"] =
      .ok [[], [(12, 7, 10), (12, 7, 5)]] := by
  have h := @lines_organize_items_iff Nat halfWeights false
    (fun s => .ok (strSplit s (lit " "))) (1, 2) 2 rfl (by decide) [lit "12 7", lit "12 7:0.5"]
    twoLines (by simp [twoLines]; exact ⟨rfl, rfl⟩) List.length UInt64.toNat
  have hnum : IsNumeral (lit "12") ∧ IsNumeral (lit "7") :=
    ⟨@isNumeral_toStr 12 (by omega), @isNumeral_toStr 7 (by omega)⟩
  refine ⟨h.1.mpr ?_, h.2 ?_⟩
  · intro s _ item hitem
    rw [twoLines, List.mem_singleton] at hitem
    rw [hitem]
    have hclean : ∀ c ∈ lit "7", c ∉ lit "[]*" := List.forall_iff_forall_mem.mp (by decide)
    exact Item.whole_of_clean (List.cons_ne_nil _ _) hclean
  · intro s _
    refine ⟨hnum.1, ?_⟩
    intro item hitem
    rw [twoLines, List.mem_singleton] at hitem
    rw [hitem]
    exact hnum.2

/-- The weight in `:0.5`, behind an id with a bracket in it. -/
def bracketLine (_ : Str) : Line halfWeights false where
  row := lit "u"
  items := [⟨lit "x[1", some half, List.forall_iff_forall_mem.mp (by decide)⟩]
  shape := .inr rfl

/-- `u x[1:0.5` is taken for an entry of `x` with the weight 1. -/
theorem not_items_bracketLine :
    linesOrganize halfWeights false (fun s => .ok (strSplit s (lit " "))) List.length (1, 1) 1
        [lit "u x[1:0.5"] = .ok [[(lit "u", lit "x", 10)]] ∧
      (bracketLine []).entries = [(lit "u", lit "x[1", 5)] ∧
      ¬∀ (lines : List Str) (line : Str → Line halfWeights false),
        (∀ s ∈ lines, strSplit s (lit " ") = (line s).fields) →
        linesOrganize halfWeights false (fun s => .ok (strSplit s (lit " "))) List.length (1, 1) 1
          lines =
            .ok (slotsOf List.length (1, 1) 1 (lines.flatMap fun s => (line s).entries)) := by
  have hslots : linesOrganize halfWeights false (fun s => .ok (strSplit s (lit " "))) List.length
      (1, 1) 1 [lit "u x[1:0.5"] = .ok [[(lit "u", lit "x", 10)]] := by rfl
  refine ⟨hslots, rfl, ?_⟩
  intro hall
  have h := hall [lit "u x[1:0.5"] bracketLine (by decide)
  rw [hslots, Except.ok.injEq] at h
  exact absurd h (by decide)

end Paracel.Organize
