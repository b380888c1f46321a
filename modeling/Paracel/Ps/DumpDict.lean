import Paracel.Doubles
import Paracel.Load.Parser
import Paracel.Misc.Lines

/-!
# Dumped dictionaries and how they are loaded

`paracel_dump_dict` for lists of ids with weights (`include/ps.hpp`) writes a
line `key<tab>id:weight|id:weight|...` for each entry. Spectral clustering loads
such files again, with `parser_b('\t', '|')` and `mix` (`alg/clustering/sc.hpp`).
Writer and reader share three separators, one inside the other, and a weight goes
through six decimals.
-/

namespace Paracel.DumpDict

open Organize

/-- `paracel::dict_type<str_type, list_type<pair<str_type, double>>>`. -/
abbrev Data := Dict Str (List (Str × ℚ))

/-- `kv.second[i].first << ':' << std::to_string(kv.second[i].second)`. -/
def dumpItem (p : Str × ℚ) : Str :=
  p.1 ++ 58 :: doubleStr p.2

/-- The line of one entry. For an empty list `size() - 1` wraps, and the loop reads past its
    end. -/
def dumpEntry (key : Str) (lst : List (Str × ℚ)) : Except Fault Str :=
  match lst.getLast? with
  | none => .error .outOfRange
  | some back =>
      .ok (key ++ 9 :: ((lst.dropLast.flatMap fun p => dumpItem p ++ [124]) ++ dumpItem back) ++
        [10])

/-- `paracel_dump_dict`: what is written to the file. -/
def paracelDumpDict (data : Data) : Except Fault Str :=
  (data.entries.mapM fun kv => dumpEntry kv.1 kv.2).map List.flatten

/-- The lines of a text, as `std::getline` gives them. -/
def textLines (text : Str) : List Str :=
  (Lines.linesFrom 10 0 text).map Prod.snd

/-- `std::stod` for the weights. -/
def doubleWeights : Weights ℚ where
  stod := stod
  one := 1

/-- Tab, newline, space and the delimiter of `lines_organize`. -/
def reserved : Str := [9, 10] ++ delimiter

/-- A key or an id that can be told from what stands around it. -/
def Word (w : Str) : Prop :=
  w ≠ [] ∧ ∀ c ∈ w, c ∉ reserved

instance (w : Str) : Decidable (Word w) :=
  decidable_of_iff (w ≠ [] ∧ w.Forall fun c => c ∉ reserved)
    (and_congr_right' List.forall_iff_forall_mem)

/-- A list of the dictionary: it is not empty, and its weights have at most six decimals. -/
structure Dumpable (lst : List (Str × ℚ)) : Prop where
  ne_nil : lst ≠ []
  word : ∀ p ∈ lst, Word p.1
  decimals : ∀ p ∈ lst, ∃ m : ℤ, p.2 = m / 10 ^ 6

/-! ### The texts -/

section Texts

variable {key : Str} {lst : List (Str × ℚ)} {p : Str × ℚ}

/-- A loop that stops before the last element, and the last element, make up the joined list. -/
theorem flatMap_dropLast_append (f : Str × ℚ → Str) (c : UInt8) (lst : List (Str × ℚ))
    (back : Str × ℚ) :
    ((lst ++ [back]).dropLast.flatMap fun p => f p ++ [c]) ++ f back =
      List.intercalate [c] ((lst ++ [back]).map f) := by
  rw [List.dropLast_concat]
  induction lst with
  | nil => simp
  | cons p lst ih =>
      obtain ⟨q, rest, hq⟩ : ∃ q rest, lst ++ [back] = q :: rest :=
        List.exists_cons_of_ne_nil (by simp)
      rw [List.cons_append, List.map_cons, hq, List.map_cons, List.intercalate_cons_cons,
        ← List.map_cons, ← hq, ← ih]
      simp

/-- The line of an entry that is not empty. -/
theorem dumpEntry_eq (key : Str) (hne : lst ≠ []) :
    dumpEntry key lst = .ok (key ++ 9 :: List.intercalate [124] (lst.map dumpItem) ++ [10]) := by
  obtain ⟨init, back, rfl⟩ : ∃ init back, lst = init ++ [back] :=
    ⟨_, _, (List.dropLast_append_getLast hne).symm⟩
  rw [dumpEntry, List.getLast?_concat]
  simp only [flatMap_dropLast_append]

/-- A printed weight has no character with a meaning of its own. -/
theorem word_doubleStr (w : ℚ) : Word (doubleStr w) := by
  refine ⟨doubleStr_ne_nil w, ?_⟩
  have hdigit : ∀ c ∈ reserved, isDigit c = false := List.forall_iff_forall_mem.mp (by decide)
  have hother : ∀ c ∈ lit "-.", c ∉ reserved := List.forall_iff_forall_mem.mp (by decide)
  intro c hc hreserved
  rcases mem_doubleStr hc with h | h
  · rw [hdigit c hreserved] at h
    cases h
  · exact hother c h hreserved

theorem dumpItem_ne_nil (p : Str × ℚ) : dumpItem p ≠ [] := by
  simp [dumpItem]

/-- The colon is the one character of an item that is reserved. -/
theorem eq_of_mem_dumpItem (hp : Word p.1) {c : UInt8} (hc : c ∈ dumpItem p)
    (hreserved : c ∈ reserved) : c = 58 := by
  rw [dumpItem, List.mem_append, List.mem_cons] at hc
  rcases hc with hid | rfl | hweight
  · exact absurd hreserved (hp.2 c hid)
  · rfl
  · exact absurd hreserved ((word_doubleStr p.2).2 c hweight)

/-- Joined items have bars and colons between words only. -/
theorem eq_of_mem_items (hlst : ∀ p ∈ lst, Word p.1) {c : UInt8}
    (hc : c ∈ List.intercalate [124] (lst.map dumpItem)) (hreserved : c ∈ reserved) :
    c = 58 ∨ c = 124 := by
  induction lst with
  | nil => simp at hc
  | cons p lst ih =>
      rw [List.forall_mem_cons] at hlst
      cases lst with
      | nil =>
          rw [List.map_singleton, List.intercalate_singleton] at hc
          exact .inl (eq_of_mem_dumpItem hlst.1 hc hreserved)
      | cons q lst =>
          rw [List.map_cons, List.map_cons, List.intercalate_cons_cons, ← List.map_cons,
            List.mem_append, List.mem_append, List.mem_singleton] at hc
          rcases hc with (hitem | hbar) | hrest
          · exact .inl (eq_of_mem_dumpItem hlst.1 hitem hreserved)
          · exact .inr hbar
          · exact ih hlst.2 hrest

theorem items_ne_nil (hne : lst ≠ []) : List.intercalate [124] (lst.map dumpItem) ≠ [] := by
  obtain ⟨p, rest, rfl⟩ := List.exists_cons_of_ne_nil hne
  cases rest with
  | nil => simp [dumpItem]
  | cons q rest => simp [dumpItem]

end Texts

/-! ### Reading a line back -/

section Line

variable {key : Str} {lst : List (Str × ℚ)}

/-- The line of an entry without its end. -/
def entryLine (key : Str) (lst : List (Str × ℚ)) : Str :=
  key ++ 9 :: List.intercalate [124] (lst.map dumpItem)

theorem newline_notMem_entryLine (hkey : Word key) (hlst : ∀ p ∈ lst, Word p.1) :
    10 ∉ entryLine key lst := by
  have hreserved : (10 : UInt8) ∈ reserved := by decide
  rw [entryLine, List.mem_append, List.mem_cons]
  rintro (h | h | h)
  · exact hkey.2 10 h hreserved
  · cases h
  · rcases eq_of_mem_items hlst h hreserved with h | h <;> cases h

/-- The tab parts the key from the items, the bars part the items: one of them or more. -/
theorem parserB_entryLine (hkey : Word key) (hdump : Dumpable lst) :
    parserB 9 124 (entryLine key lst) = .ok (key :: lst.map dumpItem) := by
  have htab : ∀ c ∈ List.intercalate [124] (lst.map dumpItem), c ∉ ([9] : Str) := by
    intro c hc h
    rw [List.mem_singleton] at h
    subst h
    rcases eq_of_mem_items hdump.word hc (by decide) with h | h <;> cases h
  have hkeytab : ∀ c ∈ key, c ∉ ([9] : Str) := by
    intro c hc h
    rw [List.mem_singleton] at h
    subst h
    exact hkey.2 9 hc (by decide)
  have hline : strSplit (entryLine key lst) [9] =
      [key, List.intercalate [124] (lst.map dumpItem)] := by
    rw [entryLine, strSplit_append_cons _ _ (List.mem_singleton_self _),
      strSplit_of_forall hkey.1 hkeytab, strSplit_of_forall (items_ne_nil hdump.ne_nil) htab]
    rfl
  have hitems : strSplit (List.intercalate [124] (lst.map dumpItem)) [124] =
      lst.map dumpItem := by
    apply SplitSet.split_intercalate (by decide)
    intro item hitem
    obtain ⟨p, hp, rfl⟩ := List.mem_map.mp hitem
    refine ⟨dumpItem_ne_nil p, ?_⟩
    intro c hc
    rw [decide_eq_false_iff_not, List.mem_singleton]
    rintro rfl
    cases eq_of_mem_dumpItem (hdump.word p hp) hc (by decide)
  rw [parserB, hline]
  show Except.ok (key :: strSplit (List.intercalate [124] (lst.map dumpItem)) [124]) = _
  rw [hitems]

/-- An item gives its id and its weight. -/
theorem organizeItem_dumpItem {p : Str × ℚ} (hp : Word p.1) (hm : ∃ m : ℤ, p.2 = m / 10 ^ 6) :
    organizeItem some doubleWeights key (dumpItem p) = .ok (key, p.1, p.2) := by
  have hdelimiter : ∀ w, Word w → strSplit w delimiter = [w] := fun w hw =>
    strSplit_of_forall hw.1 fun c hc h => hw.2 c hc (List.mem_append_right _ h)
  have hpieces : strSplit (dumpItem p) delimiter = [p.1, doubleStr p.2] := by
    rw [dumpItem, strSplit_append_cons _ _ (by decide), hdelimiter _ hp,
      hdelimiter _ (word_doubleStr p.2)]
    rfl
  obtain ⟨m, hm⟩ := hm
  have hread : doubleWeights.stod (doubleStr p.2) = some p.2 := stod_doubleStr hm
  rw [organizeItem_cons hpieces rfl rfl, hread]
  rfl

/-- A line gives the entries of its list, whatever its length. -/
theorem organizeLine_entry (hdump : Dumpable lst) :
    organizeLine some doubleWeights true (key :: lst.map dumpItem) =
      .ok (lst.map fun p => (key, p.1, p.2)) := by
  rw [organizeLine_items (.inl rfl), List.mapM_map]
  exact FirstError.mapM_eq_ok fun p hp =>
    organizeItem_dumpItem (hdump.word p hp) (hdump.decimals p hp)

end Line

/-! ### The whole file -/

/-- The entries of the dictionary. -/
def triples (data : Data) : List (Triple ℚ) :=
  data.entries.flatMap fun kv => kv.2.map fun p => (kv.1, p.1, p.2)

/-- The keys are words, the lists can be dumped. -/
def Writable (data : Data) : Prop :=
  ∀ kv ∈ data.entries, Word kv.1 ∧ Dumpable kv.2

section File

variable {data : Data}

theorem paracelDumpDict_eq (hdata : Writable data) :
    paracelDumpDict data =
      .ok (data.entries.map fun kv => entryLine kv.1 kv.2 ++ [10]).flatten := by
  have hrows : (data.entries.mapM fun kv => dumpEntry kv.1 kv.2) =
      .ok (data.entries.map fun kv => entryLine kv.1 kv.2 ++ [10]) :=
    FirstError.mapM_eq_ok fun kv hkv => dumpEntry_eq kv.1 (hdata kv hkv).2.ne_nil
  rw [paracelDumpDict, hrows]
  rfl

/-- Each line of a text that ends its lines is read by itself. -/
theorem textLines_flatten (lines : List Str) (h : ∀ l ∈ lines, 10 ∉ l) :
    textLines (lines.map fun l => l ++ [10]).flatten = lines := by
  induction lines with
  | nil => simp [textLines]
  | cons l lines ih =>
      rw [List.forall_mem_cons] at h
      rw [List.map_cons, List.flatten_cons, textLines, List.append_assoc, List.singleton_append,
        Lines.linesFrom_append 0 h.1, List.map_cons, Lines.map_snd_linesFrom]
      exact congrArg (l :: ·) (ih h.2)

/-- A dictionary that was dumped is loaded again: each line gives the entries of its list, and
    the slots have one triple for each of them. -/
theorem dump_load_round_trip (hdata : Writable data) (pattern : Str) (hf : Str → Nat) {np : Nat}
    (hnp : 0 < np) :
    ∃ text, paracelDumpDict data = .ok text ∧ ∃ slots,
      Organize.linesOrganize doubleWeights true (parserB 9 124) hf (dimInit pattern np) np
        (textLines text) = .ok slots ∧
      slots.flatten.Perm (triples data) := by
  have hlines : textLines (data.entries.map fun kv => entryLine kv.1 kv.2 ++ [10]).flatten =
      data.entries.map fun kv => entryLine kv.1 kv.2 := by
    have hclean : ∀ l ∈ data.entries.map fun kv => entryLine kv.1 kv.2, 10 ∉ l := by
      intro l hl
      obtain ⟨kv, hkv, rfl⟩ := List.mem_map.mp hl
      exact newline_notMem_entryLine (hdata kv hkv).1 (hdata kv hkv).2.word
    have h := textLines_flatten _ hclean
    rwa [List.map_map] at h
  have hparsed : ((data.entries.map fun kv => entryLine kv.1 kv.2).mapM fun line =>
      (parserB 9 124 line).bind fun stf => organizeLine some doubleWeights true stf) =
      .ok (data.entries.map fun kv => kv.2.map fun p => (kv.1, p.1, p.2)) := by
    rw [List.mapM_map]
    apply FirstError.mapM_eq_ok
    intro kv hkv
    obtain ⟨hkey, hdump⟩ := hdata kv hkv
    show ((parserB 9 124 (entryLine kv.1 kv.2)).bind fun stf =>
      organizeLine some doubleWeights true stf) = _
    rw [parserB_entryLine hkey hdump]
    exact organizeLine_entry hdump
  refine ⟨_, paracelDumpDict_eq hdata, slotsOf hf (dimInit pattern np) np (triples data), ?_, ?_⟩
  · rw [hlines]
    show (((data.entries.map fun kv => entryLine kv.1 kv.2).mapM fun line =>
      (parserB 9 124 line).bind fun stf => organizeLine some doubleWeights true stf).bind
        fun tpls => .ok (slotsOf hf (dimInit pattern np) np tpls.flatten)) = _
    rw [hparsed]
    rfl
  · have hgrid := dimInit_mul pattern np
    have hpos : 0 < (dimInit pattern np).1 * (dimInit pattern np).2 := by
      rw [hgrid]
      exact hnp
    exact Slots.flatten_foldl_put_perm _ fun tpl _ => lt_of_lt_of_eq
      (cell_lt _ _ (Nat.pos_of_mul_pos_right hpos) (Nat.pos_of_mul_pos_left hpos)) hgrid

end File

/-- One entry with a list of one item, and one with two. -/
def twoRows : Data :=
  (AList.singleton (lit "r1") [(lit "a", 1 / 2)]).insert (lit "r2")
    [(lit "a", -3), (lit "b", 1 / 4)]

theorem writable_twoRows : Writable twoRows := by
  have hentries : twoRows.entries =
      [⟨lit "r2", [(lit "a", -3), (lit "b", 1 / 4)]⟩, ⟨lit "r1", [(lit "a", 1 / 2)]⟩] := by
    rfl
  rw [Writable, hentries]
  simp only [List.forall_mem_cons, List.not_mem_nil, false_imp_iff, implies_true, and_true]
  refine ⟨⟨by decide, by simp, ?_, ?_⟩, by decide, by simp, ?_, ?_⟩
  · simp only [List.forall_mem_cons, List.not_mem_nil, false_imp_iff, implies_true, and_true]
    exact ⟨by decide, by decide⟩
  · simp only [List.forall_mem_cons, List.not_mem_nil, false_imp_iff, implies_true, and_true]
    exact ⟨⟨-3000000, by norm_num⟩, ⟨250000, by norm_num⟩⟩
  · simp only [List.forall_mem_cons, List.not_mem_nil, false_imp_iff, implies_true, and_true]
    decide
  · simp only [List.forall_mem_cons, List.not_mem_nil, false_imp_iff, implies_true, and_true]
    exact ⟨500000, by norm_num⟩

theorem dump_load_round_trip_twoRows :
    ∃ text, paracelDumpDict twoRows = .ok text ∧ ∃ slots,
      Organize.linesOrganize doubleWeights true (parserB 9 124) List.length
        (dimInit (lit "smap") 2) 2 (textLines text) = .ok slots ∧
      slots.flatten.Perm (triples twoRows) :=
  dump_load_round_trip writable_twoRows (lit "smap") List.length (by decide)

end Paracel.DumpDict
