import Mathlib.Algebra.Order.Ring.Nat
import Mathlib.Data.List.TakeDrop
import Paracel.Misc.SplitWord
import Paracel.Types

/-!
# Messages on the wire

How `kvclt::paste` frames the operation and its arguments and how the server
takes them apart again with `str_split_by_word`. Every argument is packed by
msgpack behind an eight-byte size; the packed arguments are joined with
`seperator`, which is not escaped in them. The size is read by the packer only,
so the server finds the field boundaries by searching for the separator.
-/

namespace Paracel

open SplitWord

/-- The msgpack library on the objects `α` that are sent: strings, lists, values. -/
structure Msgpack (α : Type) where
  pack : α → Str
  unpack : Str → Option α

variable {α : Type}

/-- A `std::size_t` as the packer writes it, eight bytes with the lowest first. -/
def sizeBytes (size : Nat) : Str :=
  (List.range 8).map fun i => UInt8.ofNat (size / 256 ^ i)

/-- Reads such a number back. -/
def readSize (s : Str) : Nat :=
  (s.take 8).foldr (fun b n => b.toNat + 256 * n) 0

/-- `packer::pack` into a string. -/
def pack (mp : Msgpack α) (val : α) : Str :=
  sizeBytes (mp.pack val).length ++ mp.pack val

/-- `packer::unpack` from a string; the buffer is as long as the size read and
    zero where the string is shorter. -/
def unpack (mp : Msgpack α) (s : Str) : Option α :=
  mp.unpack ((s.drop 8).takeD (readSize s) 0)

/-- `kvclt::paste`. -/
def paste (mp : Msgpack α) : α → List α → Str
  | arg, [] => pack mp arg
  | opStr, arg :: args => pack mp opStr ++ seperator ++ paste mp arg args

/-- `str_split_by_word`: `split_regex` at a word without regex characters, less an
    empty piece at the end. -/
def strSplitByWord (str seps : Str) : List Str :=
  let result := splitWord seps str
  if result.getLast? = some [] then result.dropLast else result

/-! ### Packing -/

/-- The bytes of a number give it back, as far as they reach. -/
theorem foldr_bytes (k n : Nat) :
    ((List.range k).map fun i => UInt8.ofNat (n / 256 ^ i)).foldr
      (fun b m => b.toNat + 256 * m) 0 = n % 256 ^ k := by
  induction k generalizing n with
  | zero => simp [Nat.mod_one]
  | succ k ih =>
      have hrest : ∀ i, n / 256 ^ (i + 1) = n / 256 / 256 ^ i := by
        intro i
        rw [Nat.div_div_eq_div_mul, Nat.pow_succ']
      have hlow : (UInt8.ofNat (n / 256 ^ 0)).toNat = n % 256 := by simp
      rw [List.range_succ_eq_map, List.map_cons, List.foldr_cons, List.map_map, hlow]
      simp only [Function.comp_def, Nat.succ_eq_add_one, hrest]
      rw [ih, Nat.pow_succ', Nat.mod_mul]

theorem readSize_sizeBytes_append {size : Nat} (hsize : size < 2 ^ 64) (s : Str) :
    readSize (sizeBytes size ++ s) = size := by
  have htake : (sizeBytes size ++ s).take 8 = sizeBytes size := by
    rw [List.take_append_of_le_length (by simp [sizeBytes])]
    exact List.take_of_length_le (by simp [sizeBytes])
  rw [readSize, htake, sizeBytes, foldr_bytes]
  exact Nat.mod_eq_of_lt hsize

theorem pack_ne_nil (mp : Msgpack α) (val : α) : pack mp val ≠ [] := by
  simp [pack, sizeBytes]

theorem unpack_pack {mp : Msgpack α} {val : α} (hround : mp.unpack (mp.pack val) = some val)
    (hsize : (mp.pack val).length < 2 ^ 64) : unpack mp (pack mp val) = some val := by
  have hdrop : (pack mp val).drop 8 = mp.pack val := by
    rw [pack, List.drop_append_of_le_length (by simp [sizeBytes])]
    simp [sizeBytes]
  rw [unpack, hdrop, pack, readSize_sizeBytes_append hsize,
    List.takeD_eq_take _ (le_refl _), List.take_length, hround]

theorem paste_eq_intercalate (mp : Msgpack α) (opStr : α) (args : List α) :
    paste mp opStr args = List.intercalate seperator ((opStr :: args).map (pack mp)) := by
  induction args generalizing opStr with
  | nil => simp [paste]
  | cons arg args ih =>
      rw [paste, ih, List.map_cons, List.map_cons, List.map_cons, List.intercalate_cons_cons]

/-! ### Splitting -/

theorem intercalate_concat_nil (sep : Str) {fields : List Str} (hne : fields ≠ []) :
    List.intercalate sep (fields ++ [[]]) = List.intercalate sep fields ++ sep := by
  induction fields with
  | nil => exact absurd rfl hne
  | cons p fields ih =>
      cases fields with
      | nil => simp [List.intercalate_cons_cons]
      | cons q fields =>
          rw [List.cons_append, List.cons_append, List.intercalate_cons_cons,
            ← List.cons_append, ih (by simp), List.intercalate_cons_cons]
          simp

/-- At most an empty piece at the end is missing. -/
theorem splitWord_eq_or_append_nil (str sep : Str) :
    splitWord sep str = strSplitByWord str sep ∨
      splitWord sep str = strSplitByWord str sep ++ [[]] := by
  unfold strSplitByWord
  simp only
  split
  · rename_i hempty
    exact .inr (List.dropLast_append_getLast? [] hempty).symm
  · exact .inl rfl

theorem strSplitByWord_append {sep p : Str} (hsep : sep ≠ []) (h : Clean sep p) (r : Str) :
    strSplitByWord (p ++ sep ++ r) sep = p :: strSplitByWord r sep := by
  obtain ⟨q, qs, hqs⟩ := List.exists_cons_of_ne_nil (splitWord_ne_nil sep r)
  simp only [strSplitByWord, splitWord_clean hsep h, hqs, List.getLast?_cons_cons]
  split <;> rfl

/-- Dropping the empty piece at the end does not help to get the fields back. -/
theorem strSplitByWord_intercalate_iff {sep : Str} (hsep : sep ≠ []) {fields : List Str}
    {last : Str} (hlast : last ≠ []) :
    strSplitByWord (List.intercalate sep (fields ++ [last])) sep = fields ++ [last] ↔
      splitWord sep (List.intercalate sep (fields ++ [last])) = fields ++ [last] := by
  constructor
  · intro hsplit
    rcases splitWord_eq_or_append_nil (List.intercalate sep (fields ++ [last])) sep with h | h
    · rw [h, hsplit]
    · have hjoin := intercalate_splitWord hsep (List.intercalate sep (fields ++ [last]))
      rw [h, hsplit, intercalate_concat_nil sep (by simp)] at hjoin
      exact absurd (List.self_eq_append_right.mp hjoin.symm) hsep
  · intro hsplit
    simp [strSplitByWord, hsplit, hlast]

/-- The separator can start in a field and end in the separator behind it in one way
    only: its first and its last byte are the same. -/
theorem clean_seperator_iff (p : Str) :
    Clean seperator p ↔ ¬seperator <:+: p ∧ ¬lit "_PARACEL" <:+ p := by
  have hsplit : seperator = lit "_PARACEL" ++ lit "_" := rfl
  have hdrop : lit "_PARACEL" = seperator.dropLast := rfl
  unfold Clean
  rw [List.infix_append_iff_ne_nil, ← not_or, not_iff_not]
  constructor
  · rintro (hin | hin | ⟨l₁, l₂, h₁, h₂, heq, hsuf, hpre⟩)
    · exact .inl hin
    · exact absurd hin (by decide)
    · right
      have hborder : ∀ k < 9, 0 < k → seperator.drop k <+: seperator.dropLast → k = 8 := by
        decide
      have hl₁ : l₁ = seperator.take l₁.length := by rw [heq]; simp
      have hl₂ : l₂ = seperator.drop l₁.length := by rw [heq]; simp
      have hlen : l₁.length + l₂.length = 9 := by
        rw [← List.length_append, ← heq]
        rfl
      have hpos₁ := List.length_pos_iff.mpr h₁
      have hpos₂ := List.length_pos_iff.mpr h₂
      have h8 := hborder l₁.length (by omega) hpos₁ (by rwa [← hl₂])
      rw [h8] at hl₁
      rw [hl₁] at hsuf
      exact hsuf
  · rintro (hin | hsuf)
    · exact .inl hin
    · exact .inr (.inr ⟨lit "_PARACEL", lit "_", by decide, by decide, hsplit, hsuf, by decide⟩)

/-- Splitting a pasted message gives back the packed arguments, and with them what the
    client sent, exactly when no packed argument contains the separator and none
    but the last ends with the separator less its last byte. -/
theorem split_paste_iff (mp : Msgpack α) {opStr : α} {args : List α}
    (hround : ∀ a ∈ opStr :: args, mp.unpack (mp.pack a) = some a)
    (hsize : ∀ a ∈ opStr :: args, (mp.pack a).length < 2 ^ 64) :
    (strSplitByWord (paste mp opStr args) seperator = (opStr :: args).map (pack mp) ∧
      (strSplitByWord (paste mp opStr args) seperator).map (unpack mp) =
        (opStr :: args).map some) ↔
    (∀ a ∈ opStr :: args, ¬seperator <:+: pack mp a) ∧
      ∀ a ∈ (opStr :: args).dropLast, ¬lit "_PARACEL" <:+ pack mp a := by
  have hunpack : ((opStr :: args).map (pack mp)).map (unpack mp) = (opStr :: args).map some := by
    rw [List.map_map]
    exact List.map_congr_left fun a ha => unpack_pack (hround a ha) (hsize a ha)
  have hfields : strSplitByWord (paste mp opStr args) seperator = (opStr :: args).map (pack mp) ↔
      (∀ a ∈ opStr :: args, ¬seperator <:+: pack mp a) ∧
        ∀ a ∈ (opStr :: args).dropLast, ¬lit "_PARACEL" <:+ pack mp a := by
    rw [paste_eq_intercalate]
    obtain ⟨init, last, hinit⟩ : ∃ init last, opStr :: args = init ++ [last] :=
      ⟨_, _, (List.dropLast_append_getLast (List.cons_ne_nil opStr args)).symm⟩
    rw [hinit, List.map_append, List.map_singleton,
      strSplitByWord_intercalate_iff seperator_ne_nil (pack_ne_nil mp last),
      splitWord_intercalate_iff seperator_ne_nil, List.dropLast_concat]
    simp only [List.forall_mem_map, clean_seperator_iff, List.mem_append, List.mem_singleton]
    constructor
    · rintro ⟨hclean, hlast⟩
      refine ⟨?_, fun a ha => (hclean a ha).2⟩
      rintro a (ha | rfl)
      · exact (hclean a ha).1
      · exact hlast
    · rintro ⟨hin, hsuf⟩
      exact ⟨fun a ha => ⟨hin a (.inl ha), hsuf a ha⟩, hin last (.inr rfl)⟩
  rw [← hfields]
  constructor
  · intro h
    exact h.1
  · intro h
    exact ⟨h, by rw [h, hunpack]⟩

/-- msgpack on strings of less than 32 bytes: one byte with the length, then the string. -/
def fixraw : Msgpack Str :=
  { pack := fun s => UInt8.ofNat (0xa0 + s.length) :: s
    unpack := fun
      | [] => none
      | b :: s => if b.toNat = 0xa0 + s.length then some s else none }

theorem split_paste_iff_push :
    (strSplitByWord (paste fixraw (lit "push") [lit "_PARACEL", lit "1"]) seperator =
        [lit "push", lit "_PARACEL", lit "1"].map (pack fixraw) ∧
      (strSplitByWord (paste fixraw (lit "push") [lit "_PARACEL", lit "1"]) seperator).map
          (unpack fixraw) = [lit "push", lit "_PARACEL", lit "1"].map some) ↔
    (∀ a ∈ [lit "push", lit "_PARACEL", lit "1"], ¬seperator <:+: pack fixraw a) ∧
      ∀ a ∈ [lit "push", lit "_PARACEL", lit "1"].dropLast,
        ¬lit "_PARACEL" <:+ pack fixraw a :=
  split_paste_iff fixraw (by decide) (by decide)

/-- A pull of the key `a_PARACEL_b` arrives with three fields instead of two. -/
theorem not_split_paste_pull :
    ¬∀ (mp : Msgpack Str) (opStr : Str) (args : List Str), args ≠ [] →
      (∀ a ∈ opStr :: args, mp.unpack (mp.pack a) = some a) →
      (∀ a ∈ opStr :: args, (mp.pack a).length < 2 ^ 64) →
      strSplitByWord (paste mp opStr args) seperator = (opStr :: args).map (pack mp) := by
  intro hall
  have hsplit := hall fixraw (lit "pull") [lit "a_PARACEL_b"] (by decide) (by decide) (by decide)
  have hlength : (strSplitByWord (paste fixraw (lit "pull") [lit "a_PARACEL_b"])
      seperator).length = 3 := by decide
  rw [hsplit] at hlength
  simp at hlength

end Paracel
