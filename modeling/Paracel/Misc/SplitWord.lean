import Mathlib.Data.List.Infix

/-!
# Splitting at a word

`splitWord sep l` cuts `l` at the leftmost non-overlapping occurrences of the
word `sep` and keeps empty pieces. Splitting a list of fields joined with `sep`
gives the fields back exactly when no occurrence of `sep` starts inside a field:
neither within one, nor across the end of one into the separator behind it.
-/

namespace SplitWord

variable {α : Type} [DecidableEq α]

/-- The first argument counts the elements of an occurrence still to be skipped,
    the second is the piece read so far, reversed. -/
def splitAux (sep : List α) : Nat → List α → List α → List (List α)
  | _, piece, [] => [piece.reverse]
  | skip + 1, piece, _ :: l => splitAux sep skip piece l
  | 0, piece, a :: l =>
      if sep <+: a :: l then piece.reverse :: splitAux sep (sep.length - 1) [] l
      else splitAux sep 0 (a :: piece) l

/-- The pieces of `l` between the leftmost non-overlapping occurrences of `sep`. -/
def splitWord (sep l : List α) : List (List α) :=
  splitAux sep 0 [] l

/-- No occurrence of `sep` starts in `p` when `sep` comes right behind it. -/
def Clean (sep p : List α) : Prop :=
  ¬sep <:+: p ++ sep.dropLast

instance decidableClean (sep p : List α) : Decidable (Clean sep p) :=
  inferInstanceAs (Decidable (¬_))

variable {sep : List α}

private theorem splitAux_skip (m l piece : List α) :
    splitAux sep m.length piece (m ++ l) = splitAux sep 0 piece l := by
  induction m with
  | nil => rfl
  | cons a m ih => exact ih

/-- A piece without an occurrence is not cut. -/
private theorem splitAux_of_absent {piece l : List α} (h : ¬sep <:+: l) :
    splitAux sep 0 piece l = [piece.reverse ++ l] := by
  induction l generalizing piece with
  | nil => simp [splitAux]
  | cons a l ih =>
      rw [List.infix_cons_iff, not_or] at h
      rw [splitAux, if_neg h.1, ih h.2]
      simp

private theorem splitAux_ne_nil (skip : Nat) (piece l : List α) :
    splitAux sep skip piece l ≠ [] := by
  induction l generalizing skip piece with
  | nil => cases skip <;> simp [splitAux]
  | cons a l ih =>
      cases skip with
      | zero =>
          rw [splitAux]
          split
          · simp
          · exact ih 0 (a :: piece)
      | succ skip => exact ih skip piece

omit [DecidableEq α] in
/-- An occurrence that starts inside `p` lies within `p` and all of `sep` but its end. -/
private theorem isPrefix_dropLast (hsep : sep ≠ []) {a : α} {p r : List α}
    (h : sep <+: a :: p ++ sep ++ r) : sep <+: a :: p ++ sep.dropLast := by
  have hwhole : a :: p ++ sep.dropLast <+: a :: p ++ sep ++ r := by
    rw [List.append_assoc]
    exact (List.prefix_append_right_inj _).mpr
      ((List.dropLast_prefix sep).trans (List.prefix_append sep r))
  apply List.prefix_of_prefix_length_le h hwhole
  have hpos := List.length_pos_iff.mpr hsep
  simp only [List.length_append, List.length_cons, List.length_dropLast]
  omega

/-- The cut at an occurrence before which none starts. -/
private theorem splitAux_clean (hsep : sep ≠ []) {piece p r : List α} (h : Clean sep p) :
    splitAux sep 0 piece (p ++ sep ++ r) = (piece.reverse ++ p) :: splitAux sep 0 [] r := by
  induction p generalizing piece with
  | nil =>
      obtain ⟨a, m, rfl⟩ := List.exists_cons_of_ne_nil hsep
      have hpre : a :: m <+: a :: (m ++ r) := List.prefix_append (a :: m) r
      rw [List.nil_append, List.cons_append, splitAux, if_pos hpre, List.append_nil]
      congr 1
      exact splitAux_skip m r []
  | cons a p ih =>
      rw [Clean, List.cons_append, List.infix_cons_iff, not_or] at h
      have hnot : ¬sep <+: a :: (p ++ sep ++ r) := fun hpre =>
        h.1 (isPrefix_dropLast hsep (by simpa using hpre))
      rw [List.cons_append, List.cons_append, splitAux, if_neg hnot, ih h.2]
      simp

theorem splitWord_of_absent {l : List α} (h : ¬sep <:+: l) : splitWord sep l = [l] :=
  splitAux_of_absent h

theorem splitWord_clean (hsep : sep ≠ []) {p r : List α} (h : Clean sep p) :
    splitWord sep (p ++ sep ++ r) = p :: splitWord sep r :=
  splitAux_clean hsep h

theorem splitWord_ne_nil (sep l : List α) : splitWord sep l ≠ [] :=
  splitAux_ne_nil 0 [] l

omit [DecidableEq α] in
/-- Where `sep` occurs there is a first occurrence. -/
theorem exists_clean_of_present (hsep : sep ≠ []) {l : List α} (h : sep <:+: l) :
    ∃ p r, l = p ++ sep ++ r ∧ Clean sep p := by
  induction l with
  | nil => exact absurd (List.infix_nil.mp h) hsep
  | cons a l ih =>
      by_cases hpre : sep <+: a :: l
      · rcases hpre with ⟨r, hr⟩
        refine ⟨[], r, by simp [hr], ?_⟩
        intro hinf
        have hlen := hinf.length_le
        have hpos := List.length_pos_iff.mpr hsep
        simp only [List.nil_append, List.length_dropLast] at hlen
        omega
      · obtain ⟨p, r, rfl, hclean⟩ := ih ((List.infix_cons_iff.mp h).resolve_left hpre)
        refine ⟨a :: p, r, rfl, ?_⟩
        intro hinf
        rw [List.cons_append, List.infix_cons_iff] at hinf
        rcases hinf with hstart | hin
        · refine hpre (hstart.trans ?_)
          rw [List.append_assoc]
          exact List.cons_prefix_cons.mpr ⟨rfl, (List.prefix_append_right_inj _).mpr
            ((List.dropLast_prefix sep).trans (List.prefix_append sep r))⟩
        · exact hclean hin

/-- Joining the pieces again gives the list that was cut. -/
theorem intercalate_splitWord (hsep : sep ≠ []) (l : List α) :
    List.intercalate sep (splitWord sep l) = l := by
  induction hn : l.length using Nat.strong_induction_on generalizing l with
  | _ n ih =>
      by_cases hinf : sep <:+: l
      · obtain ⟨p, r, rfl, hclean⟩ := exists_clean_of_present hsep hinf
        have hpos := List.length_pos_iff.mpr hsep
        have hr : r.length < n := by
          rw [← hn]
          simp only [List.length_append]
          omega
        have hjoin := ih r.length hr r rfl
        obtain ⟨q, qs, hs⟩ := List.exists_cons_of_ne_nil (splitWord_ne_nil sep r)
        rw [hs] at hjoin
        rw [splitWord_clean hsep hclean, hs, List.intercalate_cons_cons, hjoin]
      · rw [splitWord_of_absent hinf, List.intercalate_singleton]

/-- The first piece is the one in front of a `sep` exactly when it is clean. -/
theorem splitWord_eq_cons_iff (hsep : sep ≠ []) {p r : List α} {pieces : List (List α)} :
    splitWord sep (p ++ sep ++ r) = p :: pieces ↔ Clean sep p ∧ splitWord sep r = pieces := by
  constructor
  · intro hsplit
    obtain ⟨q, r', heq, hclean⟩ := exists_clean_of_present hsep (List.infix_append p sep r)
    rw [heq, splitWord_clean hsep hclean, List.cons.injEq] at hsplit
    rcases hsplit with ⟨rfl, hrest⟩
    have hr : r = r' := List.append_cancel_left heq
    exact ⟨hclean, by rw [hr, hrest]⟩
  · rintro ⟨hclean, hrest⟩
    rw [splitWord_clean hsep hclean, hrest]

/-- Splitting joined fields gives them back exactly when every field is clean, the last
    one needing only not to contain `sep`. -/
theorem splitWord_intercalate_iff (hsep : sep ≠ []) {fields : List (List α)} {last : List α} :
    splitWord sep (List.intercalate sep (fields ++ [last])) = fields ++ [last] ↔
      (∀ p ∈ fields, Clean sep p) ∧ ¬sep <:+: last := by
  induction fields with
  | nil =>
      rw [List.nil_append, List.intercalate_singleton]
      constructor
      · intro hsplit
        refine ⟨by simp, ?_⟩
        intro hinf
        obtain ⟨p, r, rfl, hclean⟩ := exists_clean_of_present hsep hinf
        rw [splitWord_clean hsep hclean, List.cons.injEq] at hsplit
        exact splitWord_ne_nil sep r hsplit.2
      · rintro ⟨-, hlast⟩
        exact splitWord_of_absent hlast
  | cons p fields ih =>
      obtain ⟨q, qs, hqs⟩ := List.exists_cons_of_ne_nil
        (List.append_ne_nil_of_right_ne_nil fields (List.cons_ne_nil last []))
      have hjoin : List.intercalate sep (p :: fields ++ [last]) =
          p ++ sep ++ List.intercalate sep (fields ++ [last]) := by
        rw [List.cons_append, hqs, List.intercalate_cons_cons]
      rw [hjoin, List.cons_append, List.forall_mem_cons, and_assoc, ← ih,
        splitWord_eq_cons_iff hsep]

/-! ### Where an occurrence can be -/

section Infix

omit [DecidableEq α]

/-- No occurrence goes across an element that is not in `sep`. -/
theorem infix_append_cons_iff {a : α} (ha : a ∉ sep) (x y : List α) :
    sep <:+: x ++ a :: y ↔ sep <:+: x ∨ sep <:+: y := by
  constructor
  · intro h
    rcases List.infix_append_iff_ne_nil.mp h with hx | hy | ⟨l₁, l₂, -, hne, rfl, -, hpre⟩
    · exact .inl hx
    · rcases List.infix_cons_iff.mp hy with hpre | hin
      · cases sep with
        | nil => exact .inl (List.nil_infix)
        | cons b m =>
            have hba : b = a := (List.cons_prefix_cons.mp hpre).1
            exact absurd hba.symm (List.ne_of_not_mem_cons ha)
      · exact .inr hin
    · obtain ⟨b, m, rfl⟩ := List.exists_cons_of_ne_nil hne
      rw [(List.cons_prefix_cons.mp hpre).1] at ha
      exact absurd (List.mem_append_right l₁ List.mem_cons_self) ha
  · rintro (hx | hy)
    · exact hx.trans (List.prefix_append x _).isInfix
    · exact hy.trans ((List.suffix_cons a y).trans (List.suffix_append x _)).isInfix

theorem not_infix_of_forall_notMem (hsep : sep ≠ []) {m : List α} (hm : ∀ a ∈ m, a ∉ sep) :
    ¬sep <:+: m := by
  obtain ⟨b, l, rfl⟩ := List.exists_cons_of_ne_nil hsep
  intro h
  exact hm b (h.subset List.mem_cons_self) List.mem_cons_self

/-- No occurrence meets a part without elements of `sep`. -/
theorem infix_append_append_iff {m : List α} (hne : m ≠ []) (hm : ∀ a ∈ m, a ∉ sep)
    (x y : List α) : sep <:+: x ++ (m ++ y) ↔ sep <:+: x ∨ sep <:+: y := by
  induction m generalizing x with
  | nil => exact absurd rfl hne
  | cons a m ih =>
      rw [List.forall_mem_cons] at hm
      rw [List.cons_append, infix_append_cons_iff hm.1]
      cases m with
      | nil => rfl
      | cons b m =>
          have hrest := ih (by simp) hm.2 []
          rw [List.nil_append] at hrest
          have hnil : sep <:+: [] → sep <:+: y := fun h =>
            List.infix_nil.mp h ▸ List.nil_infix
          rw [hrest, or_iff_right_of_imp hnil]

end Infix

end SplitWord
