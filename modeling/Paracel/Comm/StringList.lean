import Paracel.Comm.TripleList

/-!
# Lists of strings on the wire

`Comm::isend` and `Comm::recv` on a list of strings (`include/utils/comm.hpp`). The
size goes first, then the strings joined with `seperator`; one string is sent as it
is. The receiver makes the list as long as announced and writes the pieces of the
text over it, as many as it finds. An empty piece at the end is not found, but its
place holds an empty string already.
-/

namespace Paracel.StringList

open SplitWord

/-- `*str_pt`, the text of a list. -/
def packList : List Str → Str
  | [] => []
  | str :: rest => TripleList.packRest id str rest

/-- `Comm::isend` of a list of strings: its size and its text. -/
def isend (strlst : List Str) : Nat × Str :=
  (strlst.length, packList strlst)

/-- `Comm::recv` of a list of strings. -/
def recv (strlst : List Str) (msg : Nat × Str) : Except Fault (List Str) :=
  TripleList.recvList .ok [] strlst msg

/-! ### The text -/

theorem packRest_eq_intercalate (str : Str) (rest : List Str) :
    TripleList.packRest id str rest = List.intercalate seperator (str :: rest) := by
  induction rest generalizing str with
  | nil => exact List.intercalate_singleton.symm
  | cons next rest ih => rw [TripleList.packRest, ih, List.intercalate_cons_cons, id]

theorem packList_eq_intercalate (strlst : List Str) :
    packList strlst = List.intercalate seperator strlst := by
  cases strlst with
  | nil => rfl
  | cons str rest => exact packRest_eq_intercalate str rest

/-- Every empty field at the end adds a separator. -/
theorem intercalate_append_replicate_nil (sep : Str) {fields : List Str} (hne : fields ≠ [])
    (k : Nat) : List.intercalate sep (fields ++ List.replicate k []) =
      List.intercalate sep fields ++ (List.replicate k sep).flatten := by
  induction k with
  | zero => simp
  | succ k ih =>
      rw [List.replicate_succ', ← List.append_assoc, intercalate_concat_nil sep (by simp [hne]), ih,
        List.replicate_succ', List.flatten_concat, List.append_assoc]

/-- So fields with the same join are the same, if they differ in empty ones at the end only. -/
theorem eq_of_intercalate_eq {sep : Str} (hsep : sep ≠ []) {fields fields' : List Str}
    (hne : fields ≠ []) {k : Nat} (h : fields' = fields ++ List.replicate k [])
    (hjoin : List.intercalate sep fields' = List.intercalate sep fields) : fields' = fields := by
  rw [h, intercalate_append_replicate_nil sep hne, List.append_right_eq_self,
    List.flatten_eq_nil_iff] at hjoin
  cases k with
  | zero => rw [h, List.replicate_zero, List.append_nil]
  | succ k => exact absurd (hjoin sep (by simp)) hsep

/-! ### The pieces -/

/-- What `recv` writes into an empty list. -/
theorem recv_eq_ok_iff {size : Nat} {text : Str} {out : List Str} :
    recv [] (size, text) = .ok out ↔
      (strSplitByWord text seperator).length ≤ size ∧
        out = strSplitByWord text seperator ++
          List.replicate (size - (strSplitByWord text seperator).length) [] := by
  have hpieces : (strSplitByWord text seperator).mapM (Except.ok : Str → Except Fault Str) =
      .ok (strSplitByWord text seperator) := by
    simpa using FirstError.mapM_eq_ok (f := (Except.ok : Str → Except Fault Str)) (g := id)
      (l := strSplitByWord text seperator) fun _ _ => rfl
  have hloop := @TripleList.unpackFrom_eq_ok_iff Str .ok (strSplitByWord text seperator) []
    (List.replicate size []) out
  rw [recv, TripleList.recvList_nil]
  refine hloop.trans ?_
  rw [List.length_replicate, List.drop_replicate, hpieces]
  simp

/-- The list comes back if and only if the split undoes the join. -/
theorem recv_isend_iff_splitWord {strlst : List Str} (hne : strlst ≠ []) :
    recv [] (isend strlst) = .ok strlst ↔
      splitWord seperator (List.intercalate seperator strlst) = strlst := by
  have hjoin := intercalate_splitWord seperator_ne_nil (List.intercalate seperator strlst)
  have hpieces := splitWord_eq_or_append_nil (List.intercalate seperator strlst) seperator
  have hsplit := splitWord_ne_nil seperator (List.intercalate seperator strlst)
  rw [isend, packList_eq_intercalate, recv_eq_ok_iff]
  generalize splitWord seperator (List.intercalate seperator strlst) = all at *
  generalize strSplitByWord (List.intercalate seperator strlst) seperator = pieces at *
  constructor
  · rintro ⟨hle, heq⟩
    rcases hpieces with rfl | rfl
    · exact (eq_of_intercalate_eq seperator_ne_nil hsplit heq hjoin.symm).symm
    · cases hk : strlst.length - pieces.length with
      | zero =>
          -- the empty piece that was dropped would be one more than was sent
          rw [hk, List.replicate_zero, List.append_nil] at heq
          exact eq_of_intercalate_eq (k := 1) seperator_ne_nil hne (by rw [heq]; rfl) hjoin
      | succ k =>
          rw [hk, List.replicate_succ, List.append_cons] at heq
          exact (eq_of_intercalate_eq seperator_ne_nil hsplit heq hjoin.symm).symm
  · rintro rfl
    rcases hpieces with rfl | rfl
    · simp
    · simp

/-- The list is received as it was sent, and nothing is written past its end, exactly when no
    separator starts in one of the strings: neither within one, nor across the end of one that
    another one follows. -/
theorem recv_isend_strings_iff (strlst : List Str) :
    (recv [] (isend strlst) = .ok strlst ∧ recv [] (isend strlst) ≠ .error .outOfRange) ↔
      (∀ str ∈ strlst, ¬seperator <:+: str) ∧ ∀ str ∈ strlst.dropLast, ¬lit "_PARACEL" <:+ str := by
  have hok : (recv [] (isend strlst) = .ok strlst ∧ recv [] (isend strlst) ≠ .error .outOfRange) ↔
      recv [] (isend strlst) = .ok strlst := by
    refine and_iff_left_of_imp fun h => ?_
    rw [h]
    simp
  rw [hok]
  rcases List.eq_nil_or_concat' strlst with rfl | ⟨init, last, rfl⟩
  · have hempty : recv [] (isend []) = .ok [] := rfl
    simp [hempty]
  · rw [recv_isend_iff_splitWord (by simp), splitWord_intercalate_iff seperator_ne_nil,
      List.dropLast_concat]
    simp only [clean_seperator_iff, List.mem_append, List.mem_singleton]
    constructor
    · rintro ⟨hclean, hlast⟩
      refine ⟨?_, fun str hstr => (hclean str hstr).2⟩
      rintro str (hstr | rfl)
      · exact (hclean str hstr).1
      · exact hlast
    · rintro ⟨hin, hsuf⟩
      exact ⟨fun str hstr => ⟨hin str (.inl hstr), hsuf str hstr⟩, hin last (.inr rfl)⟩

/-- The string `a_PARACEL_b` arrives in two pieces, and there is no place for the second one. -/
theorem not_recv_isend_separatorInside :
    ¬∀ strlst : List Str,
      recv [] (isend strlst) = .ok strlst ∧ recv [] (isend strlst) ≠ .error .outOfRange := by
  intro hall
  have hsent := hall [lit "a_PARACEL_b"]
  have hreceived : recv [] (isend [lit "a_PARACEL_b"]) = .error .outOfRange := by decide
  exact hsent.2 hreceived

end Paracel.StringList
