import Mathlib.Data.List.Basic

/-!
# Loops that stop at the first error

`List.mapM` in `Except` runs a body on the members of a list in order and stops
at the first one on which it fails; the error of the loop is the error of that
member. If it fails on none, the loop gives all results in order.
-/

namespace FirstError

variable {ε α β : Type} {f : α → Except ε β}

theorem mapM_cons (f : α → Except ε β) (a : α) (l : List α) :
    (a :: l).mapM f = (f a).bind fun b => (l.mapM f).map (List.cons b) := by
  rw [List.mapM_cons]
  rfl

/-- A loop whose body succeeds on every member. -/
theorem mapM_eq_ok {g : α → β} {l : List α} (h : ∀ a ∈ l, f a = .ok (g a)) :
    l.mapM f = .ok (l.map g) := by
  induction l with
  | nil => rfl
  | cons a l ih =>
      rw [List.forall_mem_cons] at h
      rw [mapM_cons, h.1, ih h.2]
      rfl

theorem mapM_cons_eq_ok_iff {a : α} {l : List α} {bs : List β} :
    (a :: l).mapM f = .ok bs ↔ ∃ b bs', f a = .ok b ∧ l.mapM f = .ok bs' ∧ bs = b :: bs' := by
  rw [mapM_cons]
  cases f a with
  | error e => simp [Except.bind]
  | ok b =>
      show (l.mapM f).map (List.cons b) = .ok bs ↔ _
      cases l.mapM f with
      | error e => simp [Except.map]
      | ok bs' => simp [Except.map, eq_comm]

theorem length_of_mapM {l : List α} {bs : List β} (h : l.mapM f = .ok bs) :
    bs.length = l.length := by
  induction l generalizing bs with
  | nil =>
      cases h
      rfl
  | cons a l ih =>
      obtain ⟨b, bs', -, hrest, rfl⟩ := mapM_cons_eq_ok_iff.mp h
      rw [List.length_cons, List.length_cons, ih hrest]

/-- If the loop succeeds, so does its body on every member. -/
theorem exists_ok_of_mapM {l : List α} {bs : List β} (h : l.mapM f = .ok bs) :
    ∀ a ∈ l, ∃ b, f a = .ok b := by
  induction l generalizing bs with
  | nil => simp
  | cons a l ih =>
      obtain ⟨b, bs', ha, hrest, -⟩ := mapM_cons_eq_ok_iff.mp h
      rw [List.forall_mem_cons]
      exact ⟨⟨b, ha⟩, ih hrest⟩

theorem exists_mapM_eq_ok_iff {l : List α} :
    (∃ bs, l.mapM f = .ok bs) ↔ ∀ a ∈ l, ∃ b, f a = .ok b := by
  constructor
  · rintro ⟨bs, h⟩
    exact exists_ok_of_mapM h
  · intro h
    induction l with
    | nil => exact ⟨[], rfl⟩
    | cons a l ih =>
        rw [List.forall_mem_cons] at h
        rcases h.1 with ⟨b, hb⟩
        rcases ih h.2 with ⟨bs, hbs⟩
        refine ⟨b :: bs, ?_⟩
        rw [mapM_cons, hb, hbs]
        rfl

theorem mapM_cons_eq_error_iff {a : α} {l : List α} {e : ε} :
    (a :: l).mapM f = .error e ↔
      f a = .error e ∨ (∃ b, f a = .ok b) ∧ l.mapM f = .error e := by
  rw [mapM_cons]
  cases f a with
  | error e' => simp [Except.bind]
  | ok b =>
      show (l.mapM f).map (List.cons b) = .error e ↔ _
      cases l.mapM f <;> simp [Except.map]

/-- The error of the loop is the first one of the body. -/
theorem mapM_eq_error_iff {l : List α} {e : ε} :
    l.mapM f = .error e ↔
      ∃ pre a post, l = pre ++ a :: post ∧ (∀ x ∈ pre, ∃ b, f x = .ok b) ∧ f a = .error e := by
  induction l with
  | nil =>
      constructor
      · intro h
        cases h
      · rintro ⟨pre, a, post, h, -⟩
        simp at h
  | cons a l ih =>
      rw [mapM_cons_eq_error_iff, ih]
      constructor
      · rintro (he | ⟨ha, pre, a', post, rfl, hpre, he⟩)
        · exact ⟨[], a, l, rfl, by simp, he⟩
        · refine ⟨a :: pre, a', post, rfl, ?_, he⟩
          rw [List.forall_mem_cons]
          exact ⟨ha, hpre⟩
      · rintro ⟨pre, a', post, hl, hpre, he⟩
        cases pre with
        | nil =>
            cases hl
            exact .inl he
        | cons x pre =>
            cases hl
            rw [List.forall_mem_cons] at hpre
            exact .inr ⟨hpre.1, pre, a', post, rfl, hpre.2, he⟩

/-- Forgetting which error it was. -/
theorem toOption_mapM (f : α → Except ε β) (l : List α) :
    (l.mapM f).toOption = l.mapM fun a => (f a).toOption := by
  induction l with
  | nil => rfl
  | cons a l ih =>
      rw [mapM_cons, List.mapM_cons, ← ih]
      cases f a with
      | error e => rfl
      | ok b => cases l.mapM f <;> rfl

end FirstError
