import Mathlib.Data.List.Basic
import Mathlib.Data.List.TakeWhile

/-!
# Splitting at a set of separators

A list is cut at every separator and the empty pieces are dropped, so how many
pieces there are does not depend on how many separators stand between them. The
pieces are the longest non-empty runs without a separator.
-/

namespace SplitSet

variable {α : Type} {p : α → Bool}

/-- The non-empty pieces between the elements that satisfy `p`. -/
def split (p : α → Bool) (l : List α) : List (List α) :=
  (l.splitOnP p).filter fun s => decide (s ≠ [])

@[simp] theorem split_nil : split p [] = [] := by
  simp [split]

theorem split_append_cons (l tail : List α) {c : α} (hc : p c = true) :
    split p (l ++ c :: tail) = split p l ++ split p tail := by
  rw [split, List.splitOnP_append_cons l tail hc, List.filter_append]
  rfl

theorem split_cons_of_pos {c : α} (hc : p c = true) (tail : List α) :
    split p (c :: tail) = split p tail := by
  have h := split_append_cons [] tail hc
  rwa [split_nil, List.nil_append, List.nil_append] at h

/-- What has no separator in it is one piece. -/
theorem split_of_forall {l : List α} (hne : l ≠ []) (h : ∀ c ∈ l, p c = false) :
    split p l = [l] := by
  rw [split, List.splitOnP_eq_singleton h, List.filter_cons_of_pos (by simpa using hne),
    List.filter_nil]

/-- A list begins with a separator, or with a piece that ends the list or stands before a
    separator. -/
theorem split_induction {P : List α → Prop} (nil : P [])
    (skip : ∀ c tail, p c = true → P tail → P (c :: tail))
    (last : ∀ s, s ≠ [] → (∀ c ∈ s, p c = false) → P s)
    (piece : ∀ s c tail, s ≠ [] → (∀ c ∈ s, p c = false) → p c = true → P tail →
      P (s ++ c :: tail)) (l : List α) : P l := by
  induction hn : l.length using Nat.strongRecOn generalizing l with
  | ind n ih =>
      rcases l with _ | ⟨a, l⟩
      · exact nil
      · by_cases ha : p a = true
        · exact skip a l ha (ih l.length (by rw [← hn]; simp) l rfl)
        · let q : α → Bool := fun c => !p c
          have hsplit := List.takeWhile_append_dropWhile (p := q) (l := a :: l)
          have hclean : ∀ c ∈ (a :: l).takeWhile q, p c = false := fun c hc => by
            simpa [q] using List.mem_takeWhile_imp hc
          have hne : (a :: l).takeWhile q ≠ [] := by simp [q, ha]
          cases hrest : (a :: l).dropWhile q with
          | nil =>
              rw [hrest, List.append_nil] at hsplit
              rw [← hsplit]
              exact last _ hne hclean
          | cons c tail =>
              have hc : p c = true := by
                have h := List.head?_dropWhile_not q (a :: l)
                rw [hrest] at h
                simpa [q] using h
              rw [hrest] at hsplit
              have hlen : tail.length < n := by
                rw [← hn, ← hsplit, List.length_append, List.length_cons]
                omega
              rw [← hsplit]
              exact piece _ c tail hne hclean hc (ih _ hlen tail rfl)

/-- A piece is not empty and has no separator in it. -/
theorem mem_split {l s : List α} (h : s ∈ split p l) : s ≠ [] ∧ ∀ c ∈ s, p c = false := by
  induction l using split_induction (p := p) with
  | nil => simp at h
  | skip c tail hc ih =>
      rw [split_cons_of_pos hc] at h
      exact ih h
  | last s' hne hs' =>
      rw [split_of_forall hne hs', List.mem_singleton] at h
      rw [h]
      exact ⟨hne, hs'⟩
  | piece s' c tail hne hs' hc ih =>
      rw [split_append_cons s' tail hc, split_of_forall hne hs', List.singleton_append,
        List.mem_cons] at h
      rcases h with rfl | h
      · exact ⟨hne, hs'⟩
      · exact ih h

/-- There is no piece just when there are only separators. -/
theorem split_eq_nil_iff {l : List α} : split p l = [] ↔ ∀ c ∈ l, p c = true := by
  induction l using split_induction (p := p) with
  | nil => simp
  | skip c tail hc ih => rw [split_cons_of_pos hc, ih, List.forall_mem_cons, hc, eq_self, true_and]
  | last s hne hs =>
      rcases List.exists_mem_of_ne_nil s hne with ⟨c, hc⟩
      rw [split_of_forall hne hs]
      simp only [List.cons_ne_nil, false_iff]
      exact fun h => absurd (h c hc) (by simp [hs c hc])
  | piece s c tail hne hs hc ih =>
      rcases List.exists_mem_of_ne_nil s hne with ⟨c', hc'⟩
      rw [split_append_cons s tail hc, split_of_forall hne hs]
      simp only [List.singleton_append, List.cons_ne_nil, false_iff]
      exact fun h => absurd (h c' (List.mem_append_left _ hc')) (by simp [hs c' hc'])

/-- There is one piece just when the separators stand before or behind all the rest. -/
theorem length_split_eq_one_iff {l : List α} :
    (split p l).length = 1 ↔
      ∃ pre core post, l = pre ++ core ++ post ∧ core ≠ [] ∧ (∀ c ∈ core, p c = false) ∧
        ∀ c ∈ pre ++ post, p c = true := by
  constructor
  · intro h
    induction l using split_induction (p := p) with
    | nil => simp at h
    | skip c tail hc ih =>
        rw [split_cons_of_pos hc] at h
        rcases ih h with ⟨pre, core, post, rfl, hne, hcore, hout⟩
        refine ⟨c :: pre, core, post, rfl, hne, hcore, ?_⟩
        rw [List.cons_append, List.forall_mem_cons]
        exact ⟨hc, hout⟩
    | last s hne hs => exact ⟨[], s, [], by simp, hne, hs, by simp⟩
    | piece s c tail hne hs hc ih =>
        rw [split_append_cons s tail hc, split_of_forall hne hs, List.singleton_append,
          List.length_cons, Nat.add_eq_right, List.length_eq_zero_iff, split_eq_nil_iff] at h
        refine ⟨[], s, c :: tail, rfl, hne, hs, ?_⟩
        rw [List.nil_append, List.forall_mem_cons]
        exact ⟨hc, h⟩
  · rintro ⟨pre, core, post, rfl, hne, hcore, hout⟩
    rw [List.forall_mem_append] at hout
    have hpre : ∀ tail, split p (pre ++ tail) = split p tail := by
      intro tail
      have hall := hout.1
      induction pre with
      | nil => rfl
      | cons c pre ih =>
          rw [List.forall_mem_cons] at hall
          rw [List.cons_append, split_cons_of_pos hall.1]
          exact ih ⟨hall.2, hout.2⟩ hall.2
    rw [List.append_assoc, hpre]
    rcases post with _ | ⟨c, post⟩
    · rw [List.append_nil, split_of_forall hne hcore]
      rfl
    · rw [List.forall_mem_cons] at hout
      rw [split_append_cons core post hout.2.1, split_of_forall hne hcore,
        split_eq_nil_iff.mpr hout.2.2]
      rfl

/-- Words put together with one separator between them come apart again. -/
theorem split_intercalate {c : α} (hc : p c = true) {ws : List (List α)}
    (hws : ∀ w ∈ ws, w ≠ [] ∧ ∀ x ∈ w, p x = false) :
    split p (List.intercalate [c] ws) = ws := by
  induction ws with
  | nil => simp
  | cons w ws ih =>
      rw [List.forall_mem_cons] at hws
      cases ws with
      | nil =>
          rw [List.intercalate_singleton]
          exact split_of_forall hws.1.1 hws.1.2
      | cons w' ws =>
          rw [List.intercalate_cons_cons, List.append_assoc, List.singleton_append,
            split_append_cons w _ hc, split_of_forall hws.1.1 hws.1.2, ih hws.2]
          rfl

/-! ### Runs by their positions -/

/-- The elements from position `i` to before `j` have no separator among them, and the run
    cannot be made longer on either side. -/
structure IsRun (p : α → Bool) (l : List α) (i j : Nat) : Prop where
  lt : i < j
  le : j ≤ l.length
  clean : ∀ k c, i ≤ k → k < j → l[k]? = some c → p c = false
  left : ∀ k c, k + 1 = i → l[k]? = some c → p c = true
  right : ∀ c, l[j]? = some c → p c = true

/-- The pieces are all the runs of the list, in order and each once. -/
def AreRuns (p : α → Bool) (l : List α) (pieces : List (List α)) : Prop :=
  ∃ runs : List (Nat × Nat), runs.Pairwise (fun r r' => r.2 < r'.1) ∧
    (∀ i j, (i, j) ∈ runs ↔ IsRun p l i j) ∧
    pieces = runs.map fun r => (l.drop r.1).take (r.2 - r.1)

theorem not_isRun_nil {i j : Nat} : ¬IsRun p ([] : List α) i j := by
  intro h
  have hlt := h.lt
  have hle := h.le
  simp only [List.length_nil] at hle
  omega

theorem isRun_iff_of_forall {l : List α} (h : ∀ c ∈ l, p c = false) {i j : Nat} :
    IsRun p l i j ↔ l ≠ [] ∧ i = 0 ∧ j = l.length := by
  constructor
  · intro hrun
    have hlt := hrun.lt
    have hle := hrun.le
    have hnot : ∀ k, k < l.length → ∃ c, l[k]? = some c ∧ p c = false := fun k hk =>
      ⟨l[k], List.getElem?_eq_getElem hk, h _ (List.getElem_mem hk)⟩
    refine ⟨?_, ?_, ?_⟩
    · rintro rfl
      exact not_isRun_nil hrun
    · by_contra hi
      obtain ⟨c, hget, hc⟩ := hnot (i - 1) (by omega)
      rw [hrun.left (i - 1) c (by omega) hget] at hc
      cases hc
    · by_contra hj
      obtain ⟨c, hget, hc⟩ := hnot j (by omega)
      rw [hrun.right c hget] at hc
      cases hc
  · intro ⟨hne, hi, hj⟩
    subst hi hj
    refine ⟨List.length_pos_iff.mpr hne, le_refl _, ?_, ?_, ?_⟩
    · intro k c _ _ hget
      exact h c (List.mem_of_getElem? hget)
    · intro k c hk
      cases hk
    · intro c hget
      rw [List.getElem?_eq_none (le_refl _)] at hget
      cases hget

/-- The runs that end before a separator are those of the list before it. -/
theorem isRun_append_cons_left {l tail : List α} {c : α} (hc : p c = true) {i j : Nat}
    (hj : j ≤ l.length) : IsRun p (l ++ c :: tail) i j ↔ IsRun p l i j := by
  have hbefore : ∀ k, k < l.length → (l ++ c :: tail)[k]? = l[k]? := fun k hk =>
    List.getElem?_append_left hk
  constructor
  · intro h
    refine ⟨h.lt, hj, ?_, ?_, ?_⟩
    · intro k x hik hkj hget
      exact h.clean k x hik hkj ((hbefore k (by omega)).trans hget)
    · intro k x hk hget
      have hlt := h.lt
      exact h.left k x hk ((hbefore k (by omega)).trans hget)
    · intro x hget
      have hjl : j < l.length := (List.getElem?_eq_some_iff.mp hget).1
      exact h.right x ((hbefore j hjl).trans hget)
  · intro h
    have hlt := h.lt
    refine ⟨hlt, by rw [List.length_append]; omega, ?_, ?_, ?_⟩
    · intro k x hik hkj hget
      exact h.clean k x hik hkj ((hbefore k (by omega)).symm.trans hget)
    · intro k x hk hget
      exact h.left k x hk ((hbefore k (by omega)).symm.trans hget)
    · intro x hget
      rcases Nat.lt_or_eq_of_le hj with hjl | rfl
      · exact h.right x ((hbefore j hjl).symm.trans hget)
      · have hmid : (l ++ c :: tail)[l.length]? = some c := by simp
        rw [hmid] at hget
        cases hget
        exact hc

/-- The runs that begin behind a separator are those of the list behind it. -/
theorem isRun_append_cons_right {l tail : List α} {c : α} (hc : p c = true) {i j : Nat} :
    IsRun p (l ++ c :: tail) (l.length + 1 + i) (l.length + 1 + j) ↔ IsRun p tail i j := by
  have hbehind : ∀ k, (l ++ c :: tail)[l.length + 1 + k]? = tail[k]? := by
    intro k
    rw [List.getElem?_append_right (by omega), show l.length + 1 + k - l.length = k + 1 by omega,
      List.getElem?_cons_succ]
  constructor
  · intro h
    have hlt := h.lt
    have hle := h.le
    rw [List.length_append, List.length_cons] at hle
    refine ⟨by omega, by omega, ?_, ?_, ?_⟩
    · intro k x hik hkj hget
      exact h.clean (l.length + 1 + k) x (by omega) (by omega) ((hbehind k).trans hget)
    · intro k x hk hget
      exact h.left (l.length + 1 + k) x (by omega) ((hbehind k).trans hget)
    · intro x hget
      exact h.right x ((hbehind j).trans hget)
  · intro h
    have hlt := h.lt
    have hle := h.le
    refine ⟨by omega, by rw [List.length_append, List.length_cons]; omega, ?_, ?_, ?_⟩
    · intro k x hik hkj hget
      obtain ⟨k', rfl⟩ : ∃ k', k = l.length + 1 + k' := ⟨k - (l.length + 1), by omega⟩
      exact h.clean k' x (by omega) (by omega) ((hbehind k').symm.trans hget)
    · intro k x hk hget
      -- the element before the first run behind the separator may be the separator itself
      rcases Nat.lt_or_ge l.length k with hlk | hlk
      · obtain ⟨k', rfl⟩ : ∃ k', k = l.length + 1 + k' := ⟨k - (l.length + 1), by omega⟩
        exact h.left k' x (by omega) ((hbehind k').symm.trans hget)
      · obtain rfl : k = l.length := by omega
        have hmid : (l ++ c :: tail)[l.length]? = some c := by simp
        rw [hmid] at hget
        cases hget
        exact hc
    · intro x hget
      exact h.right x ((hbehind j).symm.trans hget)

/-- A separator divides the runs into those before it and those behind it. -/
theorem isRun_append_cons {l tail : List α} {c : α} (hc : p c = true) {i j : Nat} :
    IsRun p (l ++ c :: tail) i j ↔
      IsRun p l i j ∨ ∃ i' j', i = l.length + 1 + i' ∧ j = l.length + 1 + j' ∧
        IsRun p tail i' j' := by
  constructor
  · intro h
    by_cases hj : j ≤ l.length
    · exact .inl ((isRun_append_cons_left hc hj).mp h)
    · right
      have hlt := h.lt
      have hi : l.length < i := by
        by_contra hi
        have hclean := h.clean l.length c (by omega) (by omega) (by simp)
        rw [hc] at hclean
        cases hclean
      obtain ⟨i', rfl⟩ : ∃ i', i = l.length + 1 + i' := ⟨i - (l.length + 1), by omega⟩
      obtain ⟨j', rfl⟩ : ∃ j', j = l.length + 1 + j' := ⟨j - (l.length + 1), by omega⟩
      exact ⟨i', j', rfl, rfl, (isRun_append_cons_right hc).mp h⟩
  · intro h
    rcases h with h | ⟨i', j', rfl, rfl, h⟩
    · exact (isRun_append_cons_left hc h.le).mpr h
    · exact (isRun_append_cons_right hc).mpr h

theorem areRuns_nil : AreRuns p ([] : List α) [] :=
  ⟨[], List.Pairwise.nil, fun _ _ => by simp [not_isRun_nil], rfl⟩

theorem areRuns_of_forall {l : List α} (hne : l ≠ []) (h : ∀ c ∈ l, p c = false) :
    AreRuns p l [l] := by
  refine ⟨[(0, l.length)], List.pairwise_singleton _ _, ?_, by simp⟩
  intro i j
  rw [isRun_iff_of_forall h, List.mem_singleton, Prod.mk.injEq]
  exact (and_iff_right hne).symm

theorem AreRuns.append_cons {l tail : List α} {c : α} {xs ys : List (List α)}
    (hxs : AreRuns p l xs) (hc : p c = true) (hys : AreRuns p tail ys) :
    AreRuns p (l ++ c :: tail) (xs ++ ys) := by
  obtain ⟨runs, hsorted, hmem, rfl⟩ := hxs
  obtain ⟨runs', hsorted', hmem', rfl⟩ := hys
  let shift : Nat × Nat → Nat × Nat := fun r => (l.length + 1 + r.1, l.length + 1 + r.2)
  have hin : ∀ r ∈ runs, IsRun p l r.1 r.2 := fun r hr => (hmem r.1 r.2).mp hr
  refine ⟨runs ++ runs'.map shift, ?_, ?_, ?_⟩
  · rw [List.pairwise_append]
    refine ⟨hsorted, ?_, ?_⟩
    · rw [List.pairwise_map]
      exact hsorted'.imp fun h => Nat.add_lt_add_left h _
    · intro r hr r' hr'
      obtain ⟨q, -, rfl⟩ := List.mem_map.mp hr'
      have hle := (hin r hr).le
      simp only [shift]
      omega
  · intro i j
    rw [isRun_append_cons hc, List.mem_append, hmem, List.mem_map]
    refine or_congr Iff.rfl ⟨?_, ?_⟩
    · intro ⟨r, hr, heq⟩
      rw [Prod.mk.injEq] at heq
      exact ⟨r.1, r.2, heq.1.symm, heq.2.symm, (hmem' r.1 r.2).mp hr⟩
    · intro ⟨i', j', hi, hj, hrun⟩
      exact ⟨(i', j'), (hmem' i' j').mpr hrun, Prod.ext hi.symm hj.symm⟩
  · rw [List.map_append, List.map_map]
    congr 1
    · apply List.map_congr_left
      intro r hr
      have hlt := (hin r hr).lt
      have hle := (hin r hr).le
      rw [List.drop_append_of_le_length (by omega),
        List.take_append_of_le_length (by rw [List.length_drop]; omega)]
    · apply List.map_congr_left
      intro r _
      simp only [shift, Function.comp_apply]
      rw [← List.drop_drop, show (l ++ c :: tail).drop (l.length + 1) = tail by
        rw [← List.drop_drop, List.drop_left]; rfl]
      congr 1
      omega

/-- The pieces of a list are its runs. -/
theorem split_areRuns (l : List α) : AreRuns p l (split p l) := by
  induction l using split_induction (p := p) with
  | nil =>
      rw [split_nil]
      exact areRuns_nil
  | skip c tail hc ih =>
      rw [split_cons_of_pos hc]
      exact areRuns_nil.append_cons hc ih
  | last s hne hs =>
      rw [split_of_forall hne hs]
      exact areRuns_of_forall hne hs
  | piece s c tail hne hs hc ih =>
      rw [split_append_cons s tail hc, split_of_forall hne hs]
      exact (areRuns_of_forall hne hs).append_cons hc ih

end SplitSet
