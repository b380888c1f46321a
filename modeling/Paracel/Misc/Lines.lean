import Mathlib.Data.List.Basic
import Mathlib.Data.List.Flatten
import Mathlib.Data.List.TakeWhile

/-!
# Lines of a text and where they start

A text is cut into lines by a separator that ends each line but possibly the
last. Every line is paired with the position of its first character, so what a
reader gets who starts or stops in the middle of the text can be said by
positions: who skips to the end of the line that a cut falls into gets the lines
that start at the cut or later. Consecutive cuts share out all lines.
-/

namespace Lines

section Text

variable {α : Type} [DecidableEq α] (nl : α)

/-- The next line and what follows its end; both are empty at the end of the text. -/
def getline (rest : List α) : List α × List α :=
  (rest.takeWhile fun c => c ≠ nl, (rest.dropWhile fun c => c ≠ nl).drop 1)

variable {nl}

theorem getline_nil : getline nl [] = ([], []) := rfl

theorem getline_of_notMem {l : List α} (h : nl ∉ l) : getline nl l = (l, []) := by
  have hall : ∀ c ∈ l, decide (c ≠ nl) = true := by
    intro c hc
    exact decide_eq_true fun heq => h (heq ▸ hc)
  rw [getline, List.takeWhile_eq_self_iff.mpr hall, List.dropWhile_eq_nil_iff.mpr hall]
  rfl

theorem getline_append {l tail : List α} (h : nl ∉ l) :
    getline nl (l ++ nl :: tail) = (l, tail) := by
  induction l with
  | nil => simp [getline]
  | cons c l ih =>
      rw [List.mem_cons, not_or] at h
      have hc : decide (c ≠ nl) = true := decide_eq_true (Ne.symm h.1)
      have hrest := ih h.2
      simp only [getline, Prod.mk.injEq] at hrest ⊢
      rw [List.cons_append, List.takeWhile_cons, List.dropWhile_cons, hc]
      exact ⟨by rw [if_pos rfl, hrest.1], hrest.2⟩

theorem exists_line {rest : List α} (h : nl ∈ rest) :
    ∃ l tail, nl ∉ l ∧ rest = l ++ nl :: tail := by
  induction rest with
  | nil => cases h
  | cons c rest ih =>
      by_cases hc : nl = c
      · exact ⟨[], rest, by simp, by simp [hc]⟩
      · rcases ih ((List.mem_cons.mp h).resolve_left hc) with ⟨l, tail, hl, rfl⟩
        exact ⟨c :: l, tail, by simp [hc, hl], rfl⟩

variable (nl) in
/-- A text is empty, one line without a separator, or a line with one before a text. -/
theorem text_induction {P : List α → Prop} (nil : P [])
    (last : ∀ l, l ≠ [] → nl ∉ l → P l)
    (line : ∀ l tail, nl ∉ l → P tail → P (l ++ nl :: tail)) (rest : List α) : P rest := by
  induction h : rest.length using Nat.strongRecOn generalizing rest with
  | ind k ih =>
      by_cases hnl : nl ∈ rest
      · rcases exists_line hnl with ⟨l, tail, hl, rfl⟩
        apply line l tail hl
        refine ih tail.length ?_ tail rfl
        rw [← h, List.length_append, List.length_cons]
        omega
      · by_cases hrest : rest = []
        · rw [hrest]
          exact nil
        · exact last rest hrest hnl

variable (nl)

/-- A line, its separator and the rest are the whole text. -/
theorem length_le_getline (rest : List α) :
    rest.length ≤ (getline nl rest).1.length + 1 + (getline nl rest).2.length := by
  have hsplit := congrArg List.length
    (List.takeWhile_append_dropWhile (p := fun c => c ≠ nl) (l := rest))
  rw [List.length_append] at hsplit
  simp only [getline, List.length_drop]
  omega

theorem length_getline_snd {rest : List α} (h : rest ≠ []) :
    (getline nl rest).2.length < rest.length := by
  have hle : (rest.dropWhile fun c => c ≠ nl).length ≤ rest.length :=
    (List.dropWhile_suffix _).length_le
  have hpos := List.length_pos_of_ne_nil h
  rw [getline, List.length_drop]
  omega

theorem length_getline_lt {rest : List α} (h : (getline nl rest).1 ≠ []) :
    (getline nl rest).2.length < rest.length := by
  apply length_getline_snd
  rintro rfl
  exact h rfl

/-- The lines of a text that starts at `pos`, with their positions. -/
def linesFrom (pos : Nat) (rest : List α) : List (Nat × List α) :=
  if h : rest = [] then []
  else
    (pos, (getline nl rest).1) ::
      linesFrom (pos + (getline nl rest).1.length + 1) (getline nl rest).2
termination_by rest.length
decreasing_by exact length_getline_snd nl h

variable {nl}

@[simp] theorem linesFrom_nil (pos : Nat) : linesFrom nl pos [] = [] := by
  rw [linesFrom, dif_pos rfl]

theorem linesFrom_of_notMem (pos : Nat) {l : List α} (hne : l ≠ []) (h : nl ∉ l) :
    linesFrom nl pos l = [(pos, l)] := by
  rw [linesFrom, dif_neg hne, getline_of_notMem h, linesFrom_nil]

theorem linesFrom_append (pos : Nat) {l tail : List α} (h : nl ∉ l) :
    linesFrom nl pos (l ++ nl :: tail) =
      (pos, l) :: linesFrom nl (pos + l.length + 1) tail := by
  rw [linesFrom, dif_neg (by simp), getline_append h]

/-- A line starts within the text. -/
theorem mem_linesFrom {pos g : Nat} {rest l : List α} (h : (g, l) ∈ linesFrom nl pos rest) :
    pos ≤ g ∧ g < pos + rest.length := by
  induction rest using text_induction nl generalizing pos with
  | nil => simp at h
  | last l' hne hl' =>
      rw [linesFrom_of_notMem pos hne hl', List.mem_singleton] at h
      cases h
      exact ⟨le_rfl, Nat.lt_add_of_pos_right (List.length_pos_of_ne_nil hne)⟩
  | line l' tail hl' ih =>
      rw [linesFrom_append pos hl', List.mem_cons] at h
      rw [List.length_append, List.length_cons]
      rcases h with h | h
      · cases h
        exact ⟨le_rfl, by omega⟩
      · have hg := ih h
        exact ⟨by omega, by omega⟩

theorem pairwise_linesFrom (pos : Nat) (rest : List α) :
    (linesFrom nl pos rest).Pairwise fun a b => a.1 < b.1 := by
  induction rest using text_induction nl generalizing pos with
  | nil => simp
  | last l hne hl => simp [linesFrom_of_notMem pos hne hl]
  | line l tail hl ih =>
      rw [linesFrom_append pos hl, List.pairwise_cons]
      refine ⟨?_, ih _⟩
      rintro ⟨g, l'⟩ hmem
      have hg := (mem_linesFrom hmem).1
      show pos < g
      omega

/-- The lines do not depend on where the text starts. -/
theorem map_snd_linesFrom (pos : Nat) (rest : List α) :
    (linesFrom nl pos rest).map Prod.snd = (linesFrom nl 0 rest).map Prod.snd := by
  induction rest using text_induction nl generalizing pos with
  | nil => simp
  | last l hne hl => simp [linesFrom_of_notMem _ hne hl]
  | line l tail hl ih =>
      rw [linesFrom_append pos hl, linesFrom_append 0 hl, List.map_cons, List.map_cons, ih,
        ih (0 + l.length + 1)]

/-- Skipping to the end of the line that the character before a cut is in. -/
theorem linesFrom_skip (pos offset : Nat) (rest : List α) (hpos : 0 < offset) :
    linesFrom nl (pos + (offset + (getline nl (rest.drop (offset - 1))).1.length))
        (getline nl (rest.drop (offset - 1))).2 =
      (linesFrom nl pos rest).filter fun p => pos + offset ≤ p.1 := by
  induction rest using text_induction nl generalizing pos offset with
  | nil => simp [getline]
  | last l hne hl =>
      have hdrop : nl ∉ l.drop (offset - 1) := fun h => hl (List.mem_of_mem_drop h)
      rw [getline_of_notMem hdrop, linesFrom_nil, linesFrom_of_notMem pos hne hl]
      simp
      omega
  | line l tail hl ih =>
      rw [linesFrom_append pos hl, List.filter_cons_of_neg (by simp; omega)]
      by_cases hcut : offset ≤ l.length + 1
      · have hdrop : nl ∉ l.drop (offset - 1) := fun h => hl (List.mem_of_mem_drop h)
        rw [List.drop_append_of_le_length (by omega), getline_append hdrop, List.length_drop,
          List.filter_eq_self.mpr]
        · congr 1
          omega
        · rintro ⟨g, l'⟩ hmem
          have hg := (mem_linesFrom hmem).1
          exact decide_eq_true (by show pos + offset ≤ g; omega)
      · have hdrop : (l ++ nl :: tail).drop (offset - 1) =
            tail.drop (offset - (l.length + 1) - 1) := by
          rw [List.drop_append, List.drop_eq_nil_of_le (by omega), List.nil_append,
            show offset - 1 - l.length = (offset - (l.length + 1) - 1) + 1 by omega,
            List.drop_succ_cons]
        rw [hdrop]
        have hrest := ih (pos + l.length + 1) (offset - (l.length + 1)) (by omega)
        rw [show pos + l.length + 1 + (offset - (l.length + 1)) = pos + offset by omega] at hrest
        rw [← hrest]
        congr 1
        omega

end Text

section Cuts

variable {α β : Type}

/-- Half-open intervals that follow one another from `a` to `z`. -/
def Tiles (z : Nat) : Nat → List (Nat × Nat) → Prop
  | a, [] => a = z
  | a, b :: bs => b.1 = a ∧ a ≤ b.2 ∧ Tiles z b.2 bs

/-- The items that an interval has. -/
def within (b : Nat × Nat) (items : List (Nat × β)) : List (Nat × β) :=
  items.filter fun p => b.1 ≤ p.1 ∧ p.1 < b.2

theorem mem_within {b : Nat × Nat} {items : List (Nat × β)} {p : Nat × β} :
    p ∈ within b items ↔ p ∈ items ∧ b.1 ≤ p.1 ∧ p.1 < b.2 := by
  simp [within]

theorem Tiles.le_fst {a z : Nat} {bs : List (Nat × Nat)} (h : Tiles z a bs) :
    ∀ b ∈ bs, a ≤ b.1 := by
  induction bs generalizing a with
  | nil => simp
  | cons b bs ih =>
      rcases h with ⟨hfst, hle, hrest⟩
      intro b' hb'
      rcases List.mem_cons.mp hb' with rfl | hb'
      · exact hfst.ge
      · exact hle.trans (ih hrest b' hb')

/-- Ascending cuts make consecutive intervals. -/
theorem tiles_zip {a : Nat} {cuts : List Nat} (h : (a :: cuts).Pairwise (· < ·)) :
    Tiles (cuts.getLastD a) a ((a :: cuts).zip cuts) := by
  induction cuts generalizing a with
  | nil => rfl
  | cons c cuts ih =>
      rw [List.pairwise_cons] at h
      rw [List.zip_cons_cons, List.getLastD_cons]
      exact ⟨rfl, (h.1 c List.mem_cons_self).le, ih h.2⟩

/-- The intervals between ascending cuts are non-empty and end no later than the last cut. -/
theorem mem_zip_cuts {a : Nat} {cuts : List Nat} (h : (a :: cuts).Pairwise (· < ·)) :
    ∀ b ∈ (a :: cuts).zip cuts, b.1 < b.2 ∧ b.2 ≤ cuts.getLastD a := by
  induction cuts generalizing a with
  | nil => simp
  | cons c cuts ih =>
      rw [List.pairwise_cons] at h
      rw [List.zip_cons_cons, List.getLastD_cons]
      intro b hb
      rcases List.mem_cons.mp hb with rfl | hb
      · refine ⟨h.1 c List.mem_cons_self, ?_⟩
        rcases List.eq_nil_or_concat' cuts with rfl | ⟨cuts, z, rfl⟩
        · exact le_rfl
        · rw [List.getLastD_concat]
          exact ((List.pairwise_cons.mp h.2).1 z (by simp)).le
      · exact ih h.2 b hb

/-- Sorted items are those before a cut and then those after it. -/
theorem filter_append_filter {items : List (Nat × β)}
    (hsort : items.Pairwise fun p q => p.1 < q.1) (cut : Nat) :
    items.filter (fun p => p.1 < cut) ++ items.filter (fun p => cut ≤ p.1) =
      items := by
  induction items with
  | nil => rfl
  | cons p items ih =>
      rw [List.pairwise_cons] at hsort
      by_cases hp : p.1 < cut
      · rw [List.filter_cons_of_pos (by simpa using hp),
          List.filter_cons_of_neg (by simpa using hp), List.cons_append, ih hsort.2]
      · have hlate : ∀ q ∈ p :: items, cut ≤ q.1 := by
          intro q hq
          rcases List.mem_cons.mp hq with rfl | hq
          · omega
          · have := hsort.1 q hq
            omega
        rw [List.filter_eq_nil_iff.mpr (by simpa using hlate),
          List.filter_eq_self.mpr (by simpa using hlate), List.nil_append]

/-- Consecutive intervals share out sorted items, in order. -/
theorem Tiles.flatMap_within {a z : Nat} {bs : List (Nat × Nat)} (h : Tiles z a bs)
    {items : List (Nat × β)} (hsort : items.Pairwise fun p q => p.1 < q.1)
    (hitems : ∀ p ∈ items, a ≤ p.1 ∧ p.1 < z) :
    (bs.flatMap fun b => within b items) = items := by
  induction bs generalizing a items with
  | nil =>
      have hnil : items = [] := by
        apply List.eq_nil_iff_forall_not_mem.mpr
        intro p hp
        have hpos := hitems p hp
        have hend : a = z := h
        omega
      rw [hnil, List.flatMap_nil]
  | cons b bs ih =>
      rcases h with ⟨hfst, hle, hrest⟩
      have hhead : within b items = items.filter fun p => p.1 < b.2 := by
        apply List.filter_congr
        intro p hp
        have hpos := (hitems p hp).1
        simp only [decide_eq_decide]
        omega
      have htail : ∀ b' ∈ bs,
          within b' items = within b' (items.filter fun p => b.2 ≤ p.1) := by
        intro b' hb'
        have hb := hrest.le_fst b' hb'
        rw [within, within, List.filter_filter]
        apply List.filter_congr
        intro p _
        rw [← Bool.decide_and, decide_eq_decide]
        omega
      have hlate : ∀ p ∈ items.filter fun p => b.2 ≤ p.1, b.2 ≤ p.1 ∧ p.1 < z := by
        intro p hp
        rw [List.mem_filter, decide_eq_true_eq] at hp
        exact ⟨hp.2, (hitems p hp.1).2⟩
      rw [List.flatMap_cons, hhead, List.flatMap_congr htail, ih hrest (hsort.filter _) hlate]
      exact filter_append_filter hsort b.2

/-- Pieces that may lack items lack none together just when no piece lacks one. -/
theorem flatMap_eq_iff_of_sublist {γ : Type} {bs : List γ} {f g : γ → List β}
    (hsub : ∀ b ∈ bs, (f b).Sublist (g b)) :
    bs.flatMap f = bs.flatMap g ↔ ∀ b ∈ bs, f b = g b := by
  induction bs with
  | nil => simp
  | cons b bs ih =>
      have hrest : ∀ b ∈ bs, (f b).Sublist (g b) := fun b hb =>
        hsub b (List.mem_cons_of_mem _ hb)
      have hhead := hsub b List.mem_cons_self
      have htail := List.Sublist.flatMap_right bs hrest
      rw [List.flatMap_cons, List.flatMap_cons, List.forall_mem_cons, ← ih hrest]
      constructor
      · intro h
        have hlen := congrArg List.length h
        rw [List.length_append, List.length_append] at hlen
        have hle := hhead.length_le
        have hle' := htail.length_le
        exact ⟨hhead.eq_of_length (by omega), htail.eq_of_length (by omega)⟩
      · rintro ⟨h1, h2⟩
        rw [h1, h2]

end Cuts

end Lines
