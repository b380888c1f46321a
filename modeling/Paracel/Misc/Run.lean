import Mathlib.Data.List.Induction

/-!
# Runs of a labelled step function

A system is given by a step function `step : σ → α → Option σ`: from state `s`
the label `a` leads to `s'` when `step s a = some s'`, and is not enabled when
`step s a = none`. An interleaving is the list of labels a scheduler picks.
This file has the two induction rules every model uses (what one step preserves
holds of every reachable state; a measure that every step lowers bounds the
length of every run) and the facts about prefixes of runs.
-/

namespace StepSystem

variable {σ α : Type} {step : σ → α → Option σ}

/-- Performs the labels in order, and is `none` as soon as one is not enabled. -/
def run (step : σ → α → Option σ) : σ → List α → Option σ
  | s, [] => some s
  | s, a :: as => (step s a).bind fun s' => run step s' as

/-- `s` is reached from `init` by some interleaving. -/
def Reachable (step : σ → α → Option σ) (init s : σ) : Prop :=
  ∃ as, run step init as = some s

/-- No label is enabled. -/
def Stuck (step : σ → α → Option σ) (s : σ) : Prop :=
  ∀ a, step s a = none

@[simp] theorem run_nil (s : σ) : run step s [] = some s := rfl

@[simp] theorem run_cons (s : σ) (a : α) (as : List α) :
    run step s (a :: as) = (step s a).bind fun s' => run step s' as := rfl

theorem run_append (s : σ) (as bs : List α) :
    run step s (as ++ bs) = (run step s as).bind fun s' => run step s' bs := by
  induction as generalizing s with
  | nil => rfl
  | cons a as ih =>
      cases h : step s a with
      | none => simp [h]
      | some s' => simp [h, ih]

/-- A run that ends passes through every prefix of its labels. -/
theorem run_split {s t : σ} {as bs : List α} (h : run step s (as ++ bs) = some t) :
    ∃ m, run step s as = some m ∧ run step m bs = some t := by
  rw [run_append] at h
  exact Option.bind_eq_some_iff.mp h

theorem run_concat {s m t : σ} {as : List α} {a : α} (hrun : run step s as = some m)
    (hstep : step m a = some t) : run step s (as ++ [a]) = some t := by
  rw [run_append, hrun]
  simp [hstep]

namespace Reachable

theorem refl (s : σ) : Reachable step s s := ⟨[], rfl⟩

theorem tail {init s s' : σ} {a : α} (h : Reachable step init s)
    (hstep : step s a = some s') : Reachable step init s' := by
  rcases h with ⟨as, hrun⟩
  exact ⟨as ++ [a], run_concat hrun hstep⟩

theorem trans {s t u : σ} (hst : Reachable step s t) (htu : Reachable step t u) :
    Reachable step s u := by
  rcases hst with ⟨as, has⟩
  rcases htu with ⟨bs, hbs⟩
  exact ⟨as ++ bs, by rw [run_append, has]; exact hbs⟩

/-- One enabled label reaches its target. -/
theorem single {s s' : σ} {a : α} (hstep : step s a = some s') : Reachable step s s' :=
  (refl s).tail hstep

end Reachable

/-- What holds at the start and is preserved by every step holds at the end of every run. -/
theorem run_invariant {P : σ → Prop} (hstep : ∀ s a s', P s → step s a = some s' → P s')
    {s t : σ} {as : List α} (hs : P s) (hrun : run step s as = some t) : P t := by
  induction as generalizing s with
  | nil =>
      cases hrun
      exact hs
  | cons a as ih =>
      obtain ⟨s', ha, hrest⟩ := Option.bind_eq_some_iff.mp hrun
      exact ih (hstep s a s' hs ha) hrest

/-- The invariant rule, for reachable states. -/
theorem Reachable.invariant {P : σ → Prop} {init s : σ} (h : Reachable step init s)
    (hinit : P init) (hstep : ∀ s a s', P s → step s a = some s' → P s') : P s := by
  rcases h with ⟨as, hrun⟩
  exact run_invariant hstep hinit hrun

/-- A measure that every step from an invariant state lowers bounds the length of every run. -/
theorem run_length_le {P : σ → Prop} (μ : σ → Nat)
    (hstep : ∀ s a s', P s → step s a = some s' → P s' ∧ μ s' < μ s)
    {s t : σ} {as : List α} (hs : P s) (hrun : run step s as = some t) :
    as.length + μ t ≤ μ s := by
  induction as generalizing s with
  | nil =>
      cases hrun
      simp
  | cons a as ih =>
      obtain ⟨s', ha, hrest⟩ := Option.bind_eq_some_iff.mp hrun
      obtain ⟨hs', hlt⟩ := hstep s a s' hs ha
      have hle := ih hs' hrest
      simp only [List.length_cons]
      omega

/-- Under such a measure every run can be continued until no label is enabled. -/
theorem exists_stuck {P : σ → Prop} (μ : σ → Nat)
    (hstep : ∀ s a s', P s → step s a = some s' → P s' ∧ μ s' < μ s) {s : σ} (hs : P s) :
    ∃ as t, run step s as = some t ∧ P t ∧ Stuck step t := by
  induction h : μ s using Nat.strongRecOn generalizing s with
  | ind k ih =>
      by_cases hstuck : Stuck step s
      · exact ⟨[], s, rfl, hs, hstuck⟩
      · rw [Stuck, not_forall] at hstuck
        rcases hstuck with ⟨a, ha⟩
        rcases Option.ne_none_iff_exists'.mp ha with ⟨s', hs'⟩
        rcases hstep s a s' hs hs' with ⟨hP, hlt⟩
        rcases ih (μ s') (h ▸ hlt) hP rfl with ⟨as, t, hrun, ht⟩
        refine ⟨a :: as, t, ?_, ht⟩
        rw [run_cons, hs']
        exact hrun

/-! ### Properties of whole runs -/

/-- `P` holds of every state the run visits. -/
def Throughout (step : σ → α → Option σ) (s : σ) (as : List α) (P : σ → Prop) : Prop :=
  ∀ pre t, pre <+: as → run step s pre = some t → P t

/-- Every step of the run is taken in a state, and with a label, that `Q` allows. -/
def EachStep (step : σ → α → Option σ) (s : σ) (as : List α) (Q : σ → α → Prop) : Prop :=
  ∀ pre a t, pre ++ [a] <+: as → run step s pre = some t → Q t a

theorem Throughout.last {s t : σ} {as : List α} {P : σ → Prop}
    (h : Throughout step s as P) (hrun : run step s as = some t) : P t :=
  h as t (List.prefix_refl as) hrun

theorem throughout_nil {s : σ} {P : σ → Prop} : Throughout step s [] P ↔ P s := by
  constructor
  · intro h
    exact h [] s (List.prefix_refl []) rfl
  · intro hs pre t hpre ht
    obtain rfl := List.prefix_nil.mp hpre
    cases ht
    exact hs

theorem throughout_cons {s s' : σ} {a : α} {as : List α} {P : σ → Prop}
    (hstep : step s a = some s') :
    Throughout step s (a :: as) P ↔ P s ∧ Throughout step s' as P := by
  constructor
  · intro h
    refine ⟨h [] s (List.nil_prefix) rfl, ?_⟩
    intro pre t hpre ht
    exact h (a :: pre) t (List.cons_prefix_cons.mpr ⟨rfl, hpre⟩) (by simpa [hstep] using ht)
  · rintro ⟨hs, h⟩ pre t hpre ht
    cases pre with
    | nil =>
        cases ht
        exact hs
    | cons b pre =>
        obtain ⟨rfl, hrest⟩ := List.cons_prefix_cons.mp hpre
        exact h pre t hrest (by simpa [hstep] using ht)

/-- An invariant holds of every state that a run visits. -/
theorem throughout_of_invariant {P : σ → Prop}
    (hstep : ∀ s a s', P s → step s a = some s' → P s') {s : σ} (hs : P s) (as : List α) :
    Throughout step s as P :=
  fun _ _ _ ht => run_invariant hstep hs ht

/-- What a run settles on is one and the same in all its states: before, `E` holds, and later
    `P i` for an `i` that no step changes. -/
theorem exists_throughout {ι : Type} [Nonempty ι] {E : σ → Prop} {P : ι → σ → Prop}
    (hE : ∀ s a s', E s → step s a = some s' → E s' ∨ ∃ i, P i s')
    (hP : ∀ i s a s', P i s → step s a = some s' → P i s')
    {s t : σ} {as : List α} (hs : E s) (hrun : run step s as = some t) :
    ∃ i, Throughout step s as fun s => E s ∨ P i s := by
  induction as generalizing s with
  | nil => exact ⟨Classical.arbitrary ι, throughout_nil.mpr (.inl hs)⟩
  | cons a as ih =>
      obtain ⟨s', ha, hrest⟩ := Option.bind_eq_some_iff.mp hrun
      rcases hE s a s' hs ha with hs' | ⟨i, hs'⟩
      · obtain ⟨i, hi⟩ := ih hs' hrest
        exact ⟨i, (throughout_cons ha).mpr ⟨.inl hs, hi⟩⟩
      · have hlater : Throughout step s' as (P i) := throughout_of_invariant (hP i) hs' as
        exact ⟨i, (throughout_cons ha).mpr
          ⟨.inl hs, fun pre t hpre ht => .inr (hlater pre t hpre ht)⟩⟩

/-- When `Q` is what decides whether a step keeps `P`, a run stays in `P` exactly
    if each of its steps satisfies `Q`. -/
theorem throughout_iff_eachStep {I P : σ → Prop} {Q : σ → α → Prop}
    (hinv : ∀ s a s', I s → step s a = some s' → I s')
    (hdecide : ∀ s a s', I s → P s → step s a = some s' → (P s' ↔ Q s a))
    {s t : σ} {as : List α} (hI : I s) (hP : P s) (hrun : run step s as = some t) :
    Throughout step s as P ↔ EachStep step s as Q := by
  constructor
  · intro hall pre a m hpre hm
    rcases hpre with ⟨post, rfl⟩
    obtain ⟨m', hm', -⟩ := run_split hrun
    obtain ⟨m₁, hm₁, hlast⟩ := run_split hm'
    obtain rfl : m = m₁ := Option.some.inj (hm.symm.trans hm₁)
    have hstep : step m a = some m' := by simpa using hlast
    have hm_pre : pre <+: pre ++ [a] ++ post := ⟨[a] ++ post, by simp⟩
    exact (hdecide m a m' (run_invariant hinv hI hm) (hall pre m hm_pre hm) hstep).mp
      (hall (pre ++ [a]) m' ⟨post, rfl⟩ hm')
  · intro hQ pre
    induction pre using List.reverseRecOn with
    | nil =>
        intro m _ hm
        cases hm
        exact hP
    | append_singleton pre a ih =>
        intro m hpre hm
        obtain ⟨m₁, hm₁, hlast⟩ := run_split hm
        have hstep : step m₁ a = some m := by simpa using hlast
        have hpre₁ : pre <+: as := (List.prefix_append pre [a]).trans hpre
        exact (hdecide m₁ a m (run_invariant hinv hI hm₁) (ih m₁ hpre₁ hm₁) hstep).mpr
          (hQ pre a m₁ hpre hm₁)

end StepSystem
