import Paracel.Misc.Run

/-!
# Systems whose enabled labels commute

When two different enabled labels can be performed in either order with the same
result, one complete run says what all runs do: every run can be continued to
the same final state, and all complete runs are equally long.
-/

namespace StepSystem

variable {σ α : Type} {step : σ → α → Option σ}

/-- Different enabled labels commute. -/
def Diamond (step : σ → α → Option σ) : Prop :=
  ∀ s a b s₁ s₂, a ≠ b → step s a = some s₁ → step s b = some s₂ →
    ∃ t, step s₁ b = some t ∧ step s₂ a = some t

variable [DecidableEq α]

/-- An enabled label can be performed first, and the rest of a complete run is one step shorter. -/
theorem Diamond.advance (hd : Diamond step) {s s' t : σ} {a : α} {as : List α}
    (hrun : run step s as = some t) (hstuck : Stuck step t) (ha : step s a = some s') :
    ∃ bs, bs.length + 1 = as.length ∧ run step s' bs = some t := by
  induction as generalizing s s' with
  | nil =>
      cases hrun
      rw [hstuck a] at ha
      cases ha
  | cons b as ih =>
      rcases Option.bind_eq_some_iff.mp hrun with ⟨m, hb, hrest⟩
      by_cases hab : a = b
      · subst hab
        rw [hb] at ha
        cases ha
        exact ⟨as, rfl, hrest⟩
      · rcases hd s a b s' m hab ha hb with ⟨u, hub, hua⟩
        rcases ih hrest hua with ⟨bs, hlen, hbs⟩
        refine ⟨b :: bs, by simp [hlen], ?_⟩
        rw [run_cons, hub]
        exact hbs

/-- Every run can be continued to the state where one complete run ends, in as many steps as
    that run has left. -/
theorem Diamond.complete (hd : Diamond step) {s t u : σ} {as bs : List α}
    (hrun : run step s as = some t) (hstuck : Stuck step t) (hbs : run step s bs = some u) :
    ∃ cs, bs.length + cs.length = as.length ∧ run step u cs = some t := by
  induction bs generalizing s as with
  | nil =>
      cases hbs
      exact ⟨as, by simp, hrun⟩
  | cons b bs ih =>
      rcases Option.bind_eq_some_iff.mp hbs with ⟨m, hb, hrest⟩
      rcases hd.advance hrun hstuck hb with ⟨as', hlen, has'⟩
      rcases ih has' hrest with ⟨cs, hcs, hfinal⟩
      refine ⟨cs, ?_, hfinal⟩
      simp only [List.length_cons]
      omega

end StepSystem
