import Paracel.Misc.Run

/-!
# Queues worked off layer by layer

A loop takes the first item of a queue, visits it, and puts what the visit pushes
at the end. What is pushed by one layer of items is the next layer, and the loop
visits the layers one after another. `deep` carries the number of the layer along
with each item, and `reachable_deep_iff` says where such a loop can be.
-/

namespace Worklist

open StepSystem

variable {σ τ α : Type}

/-- One turn of the loop. -/
def step (visit : σ → α → σ × List α) (w : σ × List α) (_ : Unit) : Option (σ × List α) :=
  match w.2 with
  | [] => none
  | a :: q => some ((visit w.1 a).1, q ++ (visit w.1 a).2)

/-- The same visits, with the depth of each item beside it. -/
def deep (visit : σ → α → σ × List α) (s : σ) (p : α × Nat) : σ × List (α × Nat) :=
  ((visit s p.1).1, (visit s p.1).2.map fun a => (a, p.2 + 1))

/-- Visits to the items of a list, with all that they push. -/
def pass (visit : σ → α → σ × List α) (s : σ) (l : List α) : σ × List α :=
  l.foldl (fun w a => ((visit w.1 a).1, w.2 ++ (visit w.1 a).2)) (s, [])

/-- The state before the items of a layer are visited, and the layer. -/
def layer (visit : σ → α → σ × List α) (s : σ) (q : List α) : Nat → σ × List α
  | 0 => (s, q)
  | d + 1 => pass visit (layer visit s q d).1 (layer visit s q d).2

variable {visit : σ → α → σ × List α} {s : σ} {q : List α}

/-- A loop that ends passes through every state that it can reach. -/
theorem reachable_of_ends {w t u : σ × List α} (ht : Reachable (step visit) w t)
    (hends : t.2 = []) (hu : Reachable (step visit) w u) : Reachable (step visit) u t := by
  have hunit : ∀ l : List Unit, l = List.replicate l.length () := fun l =>
    List.eq_replicate_iff.mpr ⟨rfl, fun _ _ => rfl⟩
  obtain ⟨as, has⟩ := ht
  obtain ⟨bs, hbs⟩ := hu
  rw [hunit as] at has
  rw [hunit bs] at hbs
  rcases Nat.le_total bs.length as.length with hle | hle
  · obtain ⟨k, hk⟩ := Nat.exists_eq_add_of_le hle
    rw [hk, ← List.replicate_append_replicate, run_append, hbs] at has
    exact ⟨_, has⟩
  · obtain ⟨k, hk⟩ := Nat.exists_eq_add_of_le hle
    rw [hk, ← List.replicate_append_replicate, run_append, has] at hbs
    cases k with
    | zero => exact ⟨[], hbs.symm⟩
    | succ k =>
        obtain ⟨s, q⟩ := t
        obtain rfl : q = [] := hends
        cases hbs

@[simp] theorem pass_nil : pass visit s [] = (s, []) := rfl

theorem pass_concat (pre : List α) (a : α) :
    pass visit s (pre ++ [a]) = ((visit (pass visit s pre).1 a).1,
      (pass visit s pre).2 ++ (visit (pass visit s pre).1 a).2) := by
  rw [pass, List.foldl_append]
  rfl

/-! ### Depths -/

/-- Without the depths it is the loop itself. -/
theorem step_deep (visit : σ → α → σ × List α) (s : σ) (q : List (α × Nat)) (u : Unit) :
    (step (deep visit) (s, q) u).map (fun w => (w.1, w.2.map Prod.fst)) =
      step visit (s, q.map Prod.fst) u := by
  cases q with
  | nil => rfl
  | cons p q => simp [step, deep, Function.comp_def]

theorem reachable_of_deep {s₀ : σ} {q₀ q : List (α × Nat)}
    (h : Reachable (step (deep visit)) (s₀, q₀) (s, q)) :
    Reachable (step visit) (s₀, q₀.map Prod.fst) (s, q.map Prod.fst) := by
  refine h.invariant (P := fun w => Reachable (step visit) (s₀, q₀.map Prod.fst)
    (w.1, w.2.map Prod.fst)) (Reachable.refl _) ?_
  intro w u w' hw hstep
  have hplain := step_deep visit w.1 w.2 u
  rw [hstep] at hplain
  exact hw.tail hplain.symm

/-- Between two turns the queue has the rest of one layer and what was pushed of the next one. -/
structure Between (visit : σ → α → σ × List α) (s : σ) (q : List α) (d : Nat) (pre suf : List α)
    (w : σ × List (α × Nat)) : Prop where
  split : (layer visit s q d).2 = pre ++ suf
  state : w.1 = (pass visit (layer visit s q d).1 pre).1
  queue : w.2 = suf.map (fun a => (a, d)) ++
    (pass visit (layer visit s q d).1 pre).2.map fun a => (a, d + 1)

variable {d : Nat} {a : α} {pre suf : List α} {w w' : σ × List (α × Nat)}

theorem Between.start : Between visit s q 0 [] q (s, q.map fun a => (a, 0)) :=
  ⟨rfl, rfl, by simp [layer]⟩

theorem Between.turn (h : Between visit s q d pre (a :: suf) w) :
    ∃ w', step (deep visit) w () = some w' ∧ Between visit s q d (pre ++ [a]) suf w' := by
  obtain ⟨s₁, q₁⟩ := w
  obtain ⟨hsplit, rfl, rfl⟩ := h
  refine ⟨_, rfl, ?_, ?_, ?_⟩
  · rw [hsplit, List.append_assoc]
    rfl
  · rw [pass_concat]
    rfl
  · rw [pass_concat, List.map_append, ← List.append_assoc]
    rfl

/-- At its end a layer gives way to the next one. -/
theorem Between.next (h : Between visit s q d pre [] w) :
    Between visit s q (d + 1) [] (layer visit s q (d + 1)).2 w := by
  have hpre : (layer visit s q d).2 = pre := by rw [h.split, List.append_nil]
  refine ⟨rfl, ?_, ?_⟩
  · rw [h.state, pass_nil, layer, hpre]
  · rw [h.queue, layer, hpre]
    simp

theorem Between.onward (h : Between visit s q d pre suf w)
    (hstep : step (deep visit) w () = some w') : ∃ d pre suf, Between visit s q d pre suf w' := by
  have hvisit : ∀ {e a pre suf}, Between visit s q e pre (a :: suf) w →
      ∃ d pre suf, Between visit s q d pre suf w' := by
    intro e a pre suf h
    obtain ⟨w₁, hw₁, hbetween⟩ := h.turn
    obtain rfl : w₁ = w' := Option.some.inj (hw₁.symm.trans hstep)
    exact ⟨_, _, _, hbetween⟩
  cases suf with
  | cons a suf => exact hvisit h
  | nil =>
      have hnext := h.next
      cases hlayer : (layer visit s q (d + 1)).2 with
      | cons a suf => exact hvisit (hlayer ▸ hnext)
      | nil =>
          have hqueue : w.2 = [] := by
            rw [hnext.queue, hlayer]
            rfl
          rw [step, hqueue] at hstep
          cases hstep

/-- Every place in every layer is reached. -/
theorem Between.exists_reachable (hsplit : (layer visit s q d).2 = pre ++ suf) :
    ∃ w, Reachable (step (deep visit)) (s, q.map fun a => (a, 0)) w ∧
      Between visit s q d pre suf w := by
  have hwithin : ∀ {d} {pre suf : List α}, (∃ w, Reachable (step (deep visit))
      (s, q.map fun a => (a, 0)) w ∧ Between visit s q d [] (pre ++ suf) w) →
      ∃ w, Reachable (step (deep visit)) (s, q.map fun a => (a, 0)) w ∧
        Between visit s q d pre suf w := by
    intro d pre suf h
    induction pre using List.reverseRecOn generalizing suf with
    | nil => exact h
    | append_singleton pre a ih =>
        rw [List.append_assoc] at h
        obtain ⟨w, hw, hbetween⟩ := ih h
        obtain ⟨w', hstep, hbetween'⟩ := hbetween.turn
        exact ⟨w', hw.tail hstep, hbetween'⟩
  have hstart : ∀ d, ∃ w, Reachable (step (deep visit)) (s, q.map fun a => (a, 0)) w ∧
      Between visit s q d [] (layer visit s q d).2 w := by
    intro d
    induction d with
    | zero => exact ⟨_, Reachable.refl _, Between.start⟩
    | succ d ih =>
        rw [← List.append_nil (layer visit s q d).2] at ih
        obtain ⟨w, hw, hbetween⟩ := hwithin ih
        exact ⟨w, hw, hbetween.next⟩
  apply hwithin
  rw [← hsplit]
  exact hstart d

/-- The loop itself comes to every place in every layer. -/
theorem reachable_pass (hsplit : (layer visit s q d).2 = pre ++ suf) :
    ∃ q', Reachable (step visit) (s, q) ((pass visit (layer visit s q d).1 pre).1, q') := by
  obtain ⟨⟨s₁, q₁⟩, hreach, hb⟩ := Between.exists_reachable hsplit
  have hplain := reachable_of_deep hreach
  obtain rfl : s₁ = _ := hb.state
  rw [List.map_map, show Prod.fst ∘ (fun a : α => (a, 0)) = id from rfl, List.map_id] at hplain
  exact ⟨_, hplain⟩

/-- The items that are visited at depth `d` are those of layer `d`, in order. -/
theorem exists_reachable_iff {s' : σ} :
    (∃ q', Reachable (step (deep visit)) (s, q.map fun a => (a, 0)) (s', (a, d) :: q')) ↔
      ∃ pre suf, (layer visit s q d).2 = pre ++ a :: suf ∧
        s' = (pass visit (layer visit s q d).1 pre).1 := by
  constructor
  · intro ⟨q', h⟩
    have hplace : ∃ d₁ pre suf, Between visit s q d₁ pre suf (s', (a, d) :: q') :=
      h.invariant (P := fun w => ∃ d₁ pre suf, Between visit s q d₁ pre suf w)
        ⟨0, [], q, Between.start⟩ fun w _ w' ⟨_, _, _, hb⟩ hstep => hb.onward hstep
    obtain ⟨d₁, pre, suf, hb⟩ := hplace
    have hfront : ∃ e pre suf, Between visit s q e pre (a :: suf) (s', (a, d) :: q') ∧ e = d := by
      cases suf with
      | cons b suf =>
          have hqueue := hb.queue
          simp only [List.map_cons, List.cons_append, List.cons.injEq, Prod.mk.injEq] at hqueue
          obtain ⟨⟨rfl, rfl⟩, -⟩ := hqueue
          exact ⟨_, pre, suf, hb, rfl⟩
      | nil =>
          have hnext := hb.next
          have hqueue := hnext.queue
          cases hlayer : (layer visit s q (d₁ + 1)).2 with
          | nil => simp [hlayer] at hqueue
          | cons b suf =>
              rw [hlayer] at hqueue hnext
              simp only [List.map_cons, List.cons_append, List.cons.injEq, Prod.mk.injEq] at hqueue
              obtain ⟨⟨rfl, rfl⟩, -⟩ := hqueue
              exact ⟨_, [], suf, hnext, rfl⟩
    obtain ⟨e, pre, suf, hb, rfl⟩ := hfront
    exact ⟨pre, suf, hb.split, hb.state⟩
  · intro ⟨pre, suf, hsplit, hstate⟩
    obtain ⟨⟨s₁, q₁⟩, hreach, hb⟩ := Between.exists_reachable hsplit
    obtain rfl : s₁ = s' := hb.state.trans hstate.symm
    have hqueue := hb.queue
    rw [List.map_cons, List.cons_append] at hqueue
    obtain rfl : q₁ = _ := hqueue
    exact ⟨_, hreach⟩

/-! ### Layers -/

/-- Visits that do the same to a part of the state. -/
theorem pass_map {visit' : τ → α → τ × List α} (f : σ → τ) {s : σ} {l : List α}
    (h : ∀ pre a suf, l = pre ++ a :: suf → visit' (f (pass visit s pre).1) a =
      (f (visit (pass visit s pre).1 a).1, (visit (pass visit s pre).1 a).2)) :
    pass visit' (f s) l = (f (pass visit s l).1, (pass visit s l).2) := by
  induction l using List.reverseRecOn with
  | nil => rfl
  | append_singleton l a ih =>
      have hl := ih fun pre b suf hsplit => h pre b (suf ++ [a]) (by rw [hsplit]; simp)
      rw [pass_concat, pass_concat, hl, h l a [] rfl]

theorem length_pass_le {k : Nat} (h : ∀ s a, (visit s a).2.length ≤ k) (s : σ) (l : List α) :
    (pass visit s l).2.length ≤ k * l.length := by
  induction l using List.reverseRecOn with
  | nil => exact Nat.zero_le _
  | append_singleton l a ih =>
      have ha := h (pass visit s l).1 a
      rw [pass_concat, List.length_append, List.length_append, List.length_singleton, Nat.mul_succ]
      omega

end Worklist
