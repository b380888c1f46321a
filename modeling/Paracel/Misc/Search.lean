import Mathlib.Data.Finset.Card
import Mathlib.Logic.Function.Basic
import Mathlib.Logic.Relation
import Mathlib.Order.Bounds.Basic

/-!
# Searching a graph

A graph is the relation `r` between a vertex and its neighbours. This file has no
search algorithm; it has what one does step by step. For a search breadth first
these are the rules for the queue, with the distances and predecessors noted so
far; for a search depth first the rules by which what was marked below several
vertices is put together. Both end in what was reached.
-/

namespace Search

open Relation

variable {V : Type} {r : V → V → Prop}

/-- Walks of a given length. -/
inductive Walk (r : V → V → Prop) (s : V) : Nat → V → Prop where
  | nil : Walk r s 0 s
  | snoc {n : Nat} {v w : V} : Walk r s n v → r v w → Walk r s (n + 1) w

theorem reflTransGen_iff_exists_walk {s v : V} : ReflTransGen r s v ↔ ∃ n, Walk r s n v := by
  constructor
  · intro h
    induction h with
    | refl => exact ⟨0, .nil⟩
    | tail _ hvw ih =>
        rcases ih with ⟨n, hn⟩
        exact ⟨n + 1, hn.snoc hvw⟩
  · rintro ⟨n, hn⟩
    induction hn with
    | nil => exact .refl
    | snoc _ hvw ih => exact ih.tail hvw

/-! ### Breadth first -/

section Bfs

variable {s node : V} {todo q : List V} {dist : V → Option Nat} {parent : V → Option V}

/-- What was noted: the lengths of walks from `s`, and the vertices before their last ones. -/
structure Noted (r : V → V → Prop) (s : V) (dist : V → Option Nat) (parent : V → Option V) :
    Prop where
  source : dist s = some 0
  walk : ∀ v d, dist v = some d → Walk r s d v
  parent : ∀ v d, dist v = some d → v ≠ s →
    ∃ p e, parent v = some p ∧ r p v ∧ dist p = some e ∧ d = e + 1

/-- Before a turn: the distances rise along the queue by no more than one, and the neighbours
    of every noted vertex that has left the queue are noted. -/
structure Waiting (r : V → V → Prop) (s : V) (q : List V) (dist : V → Option Nat)
    (parent : V → Option V) : Prop extends Noted r s dist parent where
  queued : ∀ v ∈ q, ∃ d, dist v = some d
  sorted : q.Pairwise fun v w => ∀ d e, dist v = some d → dist w = some e → d ≤ e
  near : ∀ v ∈ q, ∀ w d e, dist v = some d → dist w = some e → e ≤ d + 1
  closed : ∀ v, v ∉ q → ∀ d, dist v = some d → ∀ w, r v w → ∃ e, dist w = some e ∧ e ≤ d + 1

/-- During the turn of `node`, of whose neighbours those in `todo` are still to be met. -/
structure Scanning (r : V → V → Prop) (s node : V) (todo q : List V) (dist : V → Option Nat)
    (parent : V → Option V) : Prop extends Noted r s dist parent where
  queued : ∀ v ∈ q, ∃ d, dist v = some d
  sorted : q.Pairwise fun v w => ∀ d e, dist v = some d → dist w = some e → d ≤ e
  noted : ∃ d, dist node = some d ∧ (∀ v ∈ q, ∀ e, dist v = some e → d ≤ e) ∧
    (∀ w e, dist w = some e → e ≤ d + 1) ∧
    ∀ w, r node w → w ∈ todo ∨ ∃ e, dist w = some e ∧ e ≤ d + 1
  closed : ∀ v, v ∉ q → v ≠ node → ∀ d, dist v = some d →
    ∀ w, r v w → ∃ e, dist w = some e ∧ e ≤ d + 1

/-- Only the source is in the queue. -/
theorem Waiting.start (r : V → V → Prop) (s : V) (parent : V → Option V)
    (hsource : dist s = some 0) (hother : ∀ v, v ≠ s → dist v = none) :
    Waiting r s [s] dist parent := by
  have honly : ∀ {v d}, dist v = some d → v = s ∧ d = 0 := by
    intro v d hd
    by_cases hv : v = s
    · subst hv
      rw [hsource] at hd
      exact ⟨rfl, (Option.some.inj hd).symm⟩
    · rw [hother v hv] at hd
      cases hd
  have hnoted : Noted r s dist parent := by
    refine ⟨hsource, ?_, fun v d hd hv => absurd (honly hd).1 hv⟩
    intro v d hd
    obtain ⟨rfl, rfl⟩ := honly hd
    exact .nil
  constructor
  case toNoted => exact hnoted
  case queued =>
    intro v hv
    rw [List.mem_singleton] at hv
    exact ⟨0, hv ▸ hsource⟩
  case sorted => exact List.pairwise_singleton _ s
  case near =>
    intro v _ w d e _ he
    rw [(honly he).2]
    exact Nat.zero_le _
  case closed =>
    intro v hv d hd
    exact absurd (List.mem_singleton.mpr (honly hd).1) hv

/-- `node` is taken from the queue, and its neighbours are to be met. -/
theorem Waiting.pop (h : Waiting r s (node :: q) dist parent) (htodo : ∀ w, r node w → w ∈ todo) :
    Scanning r s node todo q dist parent := by
  obtain ⟨d, hd⟩ := h.queued node List.mem_cons_self
  obtain ⟨hfirst, hsorted⟩ := List.pairwise_cons.mp h.sorted
  refine ⟨h.toNoted, fun v hv => h.queued v (List.mem_cons_of_mem _ hv), hsorted, ?_, ?_⟩
  · refine ⟨d, hd, fun v hv e he => hfirst v hv d e hd he, ?_, fun w hw => .inl (htodo w hw)⟩
    exact fun w e he => h.near node List.mem_cons_self w d e hd he
  · intro v hv hne
    exact h.closed v (fun hmem => (List.mem_cons.mp hmem).elim hne hv)

/-- A neighbour that was noted before. -/
theorem Scanning.skip {w : V} (h : Scanning r s node (w :: todo) q dist parent)
    (hw : dist w ≠ none) : Scanning r s node todo q dist parent := by
  obtain ⟨d, hd, hahead, hnear, hscanned⟩ := h.noted
  refine ⟨h.toNoted, h.queued, h.sorted, ⟨d, hd, hahead, hnear, ?_⟩, h.closed⟩
  intro x hx
  rcases hscanned x hx with hmem | hnoted
  · rcases List.mem_cons.mp hmem with rfl | hmem
    · obtain ⟨e, he⟩ := Option.ne_none_iff_exists'.mp hw
      exact .inr ⟨e, he, hnear x e he⟩
    · exact .inl hmem
  · exact .inr hnoted

section Push

variable [DecidableEq V] {w : V} {d : Nat}

/-- What was noted before stays. -/
theorem update_of_noted {v : V} {e d : Nat} (hw : dist w = none) (hv : dist v = some e) :
    Function.update dist w (some d) v = some e := by
  have hne : v ≠ w := by
    rintro rfl
    rw [hw] at hv
    cases hv
  rwa [Function.update_of_ne hne]

/-- Only `w` is new. -/
theorem noted_of_update {v : V} {e : Nat} (hv : Function.update dist w (some d) v = some e) :
    v = w ∧ e = d ∨ v ≠ w ∧ dist v = some e := by
  by_cases hne : v = w
  · subst hne
    rw [Function.update_self] at hv
    exact .inl ⟨rfl, (Option.some.inj hv).symm⟩
  · rw [Function.update_of_ne hne] at hv
    exact .inr ⟨hne, hv⟩

theorem Noted.push (h : Noted r s dist parent) (hw : dist w = none) (hedge : r node w)
    (hd : dist node = some d) :
    Noted r s (Function.update dist w (some (d + 1))) (Function.update parent w (some node)) := by
  refine ⟨update_of_noted hw h.source, ?_, ?_⟩
  · intro v e hv
    rcases noted_of_update hv with ⟨rfl, rfl⟩ | ⟨-, hv⟩
    · exact (h.walk node d hd).snoc hedge
    · exact h.walk v e hv
  · intro v e hv hvs
    rcases noted_of_update hv with ⟨rfl, rfl⟩ | ⟨hne, hv⟩
    · exact ⟨node, d, Function.update_self .., hedge, update_of_noted hw hd, rfl⟩
    · obtain ⟨p, e', hp, hpv, he', heq⟩ := h.parent v e hv hvs
      refine ⟨p, e', ?_, hpv, update_of_noted hw he', heq⟩
      rwa [Function.update_of_ne hne]

/-- A neighbour that is met for the first time. -/
theorem Scanning.push (h : Scanning r s node (w :: todo) q dist parent) (hw : dist w = none)
    (hedge : r node w) (hd : dist node = some d) :
    Scanning r s node todo (q ++ [w]) (Function.update dist w (some (d + 1)))
      (Function.update parent w (some node)) := by
  obtain ⟨d', hd', hahead, hnear, hscanned⟩ := h.noted
  rw [hd] at hd'
  cases hd'
  have hclosed : ∀ {x b}, (∃ e, dist x = some e ∧ e ≤ b) →
      ∃ e, Function.update dist w (some (d + 1)) x = some e ∧ e ≤ b := by
    rintro x b ⟨e, he, hle⟩
    exact ⟨e, update_of_noted hw he, hle⟩
  constructor
  case toNoted => exact h.toNoted.push hw hedge hd
  case queued =>
    intro v hv
    rcases List.mem_append.mp hv with hv | hv
    · obtain ⟨e, he⟩ := h.queued v hv
      exact ⟨e, update_of_noted hw he⟩
    · rw [List.mem_singleton] at hv
      exact ⟨d + 1, hv ▸ Function.update_self ..⟩
  case sorted =>
    rw [List.pairwise_append]
    refine ⟨?_, List.pairwise_singleton _ w, ?_⟩
    · refine h.sorted.imp_of_mem ?_
      intro v x hv hx hle e e' he he'
      obtain ⟨b, hb⟩ := h.queued v hv
      obtain ⟨b', hb'⟩ := h.queued x hx
      rw [update_of_noted hw hb] at he
      rw [update_of_noted hw hb'] at he'
      cases he
      cases he'
      exact hle _ _ hb hb'
    · -- nothing that was noted is further away than `w`
      intro v hv x hx e e' he he'
      rw [List.mem_singleton] at hx
      subst hx
      rw [Function.update_self] at he'
      cases he'
      obtain ⟨b, hb⟩ := h.queued v hv
      rw [update_of_noted hw hb] at he
      cases he
      exact hnear v _ hb
  case noted =>
    refine ⟨d, update_of_noted hw hd, ?_, ?_, ?_⟩
    · intro v hv e he
      rcases noted_of_update he with ⟨-, rfl⟩ | ⟨hne, he⟩
      · exact Nat.le_succ d
      · rcases List.mem_append.mp hv with hv | hv
        · exact hahead v hv e he
        · exact absurd (List.mem_singleton.mp hv) hne
    · intro v e he
      rcases noted_of_update he with ⟨-, rfl⟩ | ⟨-, he⟩
      · exact Nat.le_refl _
      · exact hnear v e he
    · intro x hx
      rcases hscanned x hx with hmem | hnoted
      · rcases List.mem_cons.mp hmem with rfl | hmem
        · exact .inr ⟨d + 1, Function.update_self .., Nat.le_refl _⟩
        · exact .inl hmem
      · exact .inr (hclosed hnoted)
  case closed =>
    intro v hv hne e he x hx
    rw [List.mem_append, List.mem_singleton, not_or] at hv
    rcases noted_of_update he with ⟨rfl, -⟩ | ⟨-, he⟩
    · exact absurd rfl hv.2
    · exact hclosed (h.closed v hv.1 hne e he x hx)

end Push

/-- All neighbours of `node` were met. -/
theorem Scanning.done (h : Scanning r s node [] q dist parent) : Waiting r s q dist parent := by
  obtain ⟨d, hd, hahead, hnear, hscanned⟩ := h.noted
  refine ⟨h.toNoted, h.queued, h.sorted, ?_, ?_⟩
  · intro v hv w e e' he he'
    have hle := hahead v hv e he
    have hle' := hnear w e' he'
    omega
  · intro v hv e he w hw
    by_cases hne : v = node
    · subst hne
      rw [hd] at he
      cases he
      exact (hscanned w hw).resolve_left List.not_mem_nil
    · exact h.closed v hv hne e he w hw

/-- At the end every vertex at the end of a walk is noted, with no more than its length. -/
theorem Waiting.le_of_walk (h : Waiting r s [] dist parent) {n : Nat} {v : V}
    (hwalk : Walk r s n v) : ∃ d, dist v = some d ∧ d ≤ n := by
  induction hwalk with
  | nil => exact ⟨0, h.source, Nat.le_refl 0⟩
  | snoc _ hvw ih =>
      obtain ⟨d, hd, hle⟩ := ih
      obtain ⟨e, he, hle'⟩ := h.closed _ List.not_mem_nil d hd _ hvw
      exact ⟨e, he, by omega⟩

/-- At the end the vertices are noted that can be reached. -/
theorem Waiting.noted_iff (h : Waiting r s [] dist parent) {v : V} :
    dist v ≠ none ↔ ReflTransGen r s v := by
  rw [reflTransGen_iff_exists_walk, Option.ne_none_iff_exists']
  constructor
  · rintro ⟨d, hd⟩
    exact ⟨d, h.walk v d hd⟩
  · rintro ⟨n, hn⟩
    obtain ⟨d, hd, -⟩ := h.le_of_walk hn
    exact ⟨d, hd⟩

/-- At the end the distances are those of shortest walks. -/
theorem Waiting.isLeast (h : Waiting r s [] dist parent) {v : V} {d : Nat} (hd : dist v = some d) :
    IsLeast {n | Walk r s n v} d := by
  refine ⟨h.walk v d hd, ?_⟩
  intro n hn
  obtain ⟨e, he, hle⟩ := h.le_of_walk hn
  rw [hd] at he
  cases he
  exact hle

end Bfs

/-! ### Depth first -/

section Dfs

variable {M M₁ M₂ : Set V} {R R₁ R₂ : Set V}

/-- From the marks `M` to the marks `M'` everything was marked that can be reached from `R`
    and was not marked: what is new is below `R` and has only marked neighbours. -/
structure Explored (r : V → V → Prop) (M R M' : Set V) : Prop where
  mono : M ⊆ M'
  roots : R ⊆ M'
  below : ∀ v ∈ M', v ∉ M → ∃ root ∈ R, ReflTransGen r root v
  closed : ∀ v ∈ M', v ∉ M → ∀ w, r v w → w ∈ M'

/-- What is marked already. -/
theorem Explored.skip (h : R ⊆ M) : Explored r M R M :=
  ⟨subset_rfl, h, fun _ hv hnot => absurd hv hnot, fun _ hv hnot => absurd hv hnot⟩

/-- One after the other. -/
theorem Explored.trans (h₁ : Explored r M R₁ M₁) (h₂ : Explored r M₁ R₂ M₂) :
    Explored r M (R₁ ∪ R₂) M₂ := by
  refine ⟨h₁.mono.trans h₂.mono, Set.union_subset (h₁.roots.trans h₂.mono) h₂.roots, ?_, ?_⟩
  · intro v hv hnot
    by_cases hv₁ : v ∈ M₁
    · obtain ⟨root, hroot, hreach⟩ := h₁.below v hv₁ hnot
      exact ⟨root, .inl hroot, hreach⟩
    · obtain ⟨root, hroot, hreach⟩ := h₂.below v hv hv₁
      exact ⟨root, .inr hroot, hreach⟩
  · intro v hv hnot w hw
    by_cases hv₁ : v ∈ M₁
    · exact h₂.mono (h₁.closed v hv₁ hnot w hw)
    · exact h₂.closed v hv hv₁ w hw

/-- A vertex is marked, then what is below its neighbours. -/
theorem Explored.node {v : V} (h : Explored r (insert v M) {w | r v w} M₁) :
    Explored r M {v} M₁ := by
  have hv : v ∈ M₁ := h.mono (Set.mem_insert v M)
  refine ⟨(Set.subset_insert v M).trans h.mono, Set.singleton_subset_iff.mpr hv, ?_, ?_⟩
  · intro x hx hnot
    by_cases hxv : x = v
    · exact ⟨v, rfl, hxv ▸ .refl⟩
    · obtain ⟨root, hroot, hreach⟩ := h.below x hx fun hmem => hmem.elim hxv hnot
      exact ⟨v, rfl, .head hroot hreach⟩
  · intro x hx hnot w hw
    by_cases hxv : x = v
    · exact h.roots (show r v w from hxv ▸ hw)
    · exact h.closed x hx (fun hmem => hmem.elim hxv hnot) w hw

/-- Without marks at the start, the vertices are marked that can be reached. -/
theorem Explored.mem_iff {s v : V} (h : Explored r ∅ {s} M₁) : v ∈ M₁ ↔ ReflTransGen r s v := by
  constructor
  · intro hv
    obtain ⟨root, hroot, hreach⟩ := h.below v hv (Set.notMem_empty v)
    cases hroot
    exact hreach
  · intro hreach
    induction hreach with
    | refl => exact h.roots rfl
    | tail _ hvw ih => exact h.closed _ ih (Set.notMem_empty _) _ hvw

end Dfs

/-! ### Components -/

section Components

variable {s : V} {n : Nat} {ids ids' : V → Option Nat}

/-- Some components are numbered, from 0 to below `n`. -/
structure Numbered (r : V → V → Prop) (n : Nat) (ids : V → Option Nat) : Prop where
  lt : ∀ v i, ids v = some i → i < n
  onto : ∀ i, i < n → ∃ v, ids v = some i
  same : ∀ v i, ids v = some i → ∀ w, ids w = some i ↔ ReflTransGen r v w

theorem Numbered.start (r : V → V → Prop) : Numbered r 0 fun _ => none := by
  refine ⟨?_, ?_, ?_⟩
  · intro v i hv
    cases hv
  · intro i hi
    exact absurd hi (Nat.not_lt_zero i)
  · intro v i hv
    cases hv

/-- One more component is numbered, that of `s`. -/
theorem Numbered.next [Std.Symm r] (h : Numbered r n ids) (hs : ids s = none)
    (hnew : ∀ v, ReflTransGen r s v → ids' v = some n)
    (hold : ∀ v, ¬ReflTransGen r s v → ids' v = ids v) : Numbered r (n + 1) ids' := by
  -- what was numbered before is not in this component
  have hapart : ∀ v i, ids v = some i → ¬ReflTransGen r s v := by
    intro v i hv hreach
    have hback := (h.same v i hv s).mpr (Std.Symm.symm s v hreach)
    rw [hs] at hback
    cases hback
  have hkeep : ∀ v i, ids v = some i → ids' v = some i := fun v i hv =>
    (hold v (hapart v i hv)).trans hv
  have hcases : ∀ v i, ids' v = some i → ReflTransGen r s v ∧ i = n ∨ ids v = some i := by
    intro v i hv
    by_cases hreach : ReflTransGen r s v
    · rw [hnew v hreach] at hv
      exact .inl ⟨hreach, (Option.some.inj hv).symm⟩
    · exact .inr ((hold v hreach).symm.trans hv)
  refine ⟨?_, ?_, ?_⟩
  · intro v i hv
    rcases hcases v i hv with ⟨-, rfl⟩ | hv
    · exact Nat.lt_succ_self _
    · exact Nat.lt_succ_of_lt (h.lt v i hv)
  · intro i hi
    rcases Nat.lt_succ_iff_lt_or_eq.mp hi with hi | rfl
    · obtain ⟨v, hv⟩ := h.onto i hi
      exact ⟨v, hkeep v i hv⟩
    · exact ⟨s, hnew s .refl⟩
  · intro v i hv w
    rcases hcases v i hv with ⟨hreach, rfl⟩ | hv
    · constructor
      · intro hw
        rcases hcases w i hw with ⟨hreach', -⟩ | hw
        · exact (Std.Symm.symm s v hreach).trans hreach'
        · exact absurd (h.lt w i hw) (Nat.lt_irrefl i)
      · exact fun hw => hnew w (hreach.trans hw)
    · rw [← h.same v i hv w]
      constructor
      · intro hw
        rcases hcases w i hw with ⟨-, rfl⟩ | hw
        · exact absurd (h.lt v i hv) (Nat.lt_irrefl i)
        · exact hw
      · exact hkeep w i

end Components

end Search
