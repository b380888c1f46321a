import Mathlib.Algebra.Group.Defs
import Mathlib.Data.List.Perm.Basic

/-!
# Merging deltas into keyed values

A keyed accumulator receives pairs of a key and a delta. The value of a key is
the merge of its first value, if there is one, with the deltas sent for it; the
first delta of an absent key is taken as it is. With an associative and
commutative merge the order of the deltas does not matter.
-/

namespace MergeFold

variable {K V : Type}

/-- Merges the deltas into the value in order. -/
def mergeAll (f : V → V → V) (init : Option V) (deltas : List V) : Option V :=
  deltas.foldl (fun value delta => Option.merge f value (some delta)) init

@[simp] theorem mergeAll_nil (f : V → V → V) (init : Option V) : mergeAll f init [] = init := rfl

@[simp] theorem mergeAll_cons (f : V → V → V) (init : Option V) (d : V) (deltas : List V) :
    mergeAll f init (d :: deltas) = mergeAll f (Option.merge f init (some d)) deltas := rfl

theorem mergeAll_append (f : V → V → V) (init : Option V) (ds es : List V) :
    mergeAll f init (ds ++ es) = mergeAll f (mergeAll f init ds) es :=
  List.foldl_append

/-- Two deltas can change places. -/
theorem merge_right_comm (f : V → V → V) [Std.Associative f] [Std.Commutative f]
    (value : Option V) (d e : V) :
    Option.merge f (Option.merge f value (some d)) (some e) =
      Option.merge f (Option.merge f value (some e)) (some d) := by
  have hassoc := (inferInstance : Std.Associative (Option.merge f)).assoc
  have hcomm := (inferInstance : Std.Commutative (Option.merge f)).comm
  rw [hassoc, hcomm (some d), ← hassoc]

theorem mergeAll_perm (f : V → V → V) [Std.Associative f] [Std.Commutative f]
    (init : Option V) {ds es : List V} (h : ds.Perm es) :
    mergeAll f init ds = mergeAll f init es :=
  h.foldl_eq' (fun d _ e _ value => merge_right_comm f value d e) init

/-- Adding up: without any delta there is no value, which is not the same as zero. -/
theorem mergeAll_add [AddMonoid V] (ds : List V) :
    mergeAll (· + ·) none ds = if ds = [] then none else some ds.sum := by
  have hsome : ∀ (ds : List V) (v : V), mergeAll (· + ·) (some v) ds = some (v + ds.sum) := by
    intro ds
    induction ds with
    | nil => simp
    | cons d ds ih =>
        intro v
        rw [mergeAll_cons, List.sum_cons, ← add_assoc]
        exact ih (v + d)
  cases ds with
  | nil => rfl
  | cons d ds =>
      rw [mergeAll_cons, if_neg (List.cons_ne_nil d ds), List.sum_cons]
      exact hsome ds d

/-- Putting lists together: without any list there is no value, which is not the same as the empty
    one. -/
theorem mergeAll_flatten {α : Type} (ds : List (List α)) :
    mergeAll (· ++ ·) none ds = if ds = [] then none else some ds.flatten := by
  have hsome : ∀ (ds : List (List α)) (v : List α),
      mergeAll (· ++ ·) (some v) ds = some (v ++ ds.flatten) := by
    intro ds
    induction ds with
    | nil => simp
    | cons e ds ih =>
        intro v
        rw [mergeAll_cons, List.flatten_cons, ← List.append_assoc]
        exact ih (v ++ e)
  cases ds with
  | nil => rfl
  | cons e ds =>
      rw [mergeAll_cons, if_neg (List.cons_ne_nil e ds), List.flatten_cons]
      exact hsome ds e

/-- What is observed of a merged value is merged from what is observed of the deltas. -/
theorem mergeAll_bind {W : Type} {f : V → V → V} {g : W → W → W} {obs : V → Option W}
    (h : ∀ a b, obs (f a b) = Option.merge g (obs a) (obs b)) (init : Option V) (ds : List V) :
    (mergeAll f init ds).bind obs = mergeAll g (init.bind obs) (ds.filterMap obs) := by
  induction ds generalizing init with
  | nil => rfl
  | cons d ds ih =>
      rw [mergeAll_cons, ih, List.filterMap_cons]
      have hmerge : (Option.merge f init (some d)).bind obs =
          Option.merge g (init.bind obs) (obs d) := by
        cases init with
        | none => cases hd : obs d <;> simp [hd]
        | some v => simp [h]
      rw [hmerge]
      cases obs d with
      | none => simp
      | some e => rw [mergeAll_cons]

variable [DecidableEq K]

/-- The deltas sent for `key`, in the order of the pairs. -/
def deltasOf (key : K) (pairs : List (K × V)) : List V :=
  pairs.filterMap fun p => if p.1 = key then some p.2 else none

@[simp] theorem deltasOf_nil (key : K) : deltasOf key ([] : List (K × V)) = [] := rfl

theorem deltasOf_cons (key : K) (p : K × V) (pairs : List (K × V)) :
    deltasOf key (p :: pairs) =
      if p.1 = key then p.2 :: deltasOf key pairs else deltasOf key pairs := by
  unfold deltasOf
  rw [List.filterMap_cons]
  by_cases h : p.1 = key <;> simp [h]

@[simp] theorem deltasOf_append (key : K) (ps qs : List (K × V)) :
    deltasOf key (ps ++ qs) = deltasOf key ps ++ deltasOf key qs :=
  List.filterMap_append

theorem deltasOf_flatMap {ι : Type} (key : K) (f : ι → List (K × V)) (is : List ι) :
    deltasOf key (is.flatMap f) = is.flatMap fun i => deltasOf key (f i) :=
  List.filterMap_flatMap

theorem deltasOf_perm (key : K) {ps qs : List (K × V)} (h : ps.Perm qs) :
    (deltasOf key ps).Perm (deltasOf key qs) :=
  h.filterMap _

/-- Where every key has at most one pair, it has at most that delta. -/
theorem deltasOf_of_nodup (key : K) {pairs : List (K × V)} (h : (pairs.map Prod.fst).Nodup) :
    deltasOf key pairs = ((pairs.find? fun p => p.1 = key).map Prod.snd).toList := by
  induction pairs with
  | nil => rfl
  | cons p pairs ih =>
      rw [List.map_cons, List.nodup_cons] at h
      rw [deltasOf_cons]
      by_cases hkey : p.1 = key
      · subst hkey
        have hnone : deltasOf p.1 pairs = [] := by
          apply List.filterMap_eq_nil_iff.mpr
          intro q hq
          exact if_neg fun heq => h.1 (List.mem_map.mpr ⟨q, hq, heq⟩)
        simp [hnone]
      · simp [hkey, ih h.2]

/-- The deltas for a key among the pairs that a test on the keys selects. -/
theorem deltasOf_filter (key : K) (q : K → Prop) [DecidablePred q] (pairs : List (K × V)) :
    deltasOf key (pairs.filter fun p => q p.1) = if q key then deltasOf key pairs else [] := by
  induction pairs with
  | nil => simp
  | cons p pairs ih =>
      rw [List.filter_cons]
      by_cases hkey : p.1 = key
      · subst hkey
        by_cases hq : q p.1 <;> simp [hq, deltasOf_cons, ih]
      · by_cases hq : q p.1 <;> simp [hq, hkey, deltasOf_cons, ih]

end MergeFold
