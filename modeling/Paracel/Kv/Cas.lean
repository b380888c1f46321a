import Mathlib.Data.Set.Function
import Paracel.Kv

/-!
# Compare-and-set on lists

`kvs::gets`, `kvs::cas` and `kvs::incr` on a sequence (`include/kv.hpp`), and
the hash of a vector (`include/utils/hash.hpp`) that serves as the version
token. The hash of a string is a parameter; what it is applied to is the text
that the elements print one after another, without anything between them.
-/

namespace Paracel

/-- `buff` of `hash<std::vector<L>>`, for a vector of `int`. -/
def vecText (vec : List Int) : Str :=
  vec.foldl (fun buff item => buff ++ intStr item) (lit "vechash")

namespace Kvs

variable {K H : Type} [DecidableEq K]

/-- `kvs::gets`, where `hfunc` is the hash of the values. -/
def gets {V : Type} (hfunc : V → H) (s : Kvs K V) (k : K) : Option (V × H) :=
  match s.get k with
  | some v => some (v, hfunc v)
  | none => none

/-- `kvs::cas`. -/
def cas {V : Type} [DecidableEq H] (hfunc : V → H) (s : Kvs K V) (k : K) (v : V) (uniq : H) :
    Bool × Kvs K V :=
  match s.gets hfunc k with
  | some r => if uniq = r.2 then (true, s.set k v) else (false, s)
  | none => (true, s.set k v)

/-- `kvs::incr` on a sequence type. -/
def incrSeq {L : Type} [Add L] (s : Kvs K (List L)) (k : K) (delta : List L) :
    Bool × Kvs K (List L) :=
  match s.get k with
  | none => (false, s)
  | some v =>
      if v.length ≠ delta.length then (false, s)
      else (true, s.set k (List.zipWith (· + ·) v delta))

/-- The operations that change a store of lists. -/
inductive ListOp (K H : Type) where
  | set (k : K) (v : List Int)
  | setMulti (kvdict : Dict K (List Int))
  | incr (k : K) (delta : List Int)
  | del (k : K)
  | cas (k : K) (v : List Int) (uniq : H)

variable [DecidableEq H]

/-- The hash of a list: the hash `hl` of its text. -/
def vecHash (hl : Str → H) (vec : List Int) : H :=
  hl (vecText vec)

/-- The store after one operation. -/
def perform (hl : Str → H) (s : Kvs K (List Int)) : ListOp K H → Kvs K (List Int)
  | .set k v => s.set k v
  | .setMulti kvdict => s.setMulti kvdict
  | .incr k delta => (s.incrSeq k delta).2
  | .del k => (s.del k).2
  | .cas k v uniq => (s.cas (vecHash hl) k v uniq).2

/-- The store after the operations. -/
def performAll (hl : Str → H) (s : Kvs K (List Int)) (ops : List (ListOp K H)) :
    Kvs K (List Int) :=
  ops.foldl (perform hl) s

/-- When `gets(k)` on `s` returned a list and its token, and after the operations `k` is
    present and `cas` with this token returns `true`, then the list was still stored. -/
def NoStaleCas (hl : Str → H) (s : Kvs K (List Int)) (k : K) (ops : List (ListOp K H))
    (w : List Int) : Prop :=
  ∀ v u, s.gets (vecHash hl) k = some (v, u) → (performAll hl s ops).contains k = true →
    ((performAll hl s ops).cas (vecHash hl) k w u).1 = true →
      (performAll hl s ops).get k = some v

/-- From `gets` to the `cas`, both included, `k` holds lists of `S` only. -/
def HoldsOnly (hl : Str → H) (S : Set (List Int)) (s : Kvs K (List Int)) (k : K)
    (ops : List (ListOp K H)) : Prop :=
  ∀ pre, pre <+: ops → ∀ v, (performAll hl s pre).get k = some v → v ∈ S

omit [DecidableEq H] in
theorem gets_eq_some {V : Type} {hfunc : V → H} {s : Kvs K V} {k : K} {v : V} {u : H} :
    s.gets hfunc k = some (v, u) ↔ s.get k = some v ∧ u = hfunc v := by
  unfold gets
  cases h : s.get k with
  | none => simp
  | some x =>
      simp only [Option.some.injEq, Prod.mk.injEq]
      constructor
      · rintro ⟨rfl, rfl⟩
        exact ⟨rfl, rfl⟩
      · rintro ⟨rfl, rfl⟩
        exact ⟨rfl, rfl⟩

/-- On a present key `cas` succeeds exactly with the token of the value stored. -/
theorem cas_fst_of_get {V : Type} {hfunc : V → H} {s : Kvs K V} {k : K} {x : V}
    (h : s.get k = some x) (w : V) (u : H) :
    (s.cas hfunc k w u).1 = true ↔ u = hfunc x := by
  have hgets : s.gets hfunc k = some (x, hfunc x) := gets_eq_some.mpr ⟨h, rfl⟩
  unfold cas
  rw [hgets]
  by_cases hu : u = hfunc x
  · simp [hu]
  · simp [hu]

/-- One `gets` and one later `cas`: the list was still stored unless another one with the
    same text had taken its place. -/
theorem noStaleCas_iff {hl : Str → H} (hinj : Function.Injective hl) (s : Kvs K (List Int))
    (k : K) (ops : List (ListOp K H)) (w : List Int) :
    NoStaleCas hl s k ops w ↔ ∀ v x, s.get k = some v → (performAll hl s ops).get k = some x →
      vecText x = vecText v → x = v := by
  constructor
  · intro h v x hv hx htext
    have hgets : s.gets (vecHash hl) k = some (v, vecHash hl v) := gets_eq_some.mpr ⟨hv, rfl⟩
    have hcas : ((performAll hl s ops).cas (vecHash hl) k w (vecHash hl v)).1 = true := by
      apply (cas_fst_of_get hx w _).mpr
      rw [vecHash, vecHash, htext]
    have hget := h v (vecHash hl v) hgets (by simp [contains, hx]) hcas
    exact Option.some.inj (hx.symm.trans hget)
  · intro h v u hgets hcontains hcas
    rcases gets_eq_some.mp hgets with ⟨hv, rfl⟩
    rcases Option.isSome_iff_exists.mp hcontains with ⟨x, hx⟩
    have htext : vecText v = vecText x := hinj ((cas_fst_of_get hx w _).mp hcas)
    rw [hx, h v x hv hx htext.symm]

/-- A `cas` is never stale as long as the lists stored come from a set exactly if different
    lists of the set print different texts. -/
theorem noStaleCas_within_iff {hl : Str → H} (hinj : Function.Injective hl) [Nonempty K]
    (S : Set (List Int)) :
    (∀ (s : Kvs K (List Int)) k ops w, HoldsOnly hl S s k ops → NoStaleCas hl s k ops w) ↔
      S.InjOn vecText := by
  constructor
  · intro h x hx v hv htext
    rcases ‹Nonempty K› with ⟨k⟩
    -- `v` is stored, read, and overwritten with `x`
    let s : Kvs K (List Int) := Kvs.set {} k v
    have honly : HoldsOnly hl S s k [.set k x] := by
      intro pre hpre y hy
      rcases List.prefix_cons_iff.mp hpre with rfl | ⟨pre', rfl, hpre'⟩
      · simp only [performAll, List.foldl_nil, s, get_set, if_true, Option.some.injEq] at hy
        exact hy ▸ hv
      · rw [List.prefix_nil.mp hpre'] at hy
        simp only [performAll, List.foldl_cons, List.foldl_nil, perform, get_set, if_true,
          Option.some.injEq] at hy
        exact hy ▸ hx
    apply (noStaleCas_iff hinj s k [.set k x] []).mp (h s k _ [] honly) v x
    · simp [s]
    · simp [performAll, perform]
    · exact htext
  · intro hS s k ops w honly
    apply (noStaleCas_iff hinj s k ops w).mpr
    intro v x hv hx htext
    apply hS
    · exact honly ops (List.prefix_refl ops) x hx
    · exact honly [] List.nil_prefix v hv
    · exact htext

/-! ### Lists with different texts -/

theorem vecText_eq (vec : List Int) : vecText vec = lit "vechash" ++ vec.flatMap intStr := by
  have hfold : ∀ buff : Str,
      vec.foldl (fun buff item => buff ++ intStr item) buff = buff ++ vec.flatMap intStr := by
    induction vec with
    | nil =>
        intro buff
        simp
    | cons i vec ih =>
        intro buff
        rw [List.foldl_cons, ih, List.flatMap_cons, List.append_assoc]
  exact hfold _

/-- Lists of one element print different texts. -/
theorem vecText_injOn_singletons : {vec : List Int | vec.length = 1}.InjOn vecText := by
  intro x hx y hy h
  rcases List.length_eq_one_iff.mp hx with ⟨i, rfl⟩
  rcases List.length_eq_one_iff.mp hy with ⟨j, rfl⟩
  rw [vecText_eq, vecText_eq] at h
  have htext := List.append_cancel_left h
  simp only [List.flatMap_cons, List.flatMap_nil, List.append_nil] at htext
  rw [intStr_injective htext]

/-- So do lists of one-digit numbers. -/
theorem vecText_injOn_digits : {vec : List Int | ∀ i ∈ vec, 0 ≤ i ∧ i < 10}.InjOn vecText := by
  have hone : ∀ i : Int, 0 ≤ i ∧ i < 10 → ∃ b, intStr i = [b] := by
    intro i hi
    lift i to Nat using hi.1
    rw [intStr, if_neg (by omega), toStr, Int.natAbs_natCast,
      Nat.toDigits_of_lt_base (by omega)]
    exact ⟨_, rfl⟩
  intro x hx y hy h
  rw [vecText_eq, vecText_eq] at h
  have htext := List.append_cancel_left h
  clear h
  induction x generalizing y with
  | nil =>
      cases y with
      | nil => rfl
      | cons j y =>
          rcases hone j (hy j List.mem_cons_self) with ⟨b, hb⟩
          simp [hb] at htext
  | cons i x ih =>
      rcases hone i (hx i List.mem_cons_self) with ⟨a, ha⟩
      cases y with
      | nil => simp [ha] at htext
      | cons j y =>
          rcases hone j (hy j List.mem_cons_self) with ⟨b, hb⟩
          simp only [List.flatMap_cons, ha, hb, List.singleton_append, List.cons.injEq] at htext
          rcases htext with ⟨hab, hrest⟩
          have hij : i = j := by
            apply intStr_injective
            rw [ha, hb, hab]
          rw [hij, ih (fun i hi => hx i (List.mem_cons_of_mem _ hi))
            (fun i hi => hy i (List.mem_cons_of_mem _ hi)) hrest]

/-- `cas` with the token of an earlier `gets` is not stale exactly when no different list
    with the same text is stored before it; the lists of a set are safe exactly when
    their texts differ. -/
theorem cas_not_stale_iff {hl : Str → H} (hinj : Function.Injective hl) [Nonempty K] :
    (∀ (s : Kvs K (List Int)) k ops w, NoStaleCas hl s k ops w ↔
      ¬∃ v x, s.get k = some v ∧ (performAll hl s ops).get k = some x ∧
        x ≠ v ∧ vecText x = vecText v) ∧
    ∀ S : Set (List Int),
      (∀ (s : Kvs K (List Int)) k ops w, HoldsOnly hl S s k ops → NoStaleCas hl s k ops w) ↔
        S.InjOn vecText := by
  constructor
  · intro s k ops w
    rw [noStaleCas_iff hinj]
    constructor
    · rintro h ⟨v, x, hv, hx, hne, htext⟩
      exact hne (h v x hv hx htext)
    · intro h v x hv hx htext
      by_contra hne
      exact h ⟨v, x, hv, hx, hne, htext⟩
  · exact noStaleCas_within_iff hinj

theorem cas_not_stale_iff_id :
    (∀ (s : Kvs Str (List Int)) k ops w, NoStaleCas id s k ops w ↔
      ¬∃ v x, s.get k = some v ∧ (performAll id s ops).get k = some x ∧
        x ≠ v ∧ vecText x = vecText v) ∧
    ∀ S : Set (List Int),
      (∀ (s : Kvs Str (List Int)) k ops w, HoldsOnly id S s k ops → NoStaleCas id s k ops w) ↔
        S.InjOn vecText :=
  cas_not_stale_iff Function.injective_id

/-- Both lists print `123`. -/
theorem not_noStaleCas_123 :
    ¬NoStaleCas (id : Str → Str) (Kvs.set {} (lit "a") [1, 23]) (lit "a")
      [.set (lit "a") [12, 3]] [0] := by
  intro h
  have hget := h [1, 23] (vecText [1, 23]) (by decide) (by decide) (by decide)
  revert hget
  decide

end Kvs

end Paracel
