import Paracel.Misc.CyclicSucc

/-!
# The search on the ring

`ring_bsearch` of `include/utils.hpp`. The positions are `size_t`; they stay
far below `2 ^ 64`, so the one place where the type shows is `m - 1` at `m = 0`,
which is the largest position and no error. Reading outside of the vector has
no defined value and is `none`.
-/

namespace Paracel

open CyclicSucc

/-- The order of the hash values. -/
instance instLinearOrderUInt64 : LinearOrder UInt64 where
  le_refl := UInt64.le_refl
  le_trans _ _ _ := UInt64.le_trans
  le_antisymm _ _ := UInt64.le_antisymm
  le_total := UInt64.le_total
  lt_iff_le_not_ge _ _ := by
    rw [UInt64.not_le, iff_and_self]
    exact UInt64.le_of_lt
  toDecidableLE := inferInstance

variable {H : Type} [LinearOrder H]

/-- The largest `size_t`. -/
def sizeMax : Nat := 18446744073709551615

/-- The loop of `ring_bsearch` and its last line; `m` is the middle of the turn before. -/
def ringBsearchLoop (data : List H) (key : H) : Nat → Nat → Nat → Nat → Option Nat
  | 0, _, _, _ => none
  | fuel + 1, s, e, m =>
      if s ≤ e then
        let m := s + (e - s) / 2
        match data[m]? with
        | none => none
        | some d =>
            if d < key then ringBsearchLoop data key fuel (m + 1) e m
            else if key < d then
              ringBsearchLoop data key fuel s (if m = 0 then sizeMax else m - 1) m
            else some m
      else
        match data[m]? with
        | none => none
        | some d => some (if d < key then m + 1 else m)

/-- `ring_bsearch`. -/
def ringBsearch (data : List H) (key : H) : Option Nat :=
  match data[0]?, data[data.length - 1]? with
  | some first, some last =>
      if key < first ∨ last < key then some 0
      else ringBsearchLoop data key (data.length + 1) 0 (data.length - 1) 0
  | _, _ => none

/-- Position `i` holds the key, or is where the elements after the key begin. -/
def Found (data : List H) (key : H) (i : Nat) : Prop :=
  data[i]? = some key ∨
    (i < data.length ∧ (∀ j d, data[j]? = some d → j < i → d < key) ∧
      ∀ j d, data[j]? = some d → i ≤ j → key < d)

/-- What holds between the turns: the elements before `s` are below the key, those after
    `e` above it, and past the last turn `s` is the last middle or next to it. -/
structure Narrowed (data : List H) (key : H) (s e m : Nat) : Prop where
  below : ∀ j d, data[j]? = some d → j < s → d < key
  above : ∀ j d, data[j]? = some d → e < j → key < d
  bounds : s ≤ e + 1 ∧ s < data.length ∧ e < data.length
  moved : s ≤ e ∨ s = m + 1 ∨ s = m

theorem sorted_le {data : List H} (hsorted : data.Pairwise (· ≤ ·)) {i j : Nat} {x y : H}
    (hi : data[i]? = some x) (hj : data[j]? = some y) (hij : i ≤ j) : x ≤ y := by
  rcases List.getElem?_eq_some_iff.mp hi with ⟨hil, rfl⟩
  rcases List.getElem?_eq_some_iff.mp hj with ⟨hjl, rfl⟩
  rcases Nat.eq_or_lt_of_le hij with rfl | hlt
  · exact le_refl _
  · exact List.pairwise_iff_getElem.mp hsorted i j hil hjl hlt

section Spec

variable {data : List H} {key : H} {s e m mid : Nat} {d last : H}

/-- The turn that moves `s` behind a smaller element. -/
theorem Narrowed.right (hsorted : data.Pairwise (· ≤ ·))
    (hlast : data[data.length - 1]? = some last) (hge : key ≤ last)
    (hinv : Narrowed data key s e m) (hmid : mid ≤ e) (hget : data[mid]? = some d) (hd : d < key) :
    Narrowed data key (mid + 1) e mid := by
  have hb := hinv.bounds
  refine ⟨?_, hinv.above, ⟨by omega, ?_, hb.2.2⟩, .inr (.inl rfl)⟩
  · intro j x hx hj
    exact lt_of_le_of_lt (sorted_le hsorted hx hget (by omega)) hd
  · have hne : mid ≠ data.length - 1 := by
      rintro rfl
      rw [hget] at hlast
      cases hlast
      exact absurd hd (not_lt.mpr hge)
    omega

/-- The turn that moves `e` before a larger element; the key is not below the first
    element, so `mid` is not 0. -/
theorem Narrowed.left {first : H} (hsorted : data.Pairwise (· ≤ ·))
    (hfirst : data[0]? = some first) (hle : first ≤ key) (hinv : Narrowed data key s e m)
    (hs : s ≤ mid) (hmid : mid ≤ e) (hget : data[mid]? = some d) (hd : key < d) :
    mid ≠ 0 ∧ Narrowed data key s (mid - 1) mid := by
  have hb := hinv.bounds
  have hne : mid ≠ 0 := by
    rintro rfl
    rw [hget] at hfirst
    cases hfirst
    exact absurd hd (not_lt.mpr hle)
  refine ⟨hne, hinv.below, ?_, ⟨by omega, hb.2.1, by omega⟩, by omega⟩
  intro j x hx hj
  exact lt_of_lt_of_le hd (sorted_le hsorted hget hx (by omega))

/-- Before the first turn the borders are the ends of the vector. -/
theorem Narrowed.start (hpos : 0 < data.length) : Narrowed data key 0 (data.length - 1) 0 := by
  refine ⟨fun j _ _ hj => absurd hj (Nat.not_lt_zero j), ?_, by omega, by omega⟩
  intro j x hx hj
  have hjl : j < data.length := (List.getElem?_eq_some_iff.mp hx).1
  omega

/-- The loop ends within as many turns as there are elements between the borders, reads
    inside of the vector only, and finds the position. -/
theorem ringBsearchLoop_spec {first : H} (hsorted : data.Pairwise (· ≤ ·))
    (hfirst : data[0]? = some first) (hle : first ≤ key)
    (hlast : data[data.length - 1]? = some last) (hge : key ≤ last) (fuel : Nat)
    (hinv : Narrowed data key s e m) (hfuel : e + 1 - s < fuel) :
    ∃ i, ringBsearchLoop data key fuel s e m = some i ∧ Found data key i := by
  induction fuel generalizing s e m with
  | zero => omega
  | succ fuel ih =>
      have hb := hinv.bounds
      rw [ringBsearchLoop]
      by_cases hse : s ≤ e
      · rw [if_pos hse]
        have hs : s ≤ s + (e - s) / 2 := by omega
        have hmid : s + (e - s) / 2 ≤ e := by omega
        generalize s + (e - s) / 2 = mid at hs hmid ⊢
        have hget : data[mid]? = some data[mid] := List.getElem?_eq_getElem (by omega)
        simp only [hget]
        rcases lt_trichotomy data[mid] key with hd | hd | hd
        · rw [if_pos hd]
          apply ih (hinv.right hsorted hlast hge hmid hget hd)
          omega
        · rw [if_neg (not_lt.mpr hd.ge), if_neg (not_lt.mpr hd.le)]
          exact ⟨mid, rfl, .inl (hget.trans (congrArg some hd))⟩
        · rcases hinv.left hsorted hfirst hle hs hmid hget hd with ⟨hne, hinv'⟩
          rw [if_neg (not_lt.mpr hd.le), if_pos hd, if_neg hne]
          apply ih hinv'
          omega
      · rw [if_neg hse]
        have hfound : Found data key s := by
          refine .inr ⟨hb.2.1, hinv.below, ?_⟩
          intro j x hx hj
          exact hinv.above j x hx (by omega)
        rcases hinv.moved with hmoved | rfl | rfl
        · exact absurd hmoved hse
        · have hget : data[m]? = some data[m] := List.getElem?_eq_getElem (by omega)
          simp only [hget, if_pos (hinv.below m _ hget (by omega))]
          exact ⟨m + 1, rfl, hfound⟩
        · have hget : data[s]? = some data[s] := List.getElem?_eq_getElem (by omega)
          have hlt : key < data[s] := hinv.above s _ hget (by omega)
          simp only [hget, if_neg (not_lt.mpr hlt.le)]
          exact ⟨s, rfl, hfound⟩

/-- On a sorted vector that is not empty the search returns the position of the cyclic
    successor of the key. -/
theorem ringBsearch_spec (hsorted : data.Pairwise (· ≤ ·)) (hne : data ≠ []) (key : H) :
    ∃ i p, ringBsearch data key = some i ∧ data[i]? = some p ∧ IsSucc {q | q ∈ data} key p := by
  have hpos : 0 < data.length := List.length_pos_iff.mpr hne
  have hfirst : data[0]? = some data[0] := List.getElem?_eq_getElem hpos
  have hlast : data[data.length - 1]? = some data[data.length - 1] :=
    List.getElem?_eq_getElem (by omega)
  have hindex : ∀ q ∈ data, ∃ j : Nat, data[j]? = some q := fun q hq =>
    List.mem_iff_getElem?.mp hq
  unfold ringBsearch
  simp only [hfirst, hlast]
  by_cases hout : key < data[0] ∨ data[data.length - 1] < key
  · rw [if_pos hout]
    refine ⟨0, _, rfl, hfirst, List.mem_of_getElem? hfirst, ?_⟩
    have hmin : ∀ q ∈ data, data[0] ≤ q := by
      intro q hq
      rcases hindex q hq with ⟨j, hj⟩
      exact sorted_le hsorted hfirst hj (Nat.zero_le j)
    rcases hout with hbelow | habove
    · exact .inl ⟨hbelow.le, fun q hq _ => hmin q hq⟩
    · refine .inr ⟨?_, hmin⟩
      intro q hq
      rcases hindex q hq with ⟨j, hj⟩
      have hjl : j < data.length := (List.getElem?_eq_some_iff.mp hj).1
      exact lt_of_le_of_lt (sorted_le hsorted hj hlast (by omega)) habove
  · rw [if_neg hout]
    rw [not_or, not_lt, not_lt] at hout
    rcases ringBsearchLoop_spec hsorted hfirst hout.1 hlast hout.2 (data.length + 1)
      (Narrowed.start hpos) (by omega) with ⟨i, hi, hfound⟩
    rcases hfound with hkey | ⟨hil, hbelow, habove⟩
    · exact ⟨i, key, hi, hkey, isSucc_self (List.mem_of_getElem? hkey)⟩
    · have hget : data[i]? = some data[i] := List.getElem?_eq_getElem hil
      refine ⟨i, _, hi, hget, List.mem_of_getElem? hget, .inl ⟨?_, ?_⟩⟩
      · exact (habove i _ hget (le_refl i)).le
      · intro q hq hkq
        rcases hindex q hq with ⟨j, hj⟩
        rcases Nat.lt_or_ge j i with hji | hij
        · exact absurd (hbelow j q hj hji) (not_lt.mpr hkq)
        · exact sorted_le hsorted hget hj hij

/-- The borders and the last middle with which the search comes to the head of its loop. -/
inductive RingBsearchAt (data : List H) (key : H) : Nat → Nat → Nat → Prop
  | start {first last : H} (hfirst : data[0]? = some first)
      (hlast : data[data.length - 1]? = some last) (hin : ¬(key < first ∨ last < key)) :
      RingBsearchAt data key 0 (data.length - 1) 0
  | right {s e m : Nat} {d : H} : RingBsearchAt data key s e m → s ≤ e →
      data[s + (e - s) / 2]? = some d → d < key →
      RingBsearchAt data key (s + (e - s) / 2 + 1) e (s + (e - s) / 2)
  | left {s e m : Nat} {d : H} : RingBsearchAt data key s e m → s ≤ e →
      data[s + (e - s) / 2]? = some d → key < d →
      RingBsearchAt data key s (if s + (e - s) / 2 = 0 then sizeMax else s + (e - s) / 2 - 1)
        (s + (e - s) / 2)

/-- The borders keep the loop's invariant wherever the search comes, and from there the
    loop still computes its answer. -/
theorem RingBsearchAt.narrowed (hsorted : data.Pairwise (· ≤ ·))
    (hat : RingBsearchAt data key s e m) :
    ∃ first last, data[0]? = some first ∧ data[data.length - 1]? = some last ∧
      first ≤ key ∧ key ≤ last ∧ Narrowed data key s e m ∧
      ∃ fuel, e + 1 - s < fuel ∧ ringBsearch data key = ringBsearchLoop data key fuel s e m := by
  induction hat with
  | @start first last hfirst hlast hin =>
      have hpos : 0 < data.length := (List.getElem?_eq_some_iff.mp hfirst).1
      have houtside := hin
      rw [not_or, not_lt, not_lt] at hin
      refine ⟨first, last, hfirst, hlast, hin.1, hin.2, Narrowed.start hpos,
        data.length + 1, by omega, ?_⟩
      simp only [ringBsearch, hfirst, hlast, if_neg houtside]
  | right _ hse hget hd ih =>
      obtain ⟨first, last, hfirst, hlast, hle, hge, hinv, fuel, hfuel, hrun⟩ := ih
      refine ⟨first, last, hfirst, hlast, hle, hge,
        hinv.right hsorted hlast hge (by omega) hget hd, ?_⟩
      obtain ⟨fuel, rfl⟩ : ∃ n, fuel = n + 1 := ⟨fuel - 1, by omega⟩
      refine ⟨fuel, by omega, ?_⟩
      rw [hrun, ringBsearchLoop, if_pos hse]
      simp only [hget, if_pos hd]
  | left _ hse hget hd ih =>
      obtain ⟨first, last, hfirst, hlast, hle, hge, hinv, fuel, hfuel, hrun⟩ := ih
      obtain ⟨hne, hinv'⟩ :=
        hinv.left hsorted hfirst hle (Nat.le_add_right _ _) (by omega) hget hd
      rw [if_neg hne]
      refine ⟨first, last, hfirst, hlast, hle, hge, hinv', ?_⟩
      obtain ⟨fuel, rfl⟩ : ∃ n, fuel = n + 1 := ⟨fuel - 1, by omega⟩
      refine ⟨fuel, by omega, ?_⟩
      rw [hrun, ringBsearchLoop, if_pos hse]
      simp only [hget, if_neg (not_lt.mpr hd.le), if_pos hd, if_neg hne]

/-- Wherever the search comes, `e` is a position of the vector, so is the middle it reads,
    and `e = m - 1` is taken only with `m` above 0. -/
theorem RingBsearchAt.in_range (hsorted : data.Pairwise (· ≤ ·))
    (hat : RingBsearchAt data key s e m) :
    e < data.length ∧ (s ≤ e → ∃ d, data[s + (e - s) / 2]? = some d ∧
      (key < d → s + (e - s) / 2 ≠ 0)) := by
  obtain ⟨first, last, hfirst, -, hle, -, hinv, -⟩ := hat.narrowed hsorted
  have hb := hinv.bounds
  refine ⟨hb.2.2, fun hse => ?_⟩
  have hget : data[s + (e - s) / 2]? = some data[s + (e - s) / 2] :=
    List.getElem?_eq_getElem (by omega)
  exact ⟨_, hget, fun hd =>
    (hinv.left hsorted hfirst hle (Nat.le_add_right _ _) (by omega) hget hd).1⟩

/-- A key above all elements is sent to position 0 before the loop. -/
theorem ringBsearch_above (hne : data ≠ []) (habove : ∀ x ∈ data, x < key) :
    ringBsearch data key = some 0 := by
  have hpos : 0 < data.length := List.length_pos_iff.mpr hne
  have hfirst : data[0]? = some data[0] := List.getElem?_eq_getElem hpos
  have hlast : data[data.length - 1]? = some data[data.length - 1] :=
    List.getElem?_eq_getElem (by omega)
  simp only [ringBsearch, hfirst, hlast, if_pos (Or.inr (habove _ (List.getElem_mem _)))]

/-- On a sorted vector that is not empty the search ends, with all its positions in range
    and no wrap of `e`, at the least element that is not below the key, or at position 0
    when there is none. -/
theorem ringBsearch_cyclic (data : List H) (hsorted : data.Pairwise (· ≤ ·)) (hne : data ≠ [])
    (key : H) :
    (∀ s e m, RingBsearchAt data key s e m →
      e < data.length ∧ (s ≤ e → ∃ d, data[s + (e - s) / 2]? = some d ∧
        (key < d → s + (e - s) / 2 ≠ 0))) ∧
    ∃ m, ∃ hm : m < data.length, ringBsearch data key = some m ∧
      (IsLeast {x | x ∈ data ∧ key ≤ x} data[m] ∨ ((∀ x ∈ data, x < key) ∧ m = 0)) := by
  refine ⟨fun s e m hat => hat.in_range hsorted, ?_⟩
  obtain ⟨m, p, hrun, hget, hmem, hsucc⟩ := ringBsearch_spec hsorted hne key
  obtain ⟨hm, rfl⟩ := List.getElem?_eq_some_iff.mp hget
  refine ⟨m, hm, hrun, ?_⟩
  rcases hsucc with ⟨hle, hmin⟩ | ⟨habove, -⟩
  · exact .inl ⟨⟨hmem, hle⟩, fun x hx => hmin x hx.1 hx.2⟩
  · have hzero : some m = some 0 := hrun.symm.trans (ringBsearch_above hne habove)
    exact .inr ⟨habove, Option.some.inj hzero⟩

/-- Repeated elements, a key between the elements, and one above them all. -/
theorem ringBsearch_cyclic_repeats :
    ([3, 5, 5, 9] : List UInt64).Pairwise (· ≤ ·) ∧
      ∃ m, ∃ hm : m < ([3, 5, 5, 9] : List UInt64).length,
        ringBsearch ([3, 5, 5, 9] : List UInt64) 4 = some m ∧
        (IsLeast {x | x ∈ ([3, 5, 5, 9] : List UInt64) ∧ 4 ≤ x} ([3, 5, 5, 9] : List UInt64)[m] ∨
          ((∀ x ∈ ([3, 5, 5, 9] : List UInt64), x < 4) ∧ m = 0)) :=
  ⟨by decide, (ringBsearch_cyclic [3, 5, 5, 9] (by decide) (by decide) 4).2⟩

end Spec

end Paracel
