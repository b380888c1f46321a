import Mathlib.NumberTheory.Padics.PadicVal.Basic
import Paracel.Misc.Network

/-!
# Tree reduction

`Comm::treereduce` of `include/utils/comm.hpp`. In every round a rank with an
odd logical rank sends its data to its left neighbour and leaves the loop, a
rank with an even one receives from its right neighbour, if it has one, and
halves its logical rank. `isend` copies its buffer and does not wait. Here
`func(recvbuf, data)` multiplies `data` by `recvbuf` from the right.
-/

namespace Paracel.Comm

open Network StepSystem

variable {T : Type}

/-- Where a rank stands: in the loop, past it, before the `isend` of rank 0 to the specified
    rank, before its `recv`, or at the `return`. -/
inductive TreereducePc where
  | loop
  | last
  | isend
  | recv
  | done
deriving DecidableEq

/-- The arguments and locals of `treereduce`; `r` is empty where it is still `T()`. -/
structure Treereduce (T : Type) where
  data : T
  rk : Nat
  num : Nat
  isOdd : Nat := 0
  depth : Nat := 1
  r : Option T := none
  pc : TreereducePc := .loop

/-- `treereduce` before its loop. -/
def treereduceStart (mSz mRk : Nat) (data : T) : Treereduce T where
  data := data
  rk := mRk
  num := mSz

/-- What a rank does next in `treereduce(data, func, rank)`. -/
def treereduceAct (func : T → T → T) (mRk rank : Nat) (l : Treereduce T) :
    Action (Treereduce T) T :=
  match l.pc with
  | .loop =>
      if 1 < l.num then
        if l.rk < l.num then
          let isOdd := l.num % 2
          let next : Treereduce T :=
            { l with
              isOdd := isOdd
              rk := l.rk / 2
              depth := l.depth * 2
              num := l.num / 2 + isOdd }
          if l.rk % 2 ≠ 0 then
            .send ((l.rk - 1) * l.depth) l.data
              { l with isOdd := isOdd, rk := l.rk * l.num, pc := .last }
          else if l.rk ≠ l.num - 1 then
            .recv ((l.rk + 1) * l.depth) fun recvbuf => { next with data := func recvbuf l.data }
          else .tau next
        else .tau { l with num := l.num / 2 + l.isOdd }
      else .tau { l with pc := .last }
  | .last => .tau { l with r := if mRk = 0 then some l.data else none, pc := .isend }
  | .isend =>
      if rank ≠ 0 ∧ mRk = 0 then .send rank l.data { l with pc := .recv }
      else .tau { l with pc := .recv }
  | .recv =>
      if rank ≠ 0 ∧ mRk = rank then .recv 0 fun r => { l with r := some r, pc := .done }
      else .tau { l with pc := .done }
  | .done => .halt

/-! ### Blocks of ranks -/

/-- The largest power of two that divides `s`. -/
def lowBit (s : Nat) : Nat := 2 ^ padicValNat 2 s

theorem lowBit_odd_mul (m k : Nat) : lowBit ((2 * m + 1) * 2 ^ k) = 2 ^ k := by
  rw [lowBit, padicValNat.mul (by omega) (by positivity), padicValNat.prime_pow,
    padicValNat.eq_zero_of_not_dvd (by omega), Nat.zero_add]

theorem lowBit_pos (s : Nat) : 0 < lowBit s := Nat.two_pow_pos _

theorem exists_odd_mul {s : Nat} (hs : s ≠ 0) : ∃ m k, s = (2 * m + 1) * 2 ^ k := by
  rcases Nat.exists_eq_two_pow_mul_odd hs with ⟨k, m, ⟨j, rfl⟩, rfl⟩
  exact ⟨j, k, Nat.mul_comm _ _⟩

/-- A rank that receives from `s` itself sends later than `s`. -/
theorem lowBit_lt_of_child {s d : Nat} (h : d + lowBit s = s) (hd : d ≠ 0) :
    lowBit s < lowBit d := by
  have hs : s ≠ 0 := by
    have hpos := lowBit_pos s
    omega
  rcases exists_odd_mul hs with ⟨m, k, rfl⟩
  rw [lowBit_odd_mul] at h ⊢
  have hdk : d = m * 2 ^ (k + 1) := by
    rw [pow_succ]
    nlinarith
  have hm : m ≠ 0 := by
    rintro rfl
    exact hd (by simpa using hdk)
  rcases exists_odd_mul hm with ⟨j, i, rfl⟩
  rw [hdk, mul_assoc, ← pow_add, lowBit_odd_mul]
  exact Nat.pow_lt_pow_right (by omega) (by omega)

variable [Semigroup T]

/-- `x lo * x (lo + 1) * … * x (lo + k)`. -/
def block (x : Nat → T) (lo : Nat) : Nat → T
  | 0 => x lo
  | k + 1 => block x lo k * x (lo + (k + 1))

theorem block_append (x : Nat → T) (lo j k : Nat) :
    block x lo j * block x (lo + (j + 1)) k = block x lo (j + 1 + k) := by
  induction k with
  | zero => rfl
  | succ k ih =>
      rw [block, ← mul_assoc, ih]
      show _ = block x lo (j + 1 + k) * x (lo + (j + 1 + k + 1))
      congr 2
      omega

/-- The product of the data of the ranks from `lo` up to `hi`. -/
def ranksProd (x : Nat → T) (lo hi : Nat) : T := block x lo (hi - lo - 1)

theorem ranksProd_append (x : Nat → T) {lo mid hi : Nat} (hlo : lo < mid) (hhi : mid < hi) :
    ranksProd x lo mid * ranksProd x mid hi = ranksProd x lo hi := by
  unfold ranksProd
  have hmid : mid = lo + (mid - lo - 1 + 1) := by omega
  have hlen : hi - lo - 1 = mid - lo - 1 + 1 + (hi - mid - 1) := by omega
  rw [hlen, ← block_append, ← hmid]

/-! ### One rank after the other -/

variable {n : Nat} {x : Nat → T} {rank : Nat}

/-- `treereduce` on every rank, with `acc := acc * recv`. -/
def treereduce (rank : Nat) (r : Fin n) : Treereduce T → Action (Treereduce T) T :=
  treereduceAct (fun recvbuf data => data * recvbuf) r rank

/-- All ranks at their entry. -/
def treereduceInit (n : Nat) (x : Nat → T) : State n (Treereduce T) T where
  loc r := treereduceStart n r (x r)

/-- What rank `s` sends to its left neighbour. -/
def contribution (x : Nat → T) (n s : Nat) : T :=
  ranksProd x s (min (s + lowBit s) n)

/-- The ranks below `r` are at their entry, those above past their part of the tree; rank `r`
    has received from its neighbours below `c`. -/
structure Swept (x : Nat → T) (r c : Nat) (st : State n (Treereduce T) T) : Prop where
  fresh : ∀ i : Fin n, i < r → st.loc i = treereduceStart n i (x i)
  done : ∀ i : Fin n, r < i → (st.loc i).pc = .recv
  sent : ∀ s d, st.sent s d =
    if (r < s ∧ s < n) ∧ d + lowBit s = s then [contribution x n s] else []
  taken : ∀ s d, st.taken s d =
    if (r < s ∧ s < n) ∧ d + lowBit s = s ∧ (r < d ∨ d = r ∧ s < c) then 1 else 0

/-- Rank `r` at the head of its `k`-th round: its logical rank, the size of its group and the
    product of its block. -/
structure Treereduce.Round (x : Nat → T) (n r k : Nat) (l : Treereduce T) : Prop where
  pc : l.pc = .loop
  depth : l.depth = 2 ^ k
  rk : l.rk * 2 ^ k = r
  num : 1 ≤ l.num ∧ (l.num - 1) * 2 ^ k < n ∧ n ≤ l.num * 2 ^ k
  data : l.data = ranksProd x r (min (r + 2 ^ k) n)

theorem round_start (x : Nat → T) (r : Fin n) :
    (treereduceStart n r (x r)).Round x n r 0 where
  pc := rfl
  depth := rfl
  rk := by simp [treereduceStart]
  num := by
    have hpos := r.pos
    simp only [treereduceStart, pow_zero, Nat.mul_one]
    omega
  data := by
    have hle : (r : Nat) + 1 ≤ n := r.isLt
    rw [pow_zero, Nat.min_eq_left hle, ranksProd]
    simp [treereduceStart, block]

/-- The group size and the logical rank of the next round. -/
theorem Treereduce.Round.half {l : Treereduce T} {r k : Nat} (h : l.Round x n r k)
    (hnum : 1 < l.num) (heven : l.rk % 2 = 0) :
    l.rk / 2 * 2 ^ (k + 1) = r ∧ 1 ≤ l.num / 2 + l.num % 2 ∧ l.num / 2 + l.num % 2 < l.num ∧
      (l.num / 2 + l.num % 2 - 1) * 2 ^ (k + 1) < n ∧
        n ≤ (l.num / 2 + l.num % 2) * 2 ^ (k + 1) := by
  have hrk := h.rk
  have hnum' := h.num
  rw [pow_succ]
  generalize 2 ^ k = D at *
  refine ⟨?_, by omega, by omega, ?_, ?_⟩
  · calc
      l.rk / 2 * (D * 2) = l.rk / 2 * 2 * D := by ring
      _ = l.rk * D := by rw [Nat.div_mul_cancel (Nat.dvd_of_mod_eq_zero heven)]
      _ = r := hrk
  · have hle : (l.num / 2 + l.num % 2 - 1) * 2 ≤ l.num - 1 := by omega
    calc
      (l.num / 2 + l.num % 2 - 1) * (D * 2) = (l.num / 2 + l.num % 2 - 1) * 2 * D := by ring
      _ ≤ (l.num - 1) * D := Nat.mul_le_mul_right D hle
      _ < n := hnum'.2.1
  · have hle : l.num ≤ (l.num / 2 + l.num % 2) * 2 := by omega
    calc
      n ≤ l.num * D := hnum'.2.2
      _ ≤ (l.num / 2 + l.num % 2) * 2 * D := Nat.mul_le_mul_right D hle
      _ = (l.num / 2 + l.num % 2) * (D * 2) := by ring

/-! ### The actions of the loop -/

section Actions

variable (rank) {l : Treereduce T} {r : Fin n}

/-- The locals of the next round, with the data as it is. -/
def Treereduce.next (l : Treereduce T) : Treereduce T :=
  { l with
    isOdd := l.num % 2
    rk := l.rk / 2
    depth := l.depth * 2
    num := l.num / 2 + l.num % 2 }

theorem Treereduce.lt_num {k : Nat} (h : l.Round x n r k) : l.rk < l.num := by
  have hlt := r.isLt
  rw [← h.rk] at hlt
  exact Nat.lt_of_mul_lt_mul_right (Nat.lt_of_lt_of_le hlt h.num.2.2)

theorem treereduce_exit (hpc : l.pc = .loop) (hnum : ¬1 < l.num) :
    treereduce rank r l = .tau { l with pc := .last } := by
  simp only [treereduce, treereduceAct, hpc, if_neg hnum]

theorem treereduce_isend {k : Nat} (h : l.Round x n r k) (hnum : 1 < l.num)
    (hodd : l.rk % 2 ≠ 0) :
    treereduce rank r l = .send ((l.rk - 1) * l.depth) l.data
      { l with isOdd := l.num % 2, rk := l.rk * l.num, pc := .last } := by
  simp only [treereduce, treereduceAct, h.pc, if_pos hnum, if_pos (Treereduce.lt_num h),
    if_pos hodd]

theorem treereduce_recv {k : Nat} (h : l.Round x n r k) (hnum : 1 < l.num)
    (heven : l.rk % 2 = 0) (hlast : l.rk ≠ l.num - 1) :
    treereduce rank r l = .recv ((l.rk + 1) * l.depth) fun recvbuf =>
      { l.next with data := l.data * recvbuf } := by
  simp only [treereduce, treereduceAct, h.pc, if_pos hnum, if_pos (Treereduce.lt_num h),
    if_neg (not_not.mpr heven), if_pos hlast, Treereduce.next]

theorem treereduce_skip {k : Nat} (h : l.Round x n r k) (hnum : 1 < l.num)
    (heven : l.rk % 2 = 0) (hlast : l.rk = l.num - 1) :
    treereduce rank r l = .tau l.next := by
  simp only [treereduce, treereduceAct, h.pc, if_pos hnum, if_pos (Treereduce.lt_num h),
    if_neg (not_not.mpr heven), if_neg (not_not.mpr hlast), Treereduce.next]

end Actions

/-! ### The loop of one rank -/

/-- Rank `r` is past its loop: all its neighbours were received, and its own contribution is
    under way, or its data is the whole product. -/
structure Left (x : Nat → T) (r : Fin n) (st : State n (Treereduce T) T) : Prop where
  fresh : ∀ i : Fin n, (i : Nat) < r → st.loc i = treereduceStart n i (x i)
  done : ∀ i : Fin n, (r : Nat) < i → (st.loc i).pc = .recv
  pc : (st.loc r).pc = .last
  data : (r : Nat) = 0 → (st.loc r).data = ranksProd x 0 n
  sent : ∀ s d, st.sent s d =
    if (r ≤ s ∧ s < n) ∧ d + lowBit s = s then [contribution x n s] else []
  taken : ∀ s d, st.taken s d = if (r < s ∧ s < n) ∧ d + lowBit s = s ∧ r ≤ d then 1 else 0

section Loop

variable {st : State n (Treereduce T) T} {r : Fin n} {k : Nat}

/-- A child of `r` beyond the ones of smaller rounds is the one of this round. -/
theorem child_of_round {s k : Nat} (h : r + lowBit s = s) (hlo : r + 2 ^ k ≤ s)
    (hhi : s < r + 2 ^ (k + 1)) : s = r + 2 ^ k := by
  rw [← h, lowBit] at hlo hhi ⊢
  have hle : k ≤ padicValNat 2 s :=
    (Nat.pow_le_pow_iff_right (by decide : 1 < 2)).mp (by omega)
  have hlt : padicValNat 2 s < k + 1 :=
    (Nat.pow_lt_pow_iff_right (by decide : 1 < 2)).mp (by omega)
  rw [Nat.le_antisymm (Nat.le_of_lt_succ hlt) hle]

omit [Semigroup T] in
/-- A step of rank `r` does not concern the ranks at their entry. -/
theorem fresh_update {l : Treereduce T}
    (h : ∀ i : Fin n, (i : Nat) < r → st.loc i = treereduceStart n i (x i)) (i : Fin n)
    (hi : (i : Nat) < r) : Function.update st.loc r l i = treereduceStart n i (x i) := by
  rw [Function.update_of_ne (Fin.ne_of_val_ne (Nat.ne_of_lt hi))]
  exact h i hi

omit [Semigroup T] in
/-- Nor those past their part of the tree. -/
theorem done_update {l : Treereduce T} (h : ∀ i : Fin n, (r : Nat) < i → (st.loc i).pc = .recv)
    (i : Fin n) (hi : (r : Nat) < i) : (Function.update st.loc r l i).pc = .recv := by
  rw [Function.update_of_ne (Fin.ne_of_val_ne (Nat.ne_of_gt hi))]
  exact h i hi

/-- The last round of rank 0. -/
theorem left_of_exit (hsw : Swept x r (r + 2 ^ k) st) (hround : (st.loc r).Round x n r k)
    (hnum : ¬1 < (st.loc r).num) :
    Left x r { st with loc := Function.update st.loc r { st.loc r with pc := .last } } := by
  have hnum' : (st.loc r).num = 1 := by
    have h := hround.num.1
    omega
  have hn : n ≤ 2 ^ k := by simpa [hnum'] using hround.num.2.2
  have hr : (r : Nat) = 0 := by
    have hlt := Treereduce.lt_num hround
    rw [hnum', Nat.lt_one_iff] at hlt
    simpa [hlt] using hround.rk.symm
  refine ⟨fresh_update hsw.fresh, done_update hsw.done, by simp, ?_, ?_, ?_⟩
  · intro _
    simp only [Function.update_self]
    rw [hround.data, hr, Nat.min_eq_right (by omega)]
  · intro s d
    rw [hsw.sent]
    apply if_congr _ rfl rfl
    have hpos := lowBit_pos s
    omega
  · intro s d
    rw [hsw.taken]
    apply if_congr _ rfl rfl
    omega

/-- A rank with an odd logical rank sends and is done with the tree. -/
theorem left_of_isend (hsw : Swept x r (r + 2 ^ k) st) (hround : (st.loc r).Round x n r k)
    (hodd : (st.loc r).rk % 2 ≠ 0) {l : Treereduce T} (hl : l.pc = .last) {d : Nat}
    (hd : d = ((st.loc r).rk - 1) * (st.loc r).depth) :
    Left x r { st with
      loc := Function.update st.loc r l
      sent := update₂ st.sent r d (st.sent r d ++ [(st.loc r).data]) } := by
  have hpos := Nat.two_pow_pos k
  have hbit : lowBit r = 2 ^ k := by
    have hrk : (st.loc r).rk = 2 * ((st.loc r).rk / 2) + 1 := by omega
    rw [← hround.rk, hrk, lowBit_odd_mul]
  have hdr : d + 2 ^ k = r := by
    rw [hd, hround.depth, ← hround.rk, Nat.sub_one_mul]
    apply Nat.sub_add_cancel
    exact Nat.le_mul_of_pos_left _ (by omega)
  refine ⟨fresh_update hsw.fresh, done_update hsw.done, by simp [hl], ?_, ?_, ?_⟩
  · intro hr
    omega
  · intro s d'
    show update₂ st.sent r d _ s d' = _
    by_cases hch : s = r ∧ d' = d
    · rcases hch with ⟨rfl, rfl⟩
      rw [update₂_self, hsw.sent, if_neg (by omega), if_pos (by omega), hround.data, contribution,
        hbit]
      rfl
    · rw [update₂_of_ne hch, hsw.sent]
      apply if_congr _ rfl rfl
      constructor
      · rintro ⟨hs, hbits⟩
        exact ⟨by omega, hbits⟩
      · rintro ⟨hs, hbits⟩
        refine ⟨⟨?_, hs.2⟩, hbits⟩
        have hne : s ≠ r := by
          rintro rfl
          exact hch ⟨rfl, by omega⟩
        omega
  · intro s d'
    rw [hsw.taken]
    apply if_congr _ rfl rfl
    constructor
    · rintro ⟨hs, hbits, hwhich⟩
      exact ⟨hs, hbits, by omega⟩
    · rintro ⟨hs, hbits, hle⟩
      refine ⟨hs, hbits, ?_⟩
      rcases Nat.eq_or_lt_of_le hle with rfl | hlt
      · right
        have hlow := lowBit_lt_of_child hbits (by omega)
        exact ⟨rfl, by omega⟩
      · exact .inl hlt

/-- The rank goes into its next round when it has no right neighbour. -/
theorem swept_of_skip (hsw : Swept x r (r + 2 ^ k) st) (hround : (st.loc r).Round x n r k)
    (hnum : 1 < (st.loc r).num) (heven : (st.loc r).rk % 2 = 0)
    (hlast : (st.loc r).rk = (st.loc r).num - 1) :
    Swept x r (r + 2 ^ (k + 1)) { st with loc := Function.update st.loc r (st.loc r).next } ∧
      (st.loc r).next.Round x n r (k + 1) := by
  rcases hround.half hnum heven with ⟨hrk, hpos, -, hlow, hhigh⟩
  have hn : n ≤ r + 2 ^ k := by
    calc
      n ≤ (st.loc r).num * 2 ^ k := hround.num.2.2
      _ = ((st.loc r).rk + 1) * 2 ^ k := by rw [hlast, Nat.sub_add_cancel (by omega)]
      _ = r + 2 ^ k := by rw [Nat.add_mul, Nat.one_mul, hround.rk]
  have hpow : 2 ^ (k + 1) = 2 ^ k * 2 := pow_succ 2 k
  constructor
  · refine ⟨fresh_update hsw.fresh, done_update hsw.done, hsw.sent, ?_⟩
    intro s d
    rw [hsw.taken]
    apply if_congr _ rfl rfl
    omega
  · refine ⟨hround.pc, ?_, hrk, ⟨hpos, hlow, hhigh⟩, ?_⟩
    · show (st.loc r).depth * 2 = _
      rw [hround.depth, hpow]
    · show (st.loc r).data = _
      rw [hround.data, Nat.min_eq_right hn, Nat.min_eq_right (by omega)]

/-- The message of the right neighbour is there, and the product of both blocks is that of the
    block of the next round. -/
theorem swept_of_recv (hsw : Swept x r (r + 2 ^ k) st) (hround : (st.loc r).Round x n r k)
    (hnum : 1 < (st.loc r).num) (heven : (st.loc r).rk % 2 = 0)
    (hlast : (st.loc r).rk ≠ (st.loc r).num - 1) {s : Nat}
    (hs : s = ((st.loc r).rk + 1) * (st.loc r).depth) :
    st.pending s r = some (contribution x n s) ∧
    Swept x r (r + 2 ^ (k + 1)) { st with
      loc := Function.update st.loc r
        { (st.loc r).next with data := (st.loc r).data * contribution x n s }
      taken := update₂ st.taken s r (st.taken s r + 1) } ∧
    Treereduce.Round x n r (k + 1)
      { (st.loc r).next with data := (st.loc r).data * contribution x n s } := by
  rcases hround.half hnum heven with ⟨hrk, hpos, -, hlow, hhigh⟩
  have hdpos := Nat.two_pow_pos k
  have hpow : 2 ^ (k + 1) = 2 ^ k * 2 := pow_succ 2 k
  have hsr : s = r + 2 ^ k := by
    rw [hs, hround.depth, Nat.add_mul, Nat.one_mul, hround.rk]
  have hsn : s < n := by
    have hlt := Treereduce.lt_num hround
    calc
      s = ((st.loc r).rk + 1) * 2 ^ k := by rw [hs, hround.depth]
      _ ≤ ((st.loc r).num - 1) * 2 ^ k := Nat.mul_le_mul_right _ (by omega)
      _ < n := hround.num.2.1
  have hbit : lowBit s = 2 ^ k := by
    have hodd : (st.loc r).rk + 1 = 2 * ((st.loc r).rk / 2) + 1 := by omega
    rw [hs, hround.depth, hodd, lowBit_odd_mul]
  have htaken : st.taken s r = 0 := by
    rw [hsw.taken, if_neg (by omega)]
  refine ⟨?_, ?_, ?_⟩
  · rw [State.pending, htaken, hsw.sent, if_pos (by omega)]
    rfl
  · refine ⟨fresh_update hsw.fresh, done_update hsw.done, hsw.sent, ?_⟩
    intro s' d
    show update₂ st.taken s r _ s' d = _
    by_cases hch : s' = s ∧ d = r
    · rcases hch with ⟨rfl, rfl⟩
      rw [update₂_self, htaken, if_pos (by omega)]
    · rw [update₂_of_ne hch, hsw.taken]
      apply if_congr _ rfl rfl
      constructor
      · rintro ⟨hrange, hbits, hwhich⟩
        exact ⟨hrange, hbits, by omega⟩
      · rintro ⟨hrange, hbits, hwhich⟩
        refine ⟨hrange, hbits, ?_⟩
        rcases hwhich with hlt | ⟨rfl, hlt⟩
        · exact .inl hlt
        · right
          refine ⟨rfl, ?_⟩
          by_contra hge
          exact hch ⟨(child_of_round hbits (by omega) hlt).trans hsr.symm, rfl⟩
  · refine ⟨hround.pc, ?_, hrk, ⟨hpos, hlow, hhigh⟩, ?_⟩
    · show (st.loc r).depth * 2 = _
      rw [hround.depth, hpow]
    · show (st.loc r).data * contribution x n s = _
      rw [hround.data, contribution, hbit, Nat.min_eq_left (by omega), ← hsr,
        ranksProd_append x (by omega) (by omega), hsr, hpow]
      congr 2
      omega

variable (rank) in
/-- Rank `r` comes out of its loop. -/
theorem exists_left (hsw : Swept x r (r + 2 ^ k) st) (hround : (st.loc r).Round x n r k) :
    ∃ st', Reachable (step (treereduce rank)) st st' ∧ Left x r st' := by
  induction h : (st.loc r).num using Nat.strongRecOn generalizing st k with
  | ind num ih =>
      subst h
      by_cases hnum : 1 < (st.loc r).num
      · have hless := fun heven => (hround.half hnum heven).2.2.1
        by_cases heven : (st.loc r).rk % 2 = 0
        · by_cases hlast : (st.loc r).rk = (st.loc r).num - 1
          · rcases swept_of_skip hsw hround hnum heven hlast with ⟨hsw', hround'⟩
            have hstep := step_of_tau (treereduce_skip rank hround hnum heven hlast)
            rcases ih _ (hless heven) hsw' (by simpa using hround')
              (by simp [Treereduce.next]) with ⟨st', hreach, hleft⟩
            exact ⟨st', (Reachable.single hstep).trans hreach, hleft⟩
          · rcases swept_of_recv hsw hround hnum heven hlast rfl with ⟨hm, hsw', hround'⟩
            have hstep := step_of_recv (treereduce_recv rank hround hnum heven hlast) hm
            rcases ih _ (hless heven) hsw' (by simpa using hround')
              (by simp [Treereduce.next]) with ⟨st', hreach, hleft⟩
            exact ⟨st', (Reachable.single hstep).trans hreach, hleft⟩
        · have hstep := step_of_send (treereduce_isend rank hround hnum heven)
          exact ⟨_, Reachable.single hstep, left_of_isend hsw hround heven rfl rfl⟩
      · have hstep := step_of_tau (treereduce_exit rank hround.pc hnum)
        exact ⟨_, Reachable.single hstep, left_of_exit hsw hround hnum⟩

end Loop

/-! ### The sweep over all ranks -/

section Sweep

variable {st : State n (Treereduce T) T}

variable (rank) in
/-- A rank other than 0 has nothing to do between its loop and the last `recv`; then it is the
    turn of its left neighbour. -/
theorem exists_swept {r r' : Fin n} (hr : (r' : Nat) + 1 = r) (h : Left x r st) :
    ∃ st', Reachable (step (treereduce rank)) st st' ∧ Swept x r' (r' + 2 ^ 0) st' ∧
      st'.loc r' = treereduceStart n r' (x r') := by
  have hne : (r : Nat) ≠ 0 := by omega
  have hlast : treereduce rank r (st.loc r) =
      .tau { st.loc r with r := none, pc := .isend } := by
    simp only [treereduce, treereduceAct, h.pc, if_neg hne]
  have hisend : treereduce rank r { st.loc r with r := none, pc := .isend } =
      .tau { st.loc r with r := none, pc := .recv } := by
    simp only [treereduce, treereduceAct, if_neg (fun hx : rank ≠ 0 ∧ (r : Nat) = 0 => hne hx.2)]
  refine ⟨_, reachable_of_tau_tau hlast hisend, ?_, ?_⟩
  · constructor
    case fresh =>
      intro i hi
      exact fresh_update h.fresh i (by omega)
    case done =>
      intro i hi
      by_cases hir : i = r
      · subst hir
        simp
      · rw [Fin.ext_iff] at hir
        exact done_update h.done i (by omega)
    case sent =>
      intro s d
      show st.sent s d = _
      rw [h.sent]
      apply if_congr _ rfl rfl
      omega
    case taken =>
      intro s d
      show st.taken s d = _
      rw [h.taken, pow_zero]
      apply if_congr _ rfl rfl
      have hpos := lowBit_pos s
      omega
  · show Function.update st.loc r _ r' = _
    rw [Function.update_of_ne (Fin.ne_of_val_ne (by omega))]
    exact h.fresh r' (by omega)

variable (rank) in
/-- Rank 0 comes out of its loop as well. -/
theorem exists_left_zero (h0 : 0 < n) (r : Fin n) (hsw : Swept x r (r + 2 ^ 0) st)
    (hloc : st.loc r = treereduceStart n r (x r)) :
    ∃ st', Reachable (step (treereduce rank)) st st' ∧ Left x ⟨0, h0⟩ st' := by
  rcases r with ⟨r, hr⟩
  induction r generalizing st with
  | zero => exact exists_left rank hsw (hloc ▸ round_start x _)
  | succ r ih =>
      rcases exists_left rank hsw (hloc ▸ round_start x _) with ⟨st₁, h₁, hleft⟩
      have hnext : ((⟨r, by omega⟩ : Fin n) : Nat) + 1 = (⟨r + 1, hr⟩ : Fin n) := rfl
      rcases exists_swept rank hnext hleft with ⟨st₂, h₂, hsw₂, hloc₂⟩
      rcases ih (by omega) hsw₂ hloc₂ with ⟨st₃, h₃, hleft₃⟩
      exact ⟨st₃, (h₁.trans h₂).trans h₃, hleft₃⟩

theorem swept_init (r : Fin n) (hr : (r : Nat) + 1 = n) :
    Swept x r (r + 2 ^ 0) (treereduceInit n x) where
  fresh := fun _ _ => rfl
  done := by
    intro i hi
    have hlt := i.isLt
    omega
  sent := by
    intro s d
    rw [if_neg (by omega)]
    rfl
  taken := by
    intro s d
    rw [if_neg (by omega)]
    rfl

end Sweep

/-! ### The result -/

section Result

variable {st : State n (Treereduce T) T}

/-- The tree is done, rank 0 has sent the product to the specified rank, and the ranks below
    `j` have returned. -/
structure Returning (x : Nat → T) (rank j : Nat) (st : State n (Treereduce T) T) : Prop where
  done : ∀ i : Fin n, (i : Nat) < j → (st.loc i).pc = .done
  recv : ∀ i : Fin n, j ≤ (i : Nat) → (st.loc i).pc = .recv
  zero : ∀ i : Fin n, (i : Nat) = 0 → (st.loc i).r = some (ranksProd x 0 n)
  target : ∀ i : Fin n, (i : Nat) = rank → (i : Nat) < j →
    (st.loc i).r = some (ranksProd x 0 n)
  sent : ∀ s d, st.sent s d =
    if s < n ∧ d + lowBit s = s then [contribution x n s]
    else if rank ≠ 0 ∧ s = 0 ∧ d = rank then [ranksProd x 0 n] else []
  taken : ∀ s d, st.taken s d =
    if s < n ∧ d + lowBit s = s then 1
    else if (rank ≠ 0 ∧ s = 0 ∧ d = rank) ∧ rank < j then 1 else 0

/-- Rank 0 is past the loop, with the product. -/
theorem returning_zero {st' : State n (Treereduce T) T} {h0 : 0 < n} (h : Left x ⟨0, h0⟩ st)
    {l : Treereduce T} (hpc : l.pc = .recv) (hr : l.r = some (ranksProd x 0 n))
    (hloc : st'.loc = Function.update st.loc ⟨0, h0⟩ l)
    (hsent : ∀ s d, st'.sent s d =
      if rank ≠ 0 ∧ s = 0 ∧ d = rank then [ranksProd x 0 n] else st.sent s d)
    (htaken : st'.taken = st.taken) : Returning x rank 0 st' := by
  constructor
  case done =>
    intro i hi
    exact absurd hi (Nat.not_lt_zero i)
  case recv =>
    intro i _
    rw [hloc]
    by_cases hi : i = ⟨0, h0⟩
    · rw [hi, Function.update_self]
      exact hpc
    · rw [Fin.ext_iff] at hi
      exact done_update h.done i (Nat.pos_of_ne_zero hi)
  case zero =>
    intro i hi
    obtain rfl : i = ⟨0, h0⟩ := Fin.ext hi
    rw [hloc, Function.update_self]
    exact hr
  case target =>
    intro i _ hi
    exact absurd hi (Nat.not_lt_zero i)
  case sent =>
    intro s d
    rw [hsent, h.sent]
    by_cases hch : rank ≠ 0 ∧ s = 0 ∧ d = rank
    · have hbit := lowBit_pos s
      rw [if_pos hch, if_neg (by omega), if_pos hch]
    · rw [if_neg hch, if_neg hch]
      apply if_congr _ rfl rfl
      show (0 ≤ s ∧ s < n) ∧ d + lowBit s = s ↔ _
      omega
  case taken =>
    intro s d
    rw [htaken, h.taken, if_neg (show ¬((rank ≠ 0 ∧ s = 0 ∧ d = rank) ∧ rank < 0) by omega)]
    apply if_congr _ rfl rfl
    have hpos := lowBit_pos s
    show (0 < s ∧ s < n) ∧ d + lowBit s = s ∧ 0 ≤ d ↔ _
    omega

variable (rank) in
/-- Rank 0 has the product, and sends it when another rank is specified. -/
theorem exists_returning (h0 : 0 < n) (h : Left x ⟨0, h0⟩ st) :
    ∃ st', Reachable (step (treereduce rank)) st st' ∧ Returning x rank 0 st' := by
  have hdata : some (st.loc ⟨0, h0⟩).data = some (ranksProd x 0 n) := by rw [h.data rfl]
  have hlast : treereduce rank ⟨0, h0⟩ (st.loc ⟨0, h0⟩) =
      .tau { st.loc ⟨0, h0⟩ with r := some (st.loc ⟨0, h0⟩).data, pc := .isend } := by
    simp only [treereduce, treereduceAct, h.pc, if_true]
  by_cases hrank : rank = 0
  · have hisend : treereduce rank ⟨0, h0⟩
        { st.loc ⟨0, h0⟩ with r := some (st.loc ⟨0, h0⟩).data, pc := .isend } =
        .tau { st.loc ⟨0, h0⟩ with r := some (st.loc ⟨0, h0⟩).data, pc := .recv } := by
      simp [treereduce, treereduceAct, hrank]
    refine ⟨_, reachable_of_tau_tau hlast hisend, returning_zero h rfl hdata rfl ?_ rfl⟩
    intro s d
    rw [if_neg (show ¬(rank ≠ 0 ∧ s = 0 ∧ d = rank) by omega)]
  · have hisend : treereduce rank ⟨0, h0⟩
        { st.loc ⟨0, h0⟩ with r := some (st.loc ⟨0, h0⟩).data, pc := .isend } =
        .send rank (st.loc ⟨0, h0⟩).data
          { st.loc ⟨0, h0⟩ with r := some (st.loc ⟨0, h0⟩).data, pc := .recv } := by
      simp [treereduce, treereduceAct, hrank]
    refine ⟨_, reachable_of_tau_send hlast hisend, returning_zero h rfl hdata rfl ?_ rfl⟩
    intro s d
    show update₂ st.sent 0 rank _ s d = _
    by_cases hch : s = 0 ∧ d = rank
    · have hbit := lowBit_pos 0
      have hnone : st.sent 0 rank = [] := by
        rw [h.sent, if_neg (by omega)]
      rcases hch with ⟨rfl, rfl⟩
      rw [update₂_self, if_pos ⟨hrank, rfl, rfl⟩, hnone, h.data rfl]
      rfl
    · rw [update₂_of_ne hch, if_neg (show ¬(rank ≠ 0 ∧ s = 0 ∧ d = rank) by omega)]

/-- One more rank has returned. -/
theorem Returning.advance {st' : State n (Treereduce T) T} {j : Nat} {hj : j < n}
    (h : Returning x rank j st) {l : Treereduce T} (hpc : l.pc = .done)
    (hr : j = 0 ∨ j = rank → l.r = some (ranksProd x 0 n))
    (hloc : st'.loc = Function.update st.loc ⟨j, hj⟩ l) (hsent : st'.sent = st.sent)
    (htaken : ∀ s d, st'.taken s d =
      if s < n ∧ d + lowBit s = s then 1
      else if (rank ≠ 0 ∧ s = 0 ∧ d = rank) ∧ rank < j + 1 then 1 else 0) :
    Returning x rank (j + 1) st' := by
  have hother : ∀ i : Fin n, i ≠ ⟨j, hj⟩ → st'.loc i = st.loc i ∧ (i : Nat) ≠ j := by
    intro i hi
    rw [hloc, Function.update_of_ne hi]
    exact ⟨rfl, fun hij => hi (Fin.ext hij)⟩
  have hself : st'.loc ⟨j, hj⟩ = l := by
    rw [hloc, Function.update_self]
  constructor
  case done =>
    intro i hi
    by_cases hij : i = ⟨j, hj⟩
    · rw [hij, hself]
      exact hpc
    · rcases hother i hij with ⟨heq, hne⟩
      rw [heq]
      exact h.done i (by omega)
  case recv =>
    intro i hi
    rw [(hother i (Fin.ne_of_val_ne (by simp only; omega))).1]
    exact h.recv i (by omega)
  case zero =>
    intro i hi
    by_cases hij : i = ⟨j, hj⟩
    · subst hij
      rw [hself]
      exact hr (.inl hi)
    · rw [(hother i hij).1]
      exact h.zero i hi
  case target =>
    intro i hi hij'
    by_cases hij : i = ⟨j, hj⟩
    · subst hij
      rw [hself]
      exact hr (.inr hi)
    · rcases hother i hij with ⟨heq, hne⟩
      rw [heq]
      exact h.target i hi (by omega)
  case sent =>
    rw [hsent]
    exact h.sent
  case taken => exact htaken

/-- The ranks return one after the other. -/
theorem Returning.next {j : Nat} (hj : j < n) (h : Returning x rank j st) :
    ∃ st', Reachable (step (treereduce rank)) st st' ∧ Returning x rank (j + 1) st' := by
  have hpc := h.recv ⟨j, hj⟩ (Nat.le_refl j)
  by_cases htarget : rank ≠ 0 ∧ j = rank
  · rcases htarget with ⟨hrank, rfl⟩
    have hact : treereduce j ⟨j, hj⟩ (st.loc ⟨j, hj⟩) =
        .recv 0 fun r => { st.loc ⟨j, hj⟩ with r := some r, pc := .done } := by
      simp [treereduce, treereduceAct, hpc, hrank]
    have hbit : ¬j + lowBit 0 = 0 := by
      have hpos := lowBit_pos 0
      omega
    have htaken : st.taken 0 j = 0 := by
      rw [h.taken, if_neg (fun hx => hbit hx.2), if_neg (by omega)]
    have hpending : st.pending 0 j = some (ranksProd x 0 n) := by
      rw [State.pending, htaken, h.sent, if_neg (fun hx => hbit hx.2), if_pos ⟨hrank, rfl, rfl⟩]
      rfl
    refine ⟨_, Reachable.single (step_of_recv hact hpending),
      h.advance rfl (fun _ => rfl) rfl rfl ?_⟩
    intro s d
    show update₂ st.taken 0 j _ s d = _
    by_cases hch : s = 0 ∧ d = j
    · rcases hch with ⟨rfl, rfl⟩
      rw [update₂_self, htaken, if_neg (fun hx => hbit hx.2), if_pos (by omega)]
    · rw [update₂_of_ne hch, h.taken, if_neg (show ¬((j ≠ 0 ∧ s = 0 ∧ d = j) ∧ j < j) by omega),
        if_neg (show ¬((j ≠ 0 ∧ s = 0 ∧ d = j) ∧ j < j + 1) by omega)]
  · have hact : treereduce rank ⟨j, hj⟩ (st.loc ⟨j, hj⟩) =
        .tau { st.loc ⟨j, hj⟩ with pc := .done } := by
      simp only [treereduce, treereduceAct, hpc, if_neg htarget]
    refine ⟨_, Reachable.single (step_of_tau hact), h.advance rfl ?_ rfl rfl ?_⟩
    · intro hj0
      exact h.zero ⟨j, hj⟩ (by simp only; omega)
    · intro s d
      show st.taken s d = _
      rw [h.taken]
      apply if_congr Iff.rfl rfl
      apply if_congr _ rfl rfl
      omega

end Result

/-- On any number of ranks and for every specified rank, whatever the order of the steps:
    no rank is blocked for ever, as every run goes on to one and the same end, where all
    ranks have returned; every message is received; and rank 0 and the specified rank
    return the product of all data in the order of the ranks. -/
theorem treereduce_reduces (x : Nat → T) (hn : 1 ≤ n) (hrank : rank < n) :
    ∃ as final, run (step (treereduce rank)) (treereduceInit n x) as = some final ∧
      (∀ r, (final.loc r).pc = .done) ∧
      (∀ s d, final.taken s d = (final.sent s d).length) ∧
      (∀ r : Fin n, (r : Nat) = rank ∨ (r : Nat) = 0 →
        (final.loc r).r = some (ranksProd x 0 n)) ∧
      ∀ bs st, run (step (treereduce rank)) (treereduceInit n x) bs = some st →
        ∃ cs, bs.length + cs.length = as.length ∧
          run (step (treereduce rank)) st cs = some final := by
  have hlast : n - 1 < n := by omega
  rcases exists_left_zero rank hn ⟨n - 1, hlast⟩
    (swept_init (x := x) ⟨n - 1, hlast⟩ (Nat.sub_add_cancel hn)) rfl with ⟨st₁, h₁, hleft⟩
  rcases exists_returning rank hn hleft with ⟨st₂, h₂, hret⟩
  have hall : ∀ j, j ≤ n → ∃ st, Reachable (step (treereduce rank)) st₂ st ∧
      Returning x rank j st := by
    intro j
    induction j with
    | zero => exact fun _ => ⟨st₂, Reachable.refl st₂, hret⟩
    | succ j ih =>
        intro hj
        rcases ih (by omega) with ⟨st, hreach, hst⟩
        rcases hst.next (by omega) with ⟨st', hreach', hst'⟩
        exact ⟨st', hreach.trans hreach', hst'⟩
  rcases hall n (Nat.le_refl n) with ⟨final, h₃, hfinal⟩
  rcases (h₁.trans h₂).trans h₃ with ⟨as, has⟩
  have hdone : ∀ r, (final.loc r).pc = .done := fun r => hfinal.done r r.isLt
  refine ⟨as, final, has, hdone, ?_, ?_, ?_⟩
  · intro s d
    rw [hfinal.taken, hfinal.sent]
    split
    · rfl
    · by_cases hch : rank ≠ 0 ∧ s = 0 ∧ d = rank
      · rw [if_pos ⟨hch, hrank⟩, if_pos hch]
        rfl
      · rw [if_neg (fun hx => hch hx.1), if_neg hch]
        rfl
  · rintro r (hr | hr)
    · exact hfinal.target r hr r.isLt
    · exact hfinal.zero r hr
  · intro bs st hbs
    have hstuck : Stuck (step (treereduce rank)) final := by
      apply stuck_of_halt
      intro r
      simp only [treereduce, treereduceAct, hdone r]
    exact (diamond (treereduce rank)).complete has hstuck hbs

theorem treereduce_reduces_three :
    ∃ as final, run (step (treereduce 2)) (treereduceInit 3 fun i => i + 2) as = some final ∧
      (∀ r, (final.loc r).pc = .done) ∧
      ∀ r : Fin 3, (r : Nat) = 2 ∨ (r : Nat) = 0 → (final.loc r).r = some (2 * 3 * 4) := by
  rcases treereduce_reduces (fun i => i + 2) (by decide : 1 ≤ 3) (by decide : 2 < 3) with
    ⟨as, final, hrun, hdone, -, hr, -⟩
  exact ⟨as, final, hrun, hdone, hr⟩

end Paracel.Comm
