import Mathlib.Data.Finset.Max
import Mathlib.Data.Fintype.EquivFin
import Mathlib.Data.List.FinRange
import Paracel.Misc.Network
import Paracel.Misc.Tally

/-!
# All-to-all exchange

`Comm::alltoall` of `include/utils/comm.hpp`; the container, the triple and the
compact-triple overload are one function. On `n` ranks each makes `n - 1` steps
around the ring, with a `sendrecv` to one neighbour and from the opposite one:
the `isend` does not wait, the `recv` waits for the list of its partner.
-/

namespace Paracel.Comm

open Network StepSystem

variable {α : Type}

/-- `rbuf.resize(sz)`. -/
def resize (rbuf : List (List α)) (sz : Nat) : List (List α) :=
  rbuf.take sz ++ List.replicate (sz - rbuf.length) []

/-- Where a rank stands: before a turn of the loop or past it, or in the `recv`. -/
inductive AlltoallPc where
  | loop
  | wait
deriving DecidableEq

/-- The arguments and locals of `alltoall`. -/
structure Alltoall (α : Type) where
  sbuf : List (List α)
  rbuf : List (List α)
  i : Nat := 1
  pc : AlltoallPc := .loop

/-- `alltoall` before its loop. -/
def alltoallStart (mRk : Nat) (sbuf rbuf : List (List α)) : Alltoall α where
  sbuf := sbuf
  rbuf := (if sbuf.length ≠ 0 then resize rbuf sbuf.length else rbuf).set mRk (sbuf.getD mRk [])

/-- The loop of `alltoall`. -/
def alltoallAct (mSz mRk : Nat) (l : Alltoall α) : Action (Alltoall α) (List α) :=
  let f := (mRk + l.i) % mSz
  let t := (mRk + mSz - l.i) % mSz
  match l.pc with
  | .loop =>
      if l.i < mSz then .send t (l.sbuf.getD t []) { l with pc := .wait } else .halt
  | .wait =>
      .recv f fun tmpr =>
        { l with rbuf := l.rbuf.modify t (· ++ tmpr), i := l.i + 1, pc := .loop }

/-- The loop on every rank. -/
def alltoall (n : Nat) (r : Fin n) : Alltoall α → Action (Alltoall α) (List α) :=
  alltoallAct n r

/-- All ranks at the loop, with empty receive buffers. -/
def alltoallInit {n : Nat} (sbufs : Fin n → List (List α)) : State n (Alltoall α) (List α) where
  loc r := alltoallStart r (sbufs r) []

/-- `alltoall` has returned on all ranks. -/
def AllReturned {n : Nat} (st : State n (Alltoall α) (List α)) : Prop :=
  ∀ r, alltoall n r (st.loc r) = .halt

/-! ### Places on the ring -/

/-- The step in which `p` sends to `q`, which is the one in which `q` receives from `p`. -/
def ringStep (n p q : Nat) : Nat := (p + n - q) % n

/-- The rank that lies on the other side of `q` as far away as `p`. -/
def mirror {n : Nat} (q p : Fin n) : Fin n :=
  ⟨(q + ringStep n q p) % n, Nat.mod_lt _ q.pos⟩

private theorem mod_of_lt_two {x n : Nat} (h : x < 2 * n) :
    x % n = if x < n then x else x - n := by
  split
  · exact Nat.mod_eq_of_lt ‹_›
  · rw [Nat.mod_eq_sub_mod (by omega), Nat.mod_eq_of_lt (by omega)]

theorem ringStep_lt {n : Nat} (p q : Fin n) : ringStep n p q < n :=
  Nat.mod_lt _ p.pos

theorem ringStep_self {n : Nat} (p : Fin n) : ringStep n p p = 0 := by
  rw [ringStep, Nat.add_sub_cancel_left, Nat.mod_self]

theorem ringStep_eq_zero {n : Nat} {p q : Fin n} : ringStep n p q = 0 ↔ p = q := by
  have hp := p.isLt
  have hq := q.isLt
  rw [ringStep, mod_of_lt_two (by omega), Fin.ext_iff]
  split <;> omega

/-- The target of step `i`. -/
theorem target_eq {n i : Nat} (p q : Fin n) (hi : i < n) :
    (p + n - i) % n = q ↔ i = ringStep n p q := by
  have hp := p.isLt
  have hq := q.isLt
  rw [ringStep, mod_of_lt_two (by omega), mod_of_lt_two (x := p + n - q) (by omega)]
  split <;> split <;> omega

/-- The source of step `i`. -/
theorem source_eq {n i : Nat} (p q : Fin n) (hi : i < n) :
    (q + i) % n = p ↔ i = ringStep n p q := by
  have hp := p.isLt
  have hq := q.isLt
  rw [ringStep, mod_of_lt_two (by omega), mod_of_lt_two (x := p + n - q) (by omega)]
  split <;> split <;> omega

theorem mirror_self {n : Nat} (q : Fin n) : mirror q q = q := by
  apply Fin.ext
  show (q + ringStep n q q) % n = q
  rw [ringStep_self]
  exact Nat.mod_eq_of_lt q.isLt

/-- What is put into slot `p` was received from the mirror of `p`. -/
theorem ringStep_mirror {n : Nat} (q p : Fin n) :
    ringStep n (mirror q p) q = ringStep n q p :=
  ((source_eq (mirror q p) q (ringStep_lt q p)).mp rfl).symm

/-- On up to two ranks every rank is its own mirror. -/
theorem mirror_of_le_two {n : Nat} (hn : n ≤ 2) (q p : Fin n) : mirror q p = p := by
  have hp := p.isLt
  have hq := q.isLt
  apply Fin.ext
  show (q + ringStep n q p) % n = p
  rw [source_eq p q (ringStep_lt q p), ringStep, ringStep, mod_of_lt_two (by omega),
    mod_of_lt_two (x := p + n - q) (by omega)]
  split <;> split <;> omega

/-! ### The invariant -/

/-- The number of steps in which a rank has sent. -/
def Alltoall.sends (l : Alltoall α) : Nat :=
  match l.pc with
  | .loop => l.i
  | .wait => l.i + 1

theorem Alltoall.sends_loop {l : Alltoall α} (h : l.pc = .loop) : l.sends = l.i := by
  rw [Alltoall.sends, h]

theorem Alltoall.sends_wait {l : Alltoall α} (h : l.pc = .wait) : l.sends = l.i + 1 := by
  rw [Alltoall.sends, h]

section Invariant

variable {n : Nat} {sbufs : Fin n → List (List α)} {st st' : State n (Alltoall α) (List α)}

/-- The list that `p` has for `q`. -/
def outgoing (sbufs : Fin n → List (List α)) (p q : Fin n) : List α :=
  (sbufs p).getD q []

/-- A rank keeps its arguments and goes no further than step `n - 1`. -/
structure Alltoall.Ok (n : Nat) (sbuf : List (List α)) (l : Alltoall α) : Prop where
  sbuf : l.sbuf = sbuf
  pos : 1 ≤ l.i
  bound : l.sends ≤ n
  length : l.rbuf.length = n

/-- After step `i` of a rank its first `i` sends, receives and slots are done. -/
structure AlltoallInv (sbufs : Fin n → List (List α)) (st : State n (Alltoall α) (List α)) :
    Prop where
  ok : ∀ r, (st.loc r).Ok n (sbufs r)
  rbuf : ∀ q p : Fin n, (st.loc q).rbuf[(p : Nat)]? =
    some (if ringStep n q p < (st.loc q).i then outgoing sbufs (mirror q p) q else [])
  sent : ∀ p q : Fin n, st.sent p q =
    if 0 < ringStep n p q ∧ ringStep n p q < (st.loc p).sends then [outgoing sbufs p q] else []
  taken : ∀ p q : Fin n, st.taken p q =
    if 0 < ringStep n p q ∧ ringStep n p q < (st.loc q).i then 1 else 0

theorem alltoallInv_init (hlen : ∀ r, (sbufs r).length = n) :
    AlltoallInv sbufs (alltoallInit sbufs) where
  ok := by
    intro r
    have hn : n ≠ 0 := Nat.ne_of_gt r.pos
    refine ⟨rfl, Nat.le_refl 1, r.pos, ?_⟩
    show List.length (List.set (if (sbufs r).length ≠ 0 then resize [] (sbufs r).length else [])
      _ _) = n
    simp [hlen, hn, resize]
  rbuf := by
    intro q p
    have hn : n ≠ 0 := Nat.ne_of_gt q.pos
    show ((if (sbufs q).length ≠ 0 then resize [] (sbufs q).length else []).set q
      ((sbufs q).getD q []))[(p : Nat)]? = _
    rw [hlen, if_pos hn, resize, List.take_nil, List.nil_append, List.length_nil, Nat.sub_zero]
    by_cases hqp : q = p
    · subst hqp
      rw [List.getElem?_set_self (by simp), ringStep_self, mirror_self]
      rfl
    · have hstep : ¬ringStep n q p < 1 := by
        intro h
        exact hqp (ringStep_eq_zero.mp (by omega))
      rw [List.getElem?_set_ne (fun h => hqp (Fin.ext h)),
        List.getElem?_replicate_of_lt p.isLt]
      exact congrArg some (if_neg hstep).symm
  sent := by
    intro p q
    rw [if_neg]
    · rfl
    · rintro ⟨hpos, hlt⟩
      exact absurd hlt (Nat.not_lt.mpr hpos)
  taken := by
    intro p q
    rw [if_neg]
    · rfl
    · rintro ⟨hpos, hlt⟩
      exact absurd hlt (Nat.not_lt.mpr hpos)

/-- The turn of the loop that a rank is in, as an action. -/
theorem alltoall_cases (r : Fin n) (l : Alltoall α) :
    (alltoall n r l = .halt ∧ l.pc = .loop ∧ ¬l.i < n) ∨
    (l.pc = .loop ∧ l.i < n ∧ ∃ q : Fin n, ringStep n r q = l.i ∧
      alltoall n r l = .send q (l.sbuf.getD q []) { l with pc := .wait }) ∨
    (l.pc = .wait ∧ (l.i < n → ∃ f t : Fin n, ringStep n f r = l.i ∧ ringStep n r t = l.i ∧
      alltoall n r l = .recv f fun tmpr =>
        { l with rbuf := l.rbuf.modify t (· ++ tmpr), i := l.i + 1, pc := .loop })) := by
  cases hpc : l.pc with
  | loop =>
      by_cases hi : l.i < n
      · right
        left
        have hq := (target_eq r ⟨(r + n - l.i) % n, Nat.mod_lt _ r.pos⟩ hi).mp rfl
        refine ⟨rfl, hi, _, hq.symm, ?_⟩
        simp only [alltoall, alltoallAct, hpc, if_pos hi]
      · left
        refine ⟨?_, rfl, hi⟩
        simp only [alltoall, alltoallAct, hpc, if_neg hi]
  | wait =>
      right
      right
      refine ⟨rfl, ?_⟩
      intro hi
      have hf := (source_eq ⟨(r + l.i) % n, Nat.mod_lt _ r.pos⟩ r hi).mp rfl
      have ht := (target_eq r ⟨(r + n - l.i) % n, Nat.mod_lt _ r.pos⟩ hi).mp rfl
      refine ⟨_, _, hf.symm, ht.symm, ?_⟩
      simp only [alltoall, alltoallAct, hpc]

theorem ringStep_left_inj {p q q' : Fin n} (h : ringStep n p q = ringStep n p q') : q = q' := by
  have hq := (target_eq p q (ringStep_lt p q)).mpr rfl
  have hq' := (target_eq p q' (ringStep_lt p q)).mpr h
  exact Fin.ext (hq.symm.trans hq')

theorem ringStep_right_inj {p p' q : Fin n} (h : ringStep n p q = ringStep n p' q) : p = p' := by
  have hp := (source_eq p q (ringStep_lt p q)).mpr rfl
  have hp' := (source_eq p' q (ringStep_lt p q)).mpr h
  exact Fin.ext (hp.symm.trans hp')

/-- A send of step `i`: only the channel to its target changes. -/
theorem alltoallInv_send (h : AlltoallInv sbufs st) {r q : Fin n} (hpc : (st.loc r).pc = .loop)
    (hi : (st.loc r).i < n) (hq : ringStep n r q = (st.loc r).i) :
    AlltoallInv sbufs { st with
      loc := Function.update st.loc r { st.loc r with pc := .wait }
      sent := update₂ st.sent r q (st.sent r q ++ [(st.loc r).sbuf.getD q []]) } where
  ok := by
    intro p
    show (Function.update st.loc r _ p).Ok n (sbufs p)
    by_cases hp : p = r
    · subst hp
      rw [Function.update_self]
      exact ⟨(h.ok p).sbuf, (h.ok p).pos, hi, (h.ok p).length⟩
    · rw [Function.update_of_ne hp]
      exact h.ok p
  rbuf := by
    intro q' p
    by_cases hp : q' = r
    · subst hp
      simpa using h.rbuf q' p
    · simpa [hp] using h.rbuf q' p
  sent := by
    intro p q'
    have hsent := h.sent p q'
    show update₂ st.sent r q _ p q' = _
    by_cases hp : p = r
    · subst hp
      rw [Alltoall.sends_loop hpc] at hsent
      simp only [Function.update_self, Alltoall.sends]
      by_cases hq' : q' = q
      · subst hq'
        rw [if_neg (by omega)] at hsent
        rw [update₂_self, hsent, if_pos ⟨hq ▸ (h.ok p).pos, by omega⟩, (h.ok p).sbuf]
        rfl
      · have hne : ringStep n p q' ≠ (st.loc p).i := fun he =>
          hq' (ringStep_left_inj (he.trans hq.symm))
        rw [update₂_of_ne (fun he => hq' (Fin.ext he.2)), hsent]
        apply if_congr _ rfl rfl
        omega
    · rw [update₂_of_ne (fun he => hp (Fin.ext he.1)), hsent]
      simp only [Function.update_of_ne hp]
  taken := by
    intro p q'
    by_cases hp : q' = r
    · subst hp
      simpa using h.taken p q'
    · simpa [hp] using h.taken p q'

/-- A receive of step `i`: one slot gets what the mirror of its rank has sent. -/
theorem alltoallInv_recv (h : AlltoallInv sbufs st) {r f t : Fin n} {m : List α}
    (hpc : (st.loc r).pc = .wait) (hf : ringStep n f r = (st.loc r).i)
    (ht : ringStep n r t = (st.loc r).i) (hm : st.pending f r = some m) :
    AlltoallInv sbufs { st with
      loc := Function.update st.loc r { st.loc r with
        rbuf := (st.loc r).rbuf.modify t (· ++ m), i := (st.loc r).i + 1, pc := .loop }
      taken := update₂ st.taken f r (st.taken f r + 1) } := by
  have hpos := (h.ok r).pos
  have htaken : st.taken f r = 0 := by
    rw [h.taken, if_neg (by omega)]
  have hmirror : mirror r t = f :=
    ringStep_right_inj ((ringStep_mirror r t).trans (ht.trans hf.symm))
  have hmsg : m = outgoing sbufs f r := by
    rw [State.pending, htaken, h.sent] at hm
    split at hm
    · exact (Option.some.inj hm).symm
    · cases hm
  subst hmsg
  constructor
  case ok =>
    intro p
    show (Function.update st.loc r _ p).Ok n (sbufs p)
    by_cases hp : p = r
    · subst hp
      rw [Function.update_self]
      refine ⟨(h.ok p).sbuf, Nat.le_add_left 1 _, ?_, ?_⟩
      · exact Alltoall.sends_wait hpc ▸ (h.ok p).bound
      · exact (List.length_modify _ _ _).trans (h.ok p).length
    · rw [Function.update_of_ne hp]
      exact h.ok p
  case rbuf =>
    intro q p
    have hrbuf := h.rbuf q p
    by_cases hq : q = r
    · subst hq
      simp only [Function.update_self, List.getElem?_modify, hrbuf, Option.map_eq_map,
        Option.map_some]
      by_cases hp : t = p
      · subst hp
        rw [if_pos rfl, if_neg (by omega), if_pos (by omega), hmirror]
        rfl
      · have hne : ringStep n q p ≠ (st.loc q).i := fun he =>
          hp (ringStep_left_inj (ht.trans he.symm))
        rw [if_neg (fun he => hp (Fin.ext he))]
        apply congrArg some
        apply if_congr _ rfl rfl
        omega
    · simpa [hq] using hrbuf
  case sent =>
    intro p q
    by_cases hp : p = r
    · subst hp
      have hsent := h.sent p q
      rw [Alltoall.sends_wait hpc] at hsent
      simpa [Alltoall.sends] using hsent
    · simpa [hp] using h.sent p q
  case taken =>
    intro p q
    have htaken' := h.taken p q
    show update₂ st.taken f r _ p q = _
    by_cases hq : q = r
    · subst hq
      simp only [Function.update_self]
      by_cases hp : p = f
      · subst hp
        rw [update₂_self, htaken, if_pos (by omega)]
      · have hne : ringStep n p q ≠ (st.loc q).i := fun he =>
          hp (ringStep_right_inj (he.trans hf.symm))
        rw [update₂_of_ne (fun he => hp (Fin.ext he.1)), htaken']
        apply if_congr _ rfl rfl
        omega
    · rw [update₂_of_ne (fun he => hq (Fin.ext he.2)), htaken']
      simp only [Function.update_of_ne hq]

theorem alltoallInv_step (h : AlltoallInv sbufs st) {r : Fin n}
    (hstep : step (alltoall n) st r = some st') : AlltoallInv sbufs st' := by
  have hchange := step_cases hstep
  rcases alltoall_cases r (st.loc r) with ⟨hact, -⟩ | ⟨hpc, hi, q, hq, hact⟩ | ⟨hpc, hrecv⟩
  · cases hchange <;> simp_all
  · cases hchange with
    | send dest m next hact' =>
        rw [hact] at hact'
        cases hact'
        exact alltoallInv_send h hpc hi hq
    | tau next hact' | recv src next m hact' => simp_all
  · have hi : (st.loc r).i < n := by
      have hbound := (h.ok r).bound
      rw [Alltoall.sends_wait hpc] at hbound
      omega
    rcases hrecv hi with ⟨f, t, hf, ht, hact⟩
    cases hchange with
    | recv src next m hact' hm =>
        rw [hact] at hact'
        cases hact'
        exact alltoallInv_recv h hpc hf ht hm
    | tau next hact' | send dest m next hact' => simp_all

theorem alltoallInv_reachable (hlen : ∀ r, (sbufs r).length = n)
    (h : Reachable (step (alltoall n)) (alltoallInit sbufs) st) : AlltoallInv sbufs st :=
  h.invariant (alltoallInv_init hlen) fun _ _ _ hinv hstep => alltoallInv_step hinv hstep

/-! ### Completion -/

theorem allReturned_i (h : AlltoallInv sbufs st) (hall : AllReturned st) (r : Fin n) :
    (st.loc r).i = n := by
  have hok := h.ok r
  rcases alltoall_cases r (st.loc r) with ⟨-, hpc, hi⟩ | ⟨-, -, q, -, hact⟩ | ⟨hpc, hrecv⟩
  · have hbound := hok.bound
    rw [Alltoall.sends_loop hpc] at hbound
    omega
  · rw [hall r] at hact
    cases hact
  · have hbound := hok.bound
    rw [Alltoall.sends_wait hpc] at hbound
    rcases hrecv (by omega) with ⟨f, t, -, -, hact⟩
    rw [hall r] at hact
    cases hact

/-- The rank that is furthest behind, or the one it waits for, can go on. -/
theorem alltoall_progress (h : AlltoallInv sbufs st) (hnot : ¬AllReturned st) :
    ¬Stuck (step (alltoall n)) st := by
  intro hstuck
  rw [AllReturned, not_forall] at hnot
  rcases hnot with ⟨r₀, hr₀⟩
  rcases Finset.exists_min_image Finset.univ (fun r => (st.loc r).i) ⟨r₀, Finset.mem_univ r₀⟩ with
    ⟨r, -, hmin⟩
  have hi : (st.loc r).i < n := by
    have hle := hmin r₀ (Finset.mem_univ r₀)
    have hbound := (h.ok r₀).bound
    rcases alltoall_cases r₀ (st.loc r₀) with ⟨hact, -⟩ | ⟨-, hi, -⟩ | ⟨hpc, -⟩
    · exact absurd hact hr₀
    · omega
    · rw [Alltoall.sends_wait hpc] at hbound
      omega
  have hsender : ∀ p : Fin n, (st.loc p).pc = .loop → ¬(st.loc p).i < n := by
    intro p hpc hlt
    rcases alltoall_cases p (st.loc p) with ⟨-, -, hge⟩ | ⟨-, -, q, -, hact⟩ | ⟨hpc', -⟩
    · exact hge hlt
    · have hnone := hstuck p
      rw [step_of_send hact] at hnone
      cases hnone
    · rw [hpc] at hpc'
      cases hpc'
  rcases alltoall_cases r (st.loc r) with ⟨-, -, hge⟩ | ⟨hpc, -⟩ | ⟨hpc, hrecv⟩
  · exact hge hi
  · exact hsender r hpc hi
  · rcases hrecv hi with ⟨f, t, hf, -, hact⟩
    have hfmin := hmin f (Finset.mem_univ f)
    have hpos := (h.ok r).pos
    have hsent : (st.loc r).i < (st.loc f).sends := by
      cases hfpc : (st.loc f).pc with
      | loop =>
          have hfi := hsender f hfpc
          rw [Alltoall.sends_loop hfpc]
          omega
      | wait =>
          rw [Alltoall.sends_wait hfpc]
          exact Nat.lt_succ_of_le hfmin
    have hpending : st.pending f r = some (outgoing sbufs f r) := by
      rw [State.pending, h.taken, if_neg (by omega), h.sent, if_pos (by omega)]
      rfl
    have hnone := hstuck r
    rw [step_of_recv hact hpending] at hnone
    cases hnone

/-- The sends and receives that a rank has still to do. -/
def Alltoall.left (n : Nat) (l : Alltoall α) : Nat :=
  2 * n - (l.i + l.sends)

theorem alltoall_left_lt (h : AlltoallInv sbufs st) {r : Fin n}
    (hstep : step (alltoall n) st r = some st') :
    ∑ p, (st'.loc p).left n < ∑ p, (st.loc p).left n := by
  have hlocal : ∃ l, st'.loc = Function.update st.loc r l ∧ l.left n < (st.loc r).left n := by
    have hbound := (h.ok r).bound
    have hchange := step_cases hstep
    rcases alltoall_cases r (st.loc r) with ⟨hact, -⟩ | ⟨hpc, hi, q, -, hact⟩ | ⟨hpc, hrecv⟩
    · cases hchange <;> simp_all
    · cases hchange with
      | send dest m next hact' =>
          rw [hact] at hact'
          cases hact'
          refine ⟨_, rfl, ?_⟩
          rw [Alltoall.sends_loop hpc] at hbound
          rw [Alltoall.left, Alltoall.left, Alltoall.sends_loop hpc, Alltoall.sends_wait rfl]
          show 2 * n - ((st.loc r).i + ((st.loc r).i + 1)) < 2 * n - ((st.loc r).i + (st.loc r).i)
          omega
      | tau next hact' | recv src next m hact' => simp_all
    · rw [Alltoall.sends_wait hpc] at hbound
      rcases hrecv (by omega) with ⟨f, t, -, -, hact⟩
      cases hchange with
      | recv src next m hact' hm =>
          rw [hact] at hact'
          cases hact'
          refine ⟨_, rfl, ?_⟩
          rw [Alltoall.left, Alltoall.left, Alltoall.sends_wait hpc, Alltoall.sends_loop rfl]
          show 2 * n - ((st.loc r).i + 1 + ((st.loc r).i + 1)) <
            2 * n - ((st.loc r).i + ((st.loc r).i + 1))
          omega
      | tau next hact' | send dest m next hact' => simp_all
  rcases hlocal with ⟨l, hl, hlt⟩
  have hsum := Tally.sum_update (Alltoall.left n) st.loc r l
  rw [← hl] at hsum
  omega

/-- From every state that is reached, `alltoall` comes to return on all ranks. -/
theorem alltoall_returns (h : AlltoallInv sbufs st) :
    ∃ as t, run (step (alltoall n)) st as = some t ∧ AllReturned t := by
  rcases exists_stuck (P := AlltoallInv sbufs) (fun st => ∑ p, (st.loc p).left n)
    (fun s a s' hs hstep => ⟨alltoallInv_step hs hstep, alltoall_left_lt hs hstep⟩) h with
    ⟨as, t, hrun, ht, hstuck⟩
  refine ⟨as, t, hrun, ?_⟩
  by_contra hnot
  exact alltoall_progress ht hnot hstuck

/-- What the slots hold when all ranks have returned. -/
theorem rbuf_of_allReturned (h : AlltoallInv sbufs st) (hall : AllReturned st) (q p : Fin n) :
    (st.loc q).rbuf[(p : Nat)]? = some (outgoing sbufs (mirror q p) q) := by
  rw [h.rbuf, allReturned_i h hall, if_pos (ringStep_lt q p)]

/-- The whole receive buffer. -/
theorem rbuf_eq_map (h : AlltoallInv sbufs st) (hall : AllReturned st) (q : Fin n) :
    (st.loc q).rbuf = (List.finRange n).map fun p => outgoing sbufs (mirror q p) q := by
  apply List.ext_getElem?
  intro k
  by_cases hk : k < n
  · rw [show k = (⟨k, hk⟩ : Fin n) from rfl, rbuf_of_allReturned h hall]
    simp [hk]
  · rw [List.getElem?_eq_none (by rw [(h.ok q).length]; omega),
      List.getElem?_eq_none (by simpa using hk)]

/-- Different ranks have different mirrors. -/
theorem mirror_injective (q : Fin n) : Function.Injective (mirror q) := by
  intro p p' h
  apply ringStep_left_inj (p := q)
  rw [← ringStep_mirror q p, h, ringStep_mirror]

/-- So a rank has, in some order, the list of every rank. -/
theorem rbuf_perm (h : AlltoallInv sbufs st) (hall : AllReturned st) (q : Fin n) :
    (st.loc q).rbuf.Perm ((List.finRange n).map fun p => outgoing sbufs p q) := by
  have hmirror := Equiv.Perm.map_finRange_perm (Equiv.ofBijective (mirror q)
    (Finite.injective_iff_bijective.mp (mirror_injective q)))
  rw [rbuf_eq_map h hall]
  have hmap := hmirror.map fun p => outgoing sbufs p q
  rwa [List.map_map] at hmap

/-- Whenever `alltoall` has returned on all ranks, slot `p` of rank `q` has what `p` sent to
    `q`. -/
def IsAlltoall (sbufs : Fin n → List (List α)) : Prop :=
  ∀ st, Reachable (step (alltoall n)) (alltoallInit sbufs) st → AllReturned st →
    ∀ p q : Fin n, (st.loc q).rbuf[(p : Nat)]? = (sbufs p)[(q : Nat)]?

/-- The slots must not tell a rank from its mirror. -/
theorem isAlltoall_iff_mirror (hlen : ∀ r, (sbufs r).length = n) :
    IsAlltoall sbufs ↔
      ∀ q p : Fin n, (sbufs (mirror q p))[(q : Nat)]? = (sbufs p)[(q : Nat)]? := by
  have hout : ∀ p q : Fin n, (sbufs p)[(q : Nat)]? = some (outgoing sbufs p q) := by
    intro p q
    have hq : (q : Nat) < (sbufs p).length := (hlen p).symm ▸ q.isLt
    rw [outgoing, List.getD_eq_getElem?_getD, List.getElem?_eq_getElem hq, Option.getD_some]
  constructor
  · intro h q p
    rcases alltoall_returns (alltoallInv_init hlen) with ⟨as, t, hrun, hall⟩
    have hinv := alltoallInv_reachable hlen ⟨as, hrun⟩
    rw [← h t ⟨as, hrun⟩ hall p q, rbuf_of_allReturned hinv hall, hout]
  · intro h st hst hall p q
    have hinv := alltoallInv_reachable hlen hst
    rw [rbuf_of_allReturned hinv hall, ← h q p, hout]

/-- The exchange is right exactly when every rank gets equal lists from each two ranks that
    lie opposite to each other as seen from it; so it is on up to two ranks. -/
theorem isAlltoall_iff (hlen : ∀ r, (sbufs r).length = n) :
    (IsAlltoall sbufs ↔
      ∀ q p : Fin n, (sbufs (mirror q p))[(q : Nat)]? = (sbufs p)[(q : Nat)]?) ∧
    (n ≤ 2 → IsAlltoall sbufs) := by
  refine ⟨isAlltoall_iff_mirror hlen, ?_⟩
  intro hn
  apply (isAlltoall_iff_mirror hlen).mpr
  intro q p
  rw [mirror_of_le_two hn]

end Invariant

/-- Three ranks, of which only rank 0 sends something, and only to rank 1. -/
def threeRanks : Fin 3 → List (List Nat)
  | 0 => [[], [7], []]
  | _ => [[], [], []]

/-- Rank 1 finds the list of rank 0 in the slot of rank 2. -/
theorem not_isAlltoall_threeRanks : ¬IsAlltoall threeRanks := by
  intro h
  have hlen : ∀ r, (threeRanks r).length = 3 := by decide
  rcases alltoall_returns (alltoallInv_init hlen) with ⟨as, t, hrun, hall⟩
  have hslot := rbuf_of_allReturned (alltoallInv_reachable hlen ⟨as, hrun⟩) hall 1 0
  have hclaim := h t ⟨as, hrun⟩ hall 0 1
  rw [hslot] at hclaim
  exact absurd hclaim (by decide)

theorem isAlltoall_iff_threeRanks :
    (IsAlltoall threeRanks ↔
      ∀ q p : Fin 3, (threeRanks (mirror q p))[(q : Nat)]? = (threeRanks p)[(q : Nat)]?) ∧
    (3 ≤ 2 → IsAlltoall threeRanks) :=
  isAlltoall_iff (by decide)

end Paracel.Comm
