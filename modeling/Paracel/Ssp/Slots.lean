import Mathlib.Logic.Equiv.Basic
import Paracel.Ssp.Commits

/-!
# Slots that count one iteration at a time

`iter_commit` counts the commits at clock `c` in the slot `c % limit_s`, so the
slot has to be reset before a worker comes to clock `c + limit_s`. But
`paracel_read` lets a worker be `limit_s` clocks ahead of the server clock, the
last of them with the slot of the first one, while a worker that has not
committed at the first clock keeps its slot from being reset. And because a slot
starts again with 1, the clock can tick before all workers have committed at it.
-/

namespace Paracel.Ssp

open StepSystem

/-- Between two resets of a slot, the commits that are counted in it, up to the one that resets
    it, are at one clock. -/
def Unmixed (h : List Commit) : Prop :=
  ∀ pre a mid b post, h = pre ++ a :: (mid ++ b :: post) → b.slot = a.slot →
    a.resets = false → (∀ c ∈ mid, c.slot = a.slot → c.resets = false) → b.clock = a.clock

/-- Every run counts one iteration at a time in each slot. -/
def SlotsUnmixed {n : Nat} (cfg : Config n) : Prop :=
  ∀ is st, run (step cfg) (init n) is = some st → Unmixed (commits cfg (init n) is)

variable {n : Nat} {cfg : Config n}

/-! ### Where slots are not shared -/

section Unmixed

variable {h : List Commit}

theorem unmixed_of_resets (hall : ∀ c ∈ h, c.resets = true) : Unmixed h := by
  intro pre a mid b post hsplit _ hreset _
  have ha := hall a (by rw [hsplit]; simp)
  rw [hreset] at ha
  cases ha

theorem unmixed_of_slot (hall : ∀ c ∈ h, c.slot = c.clock) : Unmixed h := by
  intro pre a mid b post hsplit hslot _ _
  have ha := hall a (by rw [hsplit]; simp)
  have hb := hall b (by rw [hsplit]; simp)
  rw [← ha, ← hb, hslot]

/-- Where every commit after the first resets the one slot, only the first two commits can be
    counted together. -/
theorem unmixed_of_first {a₀ : Commit} {rest : List Commit} (hrest : ∀ c ∈ rest, c.resets = true)
    (hslots : ∀ c ∈ rest, c.slot = a₀.slot)
    (hsecond : a₀.resets = false → ∀ b, rest.head? = some b → b.clock = a₀.clock) :
    Unmixed (a₀ :: rest) := by
  intro pre a mid b post hsplit _ hreset hmid
  cases pre with
  | nil =>
      rw [List.nil_append, List.cons.injEq] at hsplit
      obtain ⟨rfl, hsplit⟩ := hsplit
      cases mid with
      | nil => exact hsecond hreset b (by rw [hsplit]; rfl)
      | cons c mid =>
          have hc : c ∈ rest := by simp [hsplit]
          have hno := hmid c List.mem_cons_self (hslots c hc)
          rw [hrest c hc] at hno
          cases hno
  | cons x pre =>
      rw [List.cons_append, List.cons.injEq] at hsplit
      have ha := hrest a (by rw [hsplit.2]; simp)
      rw [hreset] at ha
      cases ha

end Unmixed

section Safe

variable {st st' : State n} {i : Fin n}

/-- Two workers with one slot: once something is counted in it, each commit resets it. -/
theorem ticks_of_counted {cfg : Config 2} {st : State 2} {i : Fin 2} (hzero : cfg.limitS = 0)
    (hi : Inv cfg st) (hslot : 1 ≤ slot st.sspTbl 0) : Ticks cfg st i := by
  have hsize := hi.workerSz_le
  have hown : slotOf cfg.limitS (st.workers i).clock = 0 := if_pos hzero
  unfold Ticks Due
  rw [hown]
  omega

/-- What is counted in the one slot stays above 0. -/
theorem counted_step (hzero : cfg.limitS = 0) (hi : Inv cfg st)
    (hslot : 1 ≤ slot st.sspTbl 0 ∨ (st.workers i).pc = .commit)
    (hstep : step cfg st i = some st') : 1 ≤ slot st'.sspTbl 0 := by
  have hnonneg := hi.slot_nonneg 0
  rcases commit_or_sameClocks hi.started hstep with ⟨-, rfl⟩ | hsame
  · have hown : slotOf cfg.limitS (st.workers i).clock = 0 := if_pos hzero
    rw [slot_commitTbl hi.started, if_pos hown.symm]
    split <;> omega
  · rw [hsame.slots]
    rcases hslot with hslot | hpc
    · exact hslot
    · cases move_of_step hi.started hstep with
      | committed _ =>
          have hclock := hsame.workers i
          simp at hclock
      | served h _ => rcases h with h | h <;> rw [hpc] at h <;> cases h
      | missed h => rw [hpc] at h; cases h
      | polled h => rw [hpc] at h; cases h
      | finished h => rw [hpc] at h; cases h

theorem slotsUnmixed_of_two {cfg : Config 2} (hpos : ∀ i, 0 < cfg.totalIters i)
    (hzero : cfg.limitS = 0) : SlotsUnmixed cfg := by
  intro is st _
  have hone : ∀ st : State 2, Inv cfg st ∧ 1 ≤ slot st.sspTbl 0 → ∀ is,
      ∀ c ∈ commits cfg st is, c.resets = true := by
    intro st hst is
    refine forall_commits (Q := fun st => Inv cfg st ∧ 1 ≤ slot st.sspTbl 0)
      (P := fun c => c.resets = true) ?_ ?_ hst is
    · intro st i st' ⟨hi, hslot⟩ hstep
      exact ⟨hi.step hstep, counted_step hzero hi (.inl hslot) hstep⟩
    · intro st i ⟨hi, hslot⟩ _
      exact decide_eq_true (ticks_of_counted hzero hi hslot)
  have hslots : ∀ st : State 2, Inv cfg st → ∀ is, ∀ c ∈ commits cfg st is, c.slot = 0 := by
    intro st hi is
    exact forall_commits (P := fun c => c.slot = 0) (fun _ _ _ hi hstep => hi.step hstep)
      (fun _ _ _ _ => if_pos hzero) hi is
  rcases commits_cases (inv_init hpos) is with hnil | ⟨m, i, js, hi, hsame, hpc, m', hm', hcons⟩
  · rw [hnil]
    exact unmixed_of_resets (by simp)
  · rw [hcons]
    have hi' := hi.step hm'
    have hcounted := counted_step hzero hi (.inr hpc) hm'
    refine unmixed_of_first (hone m' ⟨hi', hcounted⟩ js) ?_ ?_
    · intro c hc
      rw [hslots m' hi' js c hc]
      exact (if_pos hzero).symm
    · -- without a tick the second commit is at clock 0, as the first one
      intro hreset b hb
      have hserver : serverClock m.sspTbl = 0 := by rw [hsame.server, serverClock_init]
      have hserver' : serverClock m'.sspTbl = 0 := by
        rcases commit_or_sameClocks hi.started hm' with ⟨-, rfl⟩ | hsame'
        · rw [serverClock_commitTbl hi.started, if_neg (of_decide_eq_false hreset), hserver]
        · rw [hsame'.server, hserver]
      have hfirst := (hi.worker i).passed hpc
      rcases commits_cases hi' js with hnil | ⟨m₂, j, ks, hi₂, hsame₂, hpc₂, m₂', hm₂', hcons₂⟩
      · rw [hnil] at hb
        cases hb
      · rw [hcons₂, List.head?_cons, Option.some.injEq] at hb
        have hsecond := (hi₂.worker j).passed hpc₂
        rw [hsame₂.server] at hsecond
        subst hb
        show (m₂.workers j).clock = (m.workers i).clock
        omega

end Safe

/-! ### Where they are -/

section Mixed

/-- A worker runs through all slots while nobody else has committed. -/
theorem solo_run (hn : 2 ≤ n) (hpos : ∀ i, 0 < cfg.totalIters i) {i : Fin n}
    (hiters : cfg.limitS < cfg.totalIters i) {c : Nat} (hc : c < cfg.limitS) :
    ∃ mid st, Leads cfg (init n) (⟨0, 0, false⟩ :: mid) st ∧ (∀ x ∈ mid, x.slot ≠ 0) ∧
      (st.workers i).clock = c + 1 ∧ (st.workers i).pc = .read := by
  induction c with
  | zero =>
      obtain ⟨st, hr, hcom⟩ := exists_committed cfg (i := i) started_init (by simp) (by simp)
      have hno : ¬Ticks cfg (init n) i := by
        simp only [Ticks, Due, slot_init, workerSz_init]
        omega
      have hfirst : commitOf cfg (init n) i = ⟨0, 0, false⟩ := by
        rw [commitOf, decide_eq_false hno, workers_init, slotOf_zero]
      rw [hfirst] at hr
      refine ⟨[], st, hr, by simp, by rw [hcom.clock, workers_init], ?_⟩
      rw [hcom.pc, workers_init, if_neg (by simp only; omega)]
  | succ c ih =>
      obtain ⟨mid, st, hr, hmid, hclock, hpc⟩ := ih (by omega)
      have hi := Inv.of_reachable hpos hr.reachable
      have hnonneg := hi.clock_nonneg
      obtain ⟨st', hr', hcom⟩ := exists_committed cfg hi.started hpc (by rw [hclock]; omega)
      refine ⟨mid ++ [commitOf cfg st i], st', hr.trans hr', ?_, by rw [hcom.clock, hclock], ?_⟩
      · rw [List.forall_mem_append, List.forall_mem_singleton]
        refine ⟨hmid, ?_⟩
        rw [commitOf, hclock]
        show slotOf cfg.limitS (c + 1) ≠ 0
        rw [slotOf_eq_self (by omega)]
        exact Nat.succ_ne_zero c
      · rw [hcom.pc, hclock, if_neg (by omega)]

/-- With several workers the first slot counts a commit at clock 0 and one at clock `limit_s`. -/
theorem not_slotsUnmixed_of_reuse (hn : 2 ≤ n) (hpos : ∀ i, 0 < cfg.totalIters i) {i : Fin n}
    (hlimit : 0 < cfg.limitS) (hiters : cfg.limitS < cfg.totalIters i) : ¬SlotsUnmixed cfg := by
  intro hall
  obtain ⟨mid, st, hr, hmid, hclock, hpc⟩ :=
    solo_run hn hpos hiters (c := cfg.limitS - 1) (by omega)
  have hi := Inv.of_reachable hpos hr.reachable
  have hnonneg := hi.clock_nonneg
  obtain ⟨st', hr', -⟩ := exists_committed cfg hi.started hpc (by rw [hclock]; omega)
  obtain ⟨is, hrun, hcommits⟩ := hr.trans hr'
  have hunmixed := hall is st' hrun
  rw [hcommits] at hunmixed
  have hback : (st.workers i).clock = cfg.limitS := by omega
  have hslot : (commitOf cfg st i).slot = 0 := by
    rw [commitOf, hback]
    show slotOf cfg.limitS cfg.limitS = 0
    rw [slotOf, if_neg (by omega), Nat.mod_self]
  have hsame := hunmixed [] ⟨0, 0, false⟩ mid (commitOf cfg st i) [] rfl hslot rfl
    fun c hc hzero => absurd hzero (hmid c hc)
  have hlast : (commitOf cfg st i).clock = cfg.limitS := hback
  rw [hlast] at hsame
  simp only at hsame
  omega

/-- With one slot for three or more workers, one of them commits at clock 1 before the last one
    commits at clock 0. -/
theorem not_slotsUnmixed_of_three (hn : 3 ≤ n) (hpos : ∀ i, 0 < cfg.totalIters i) {i : Fin n}
    (hzero : cfg.limitS = 0) (hiters : 1 < cfg.totalIters i) : ¬SlotsUnmixed cfg := by
  intro hall
  let e : Fin n ≃ Fin n := Equiv.swap ⟨0, by omega⟩ i
  have he : e ⟨0, by omega⟩ = i := Equiv.swap_apply_left _ _
  have hone : ∀ st : State n, ∀ j, slotOf cfg.limitS (st.workers j).clock = 0 := fun _ _ =>
    if_pos hzero
  obtain ⟨h, st, hr, hsize, hclock, hslot, hlast, hfirst, hpc⟩ := first_tick hpos e hn
  rw [he] at hfirst hpc
  rw [if_neg (by omega)] at hpc
  have hi := Inv.of_reachable hpos hr.reachable
  obtain ⟨st₁, hr₁, hc₁⟩ := exists_committed cfg hi.started hpc (by rw [hfirst, hclock]; omega)
  have hi₁ := Inv.of_reachable hpos (hr.trans hr₁).reachable
  have hne : e ⟨n - 1, by omega⟩ ≠ i := by
    intro heq
    have hfin := congrArg Fin.val (e.injective (heq.trans he.symm))
    simp only at hfin
    omega
  have hw : st₁.workers (e ⟨n - 1, by omega⟩) = {} := (hc₁.other _ hne).trans hlast
  have hnonneg := hi₁.clock_nonneg
  obtain ⟨st₂, hr₂, -⟩ := exists_committed cfg (i := e ⟨n - 1, by omega⟩) hi₁.started (by rw [hw])
    (by simp only [hw]; omega)
  obtain ⟨is, hrun, hcommits⟩ := (hr.trans hr₁).trans hr₂
  have hno : ¬Ticks cfg st i := by
    simp only [Ticks, Due, hone, hsize, hslot]
    omega
  have hunmixed := hall is st₂ hrun
  rw [hcommits, List.append_assoc] at hunmixed
  have hsame := hunmixed h (commitOf cfg st i) [] (commitOf cfg st₁ (e ⟨n - 1, by omega⟩)) [] rfl
    ((hone _ _).trans (hone _ _).symm) (decide_eq_false hno) (by simp)
  have hlow : (commitOf cfg st₁ (e ⟨n - 1, by omega⟩)).clock = 0 := by
    rw [commitOf, hw]
  have hhigh : (commitOf cfg st i).clock = 1 := hfirst
  rw [hlow, hhigh] at hsame
  cases hsame

end Mixed

end Paracel.Ssp
