import Paracel.Ssp.Commits

/-!
# When the server clock waits for everybody

The server clock is meant to count the iterations that all workers have
committed. Because `incr_int` adds each commit to its slot twice, a slot can
reach `worker_sz` before all workers have passed it. This file settles for
which numbers of workers and iterations the clock still never runs ahead. A
commit counts as made from the moment the server handles its `incr_int`.
-/

namespace Paracel.Ssp

open StepSystem

/-- The configuration in which all workers have the same number of iterations. -/
def uniform {n : Nat} (limitS totalIters : Nat) : Config n :=
  { limitS := limitS, totalIters := fun _ => totalIters }

/-- Every worker has made as many commits as the server clock shows. -/
def Safe {n : Nat} (cfg : Config n) (st : State n) : Prop :=
  ∀ i, min (serverClock st.sspTbl) (cfg.totalIters i) ≤ (st.workers i).clock

variable {n limitS totalIters : Nat}

@[simp] theorem uniform_limitS : (uniform limitS totalIters : Config n).limitS = limitS := rfl

@[simp] theorem uniform_totalIters (i : Fin n) :
    (uniform limitS totalIters : Config n).totalIters i = totalIters := rfl

/-! ### One worker -/

/-- Alone, a worker makes the server clock tick with every commit. -/
private theorem alone_step {cfg : Config 1} {st st' : State 1} {i : Fin 1} (hi : Inv cfg st)
    (heq : serverClock st.sspTbl = (st.workers 0).clock) (hstep : step cfg st i = some st') :
    serverClock st'.sspTbl = (st'.workers 0).clock := by
  obtain rfl : i = 0 := Subsingleton.elim _ _
  rcases commit_or_sameClocks hi.started hstep with ⟨-, rfl⟩ | hsame
  · have htick : Ticks cfg st 0 := hi.ticks_of_alone (le_refl 1) 0
    simp only [serverClock_commitTbl hi.started, htick, if_true, Function.update_self,
      Worker.afterCommit_clock]
    push_cast
    omega
  · rw [hsame.server, hsame.workers, heq]

/-! ### Two workers, each slot used once -/

/-- What slot `c` holds when each of two workers passes it at most once. -/
def pairSlot (a b c : Nat) : Int :=
  if a ≤ c ∧ b ≤ c then 0 else if c < a ∧ c < b then 1 else 2

/-- The clocks of the two workers determine the server clock and every slot. -/
structure Pair (totalIters : Nat) (st : State 2) (i j : Fin 2) : Prop where
  clock : serverClock st.sspTbl = min (st.workers i).clock (st.workers j).clock
  slots : ∀ c < totalIters,
    slot st.sspTbl c = pairSlot (st.workers i).clock (st.workers j).clock c

theorem pairSlot_comm (a b c : Nat) : pairSlot a b c = pairSlot b a c := by
  unfold pairSlot
  split_ifs <;> omega

theorem Pair.symm {st : State 2} {i j : Fin 2} (h : Pair totalIters st i j) :
    Pair totalIters st j i where
  clock := by rw [h.clock, Nat.min_comm]
  slots c hc := by rw [h.slots c hc, pairSlot_comm]

/-- The second worker to pass a slot makes it tick; the first does not, since then
    both of them are still running. -/
private theorem ticks_iff_behind (hT : totalIters ≤ max 1 limitS) {st : State 2} {i j : Fin 2}
    (hij : i ≠ j) (hi : Inv (uniform limitS totalIters) st) (hp : Pair totalIters st i j)
    (hpc : (st.workers i).pc = .commit) (hlt : (st.workers i).clock < totalIters) :
    Ticks (uniform limitS totalIters) st i ↔ (st.workers i).clock < (st.workers j).clock := by
  unfold Ticks Due
  rw [uniform_limitS, slotOf_eq_self (by omega), hp.slots _ hlt, pairSlot]
  by_cases hbehind : (st.workers i).clock < (st.workers j).clock
  · have hsize := hi.workerSz_le
    simp only [hbehind, iff_true]
    split_ifs <;> omega
  · have hboth : unfinished st.workers = 2 := by
      refine (Tally.congr _ (fun _ => True) ?_).trans (by simp [tally])
      intro k
      obtain rfl | rfl : k = i ∨ k = j := by omega
      · simp [hpc]
      · have hiters := (hi.worker k).iters
        simp only [ne_eq, iff_true]
        intro hdone
        simp only [hdone, Pc.looping, Bool.false_eq_true, if_false, uniform_totalIters] at hiters
        omega
    rw [hi.size, hboth]
    simp only [hbehind, iff_false]
    split_ifs <;> omega

private theorem pair_step (hT : totalIters ≤ max 1 limitS) {st st' : State 2} {i j : Fin 2}
    (hij : i ≠ j) (hi : Inv (uniform limitS totalIters) st) (hp : Pair totalIters st i j)
    (hstep : step (uniform limitS totalIters) st i = some st') : Pair totalIters st' i j := by
  have hs := hi.started
  rcases commit_or_sameClocks hs hstep with ⟨hpc, rfl⟩ | hsame
  · have hlt : (st.workers i).clock < totalIters := (hi.worker i).clock_lt (by rw [hpc]; rfl)
    have hticks := ticks_iff_behind hT hij hi hp hpc hlt
    constructor
    · simp only [serverClock_commitTbl hs, hticks, hp.clock, Function.update_self,
        Function.update_of_ne hij.symm, Worker.afterCommit_clock]
      split_ifs <;> omega
    · intro c hc
      have hslotOf : slotOf limitS (st.workers i).clock = (st.workers i).clock :=
        slotOf_eq_self (by omega)
      simp only [slot_commitTbl hs, uniform_limitS, hslotOf, hticks, hp.slots c hc,
        Function.update_self, Function.update_of_ne hij.symm, Worker.afterCommit_clock]
      unfold pairSlot
      split_ifs <;> omega
  · exact ⟨by rw [hsame.server, hsame.workers, hsame.workers, hp.clock],
      fun c hc => by rw [hsame.slots, hsame.workers, hsame.workers, hp.slots c hc]⟩

private theorem pair_of_reachable (hpos : 1 ≤ totalIters) (hT : totalIters ≤ max 1 limitS)
    {st : State 2} (hr : Reachable (step (uniform limitS totalIters)) (init 2) st) :
    Pair totalIters st 0 1 := by
  have hboth : Inv (uniform limitS totalIters) st ∧ Pair totalIters st 0 1 := by
    refine hr.invariant (P := fun st => Inv (uniform limitS totalIters) st ∧
      Pair totalIters st 0 1) ⟨inv_init fun _ => hpos, by simp, fun c _ => by simp [pairSlot]⟩ ?_
    intro st i st' ⟨hi, hp⟩ hstep
    refine ⟨hi.step hstep, ?_⟩
    obtain rfl | rfl : i = 0 ∨ i = 1 := by omega
    · exact pair_step hT (by decide) hi hp hstep
    · exact (pair_step hT (by decide) hi hp.symm hstep).symm
  exact hboth.2

/-! ### Getting ahead -/

/-- Among three or more workers the clock ticks while one has not committed at all. -/
private theorem exists_unsafe_of_three (limitS : Nat) (hW : 3 ≤ n) (hT : 1 ≤ totalIters) :
    ∃ st, Reachable (step (uniform limitS totalIters)) (init n) st ∧
      ¬Safe (uniform limitS totalIters) st := by
  have hpos : ∀ i, 0 < (uniform limitS totalIters : Config n).totalIters i := fun _ => by
    rw [uniform_totalIters]
    omega
  obtain ⟨h, st, hr, -, hclock, -, hlast, -⟩ := first_tick hpos (Equiv.refl _) hW
  refine ⟨st, hr.reachable, fun hsafe => ?_⟩
  have hbehind := hsafe ⟨n - 1, by omega⟩
  rw [Equiv.refl_apply] at hlast
  rw [hlast, hclock, uniform_totalIters] at hbehind
  simp only at hbehind
  omega

/-- Worker 1 has committed once and worker 0 has gone on to clock `c + 1`: the
    server clock has ticked twice, or once and the first slot is one short. -/
private theorem solo_commits (hT : max 1 limitS < totalIters) {c : Nat}
    (hc : c < max 1 limitS) :
    ∃ st : State 2, Reachable (step (uniform limitS totalIters)) (init 2) st ∧
      workerSz st.sspTbl = 2 ∧ (st.workers 1).clock = 1 ∧ (st.workers 0).clock = c + 1 ∧
      (st.workers 0).pc = .read ∧
      (2 ≤ serverClock st.sspTbl ∨ 1 = serverClock st.sspTbl ∧ slot st.sspTbl 0 = 1) := by
  have hpos : ∀ i, 0 < (uniform limitS totalIters : Config 2).totalIters i := fun _ => by
    rw [uniform_totalIters]
    omega
  induction c with
  | zero =>
      have hsz₀ : workerSz (init 2).sspTbl = 2 := by simp
      obtain ⟨st₁, hr₁, hc₁⟩ := exists_committed (uniform limitS totalIters)
        (i := (1 : Fin 2)) started_init (by simp) (by simp)
      have hi₁ := Inv.of_reachable hpos hr₁.reachable
      have hno : ¬Ticks (uniform limitS totalIters) (init 2) 1 := by
        simp [Ticks, Due]
      have hw₁ : st₁.workers 0 = {} := by
        rw [hc₁.other 0 (by decide), workers_init]
      have hn₁ : serverClock st₁.sspTbl = 0 := by
        rw [hc₁.table, serverClock_commitTbl started_init, if_neg hno, serverClock_init]
      have hslot₁ : slot st₁.sspTbl 0 = 2 := by
        rw [hc₁.table, slot_commitTbl started_init, workers_init, slotOf_zero, if_pos rfl,
          if_neg hno, slot_init]
        rfl
      have hsz₁ : workerSz st₁.sspTbl = 2 := by
        rw [hc₁.table, workerSz_commitTbl started_init, hsz₀]
      obtain ⟨st, hr, hc₂⟩ := exists_committed (uniform limitS totalIters) (i := 0)
        hi₁.started (by rw [hw₁]) (by simp [hw₁, hn₁])
      have hticks : Ticks (uniform limitS totalIters) st₁ 0 := by
        simp [Ticks, Due, hw₁, slotOf_zero, hslot₁, hsz₁]
      refine ⟨st, (hr₁.trans hr).reachable, ?_, ?_, ?_, ?_, .inr ⟨?_, ?_⟩⟩
      · rw [hc₂.table, workerSz_commitTbl hi₁.started, hsz₁]
      · rw [hc₂.other 1 (by decide), hc₁.clock, workers_init]
      · rw [hc₂.clock, hw₁]
      · rw [hc₂.pc, hw₁, uniform_totalIters, if_neg (by simp only; omega)]
      · rw [hc₂.table, serverClock_commitTbl hi₁.started, if_pos hticks, hn₁]
        rfl
      · rw [hc₂.table, slot_commitTbl hi₁.started, hw₁, slotOf_zero, if_pos rfl, if_pos hticks]
  | succ c ih =>
      obtain ⟨st, hr, hsize, hone, hclock, hpc, hroom⟩ := ih (by omega)
      have hi := Inv.of_reachable hpos hr
      obtain ⟨st', hr', hc'⟩ := exists_committed (uniform limitS totalIters) (i := 0)
        hi.started hpc (by
          have hlt : c + 1 < limitS := (lt_max_iff.mp hc).resolve_left (by simp)
          have hn := hi.clock_nonneg
          rw [hclock, uniform_limitS]
          clear hc hT ih hroom
          omega)
      refine ⟨st', hr.trans hr'.reachable, ?_, ?_, ?_, ?_, ?_⟩
      · rw [hc'.table, workerSz_commitTbl hi.started, hsize]
      · rw [hc'.other 1 (by decide), hone]
      · rw [hc'.clock, hclock]
      · rw [hc'.pc, hclock, uniform_totalIters, if_neg (by omega)]
      · -- the commit goes to another slot than the first
        rw [hc'.table, serverClock_commitTbl hi.started, slot_commitTbl hi.started, hclock,
          uniform_limitS, slotOf_eq_self hc, if_neg (by omega : 0 ≠ c + 1)]
        split <;> omega

/-- Of two workers that reuse a slot, one can make the clock tick twice while the
    other has committed once. -/
private theorem exists_unsafe_of_reuse (hT : max 1 limitS < totalIters) :
    ∃ st : State 2, Reachable (step (uniform limitS totalIters)) (init 2) st ∧
      ¬Safe (uniform limitS totalIters) st := by
  obtain ⟨st, hr, hsize, hone, hclock, hpc, hroom⟩ :=
    solo_commits hT (c := max 1 limitS - 1) (by omega)
  have hi := Inv.of_reachable (fun _ => by rw [uniform_totalIters]; omega) hr
  have hback : (st.workers 0).clock = max 1 limitS := by omega
  have hslot : slotOf limitS (max 1 limitS) = 0 := by
    unfold slotOf
    split
    · rfl
    · rw [Nat.max_eq_right (by omega), Nat.mod_self]
  obtain ⟨st', hr', hc⟩ := exists_committed (uniform limitS totalIters) (i := 0)
    hi.started hpc (by rw [hback, uniform_limitS]; omega)
  refine ⟨st', hr.trans hr'.reachable, ?_⟩
  intro hsafe
  have htwo : 2 ≤ serverClock st'.sspTbl := by
    rw [hc.table, serverClock_commitTbl hi.started]
    by_cases htick : Ticks (uniform limitS totalIters) st 0
    · rw [if_pos htick]
      omega
    · rw [if_neg htick]
      simp only [Ticks, Due, hback, uniform_limitS, hslot, hsize] at htick
      omega
  have hlast := hsafe 1
  rw [hc.other 1 (by decide), hone, uniform_totalIters] at hlast
  omega

/-- The server clock never runs ahead of the slowest worker exactly when there is
    one worker, or there are two and no slot is used for a second clock. -/
theorem safe_iff (hW : 1 ≤ n) (hT : 1 ≤ totalIters) :
    (∀ st, Reachable (step (uniform limitS totalIters)) (init n) st →
      Safe (uniform limitS totalIters) st) ↔
    n = 1 ∨ n = 2 ∧ totalIters ≤ max 1 limitS := by
  constructor
  · intro hall
    by_contra hnot
    obtain hthree | ⟨rfl, hmore⟩ : 3 ≤ n ∨ n = 2 ∧ max 1 limitS < totalIters := by omega
    · obtain ⟨st, hr, hbad⟩ := exists_unsafe_of_three limitS hthree hT
      exact hbad (hall st hr)
    · obtain ⟨st, hr, hbad⟩ := exists_unsafe_of_reuse hmore
      exact hbad (hall st hr)
  · rintro (rfl | ⟨rfl, hle⟩) st hr i
    · have halone : Inv (uniform limitS totalIters) st ∧
          serverClock st.sspTbl = (st.workers 0).clock :=
        hr.invariant (P := fun st => Inv (uniform limitS totalIters) st ∧
            serverClock st.sspTbl = (st.workers 0).clock)
          ⟨inv_init fun _ => hT, by simp⟩
          fun _ _ _ ⟨hi, heq⟩ hstep => ⟨hi.step hstep, alone_step hi heq hstep⟩
      obtain rfl : i = 0 := Subsingleton.elim _ _
      rw [halone.2]
      exact min_le_left _ _
    · have hclock := (pair_of_reachable hT hle hr).clock
      rw [uniform_totalIters]
      obtain rfl | rfl : i = 0 ∨ i = 1 := by omega
      · omega
      · omega

/-- Two workers with three slots for their three iterations. -/
theorem safe_iff_two_workers :
    (∀ st, Reachable (step (uniform 3 3)) (init 2) st → Safe (uniform 3 3) st) ↔
      2 = 1 ∨ 2 = 2 ∧ 3 ≤ max 1 3 :=
  safe_iff (by decide) (by decide)

/-- Worker 1 commits once and worker 0 twice, which makes the server clock 2. -/
theorem not_safe_two_workers :
    ¬∀ st, Reachable (step (uniform 0 2)) (init 2) st → Safe (uniform 0 2) st := by
  intro hsafe
  have hrun : ∃ st, run (step (uniform 0 2)) (init 2) [1, 1, 0, 0, 0, 0, 0, 0] = some st ∧
      serverClock st.sspTbl = 2 ∧ (st.workers 1).clock = 1 :=
    ⟨_, rfl, by decide, by decide⟩
  rcases hrun with ⟨st, hst, hserver, hclock⟩
  have hle := hsafe st ⟨_, hst⟩ 1
  rw [hserver, hclock] at hle
  exact absurd hle (by decide)

end Paracel.Ssp
