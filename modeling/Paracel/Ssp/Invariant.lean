import Paracel.Misc.Tally
import Paracel.Ssp.Worker

/-!
# What every step of the workers preserves

The invariant of the clock system. Its last clause carries the deadlock
analysis: the workers that stand one clock beyond what the server clock lets
them read have all been counted, twice, in the slot that the next commit at
that clock goes to.
-/

namespace Paracel.Ssp

open StepSystem

/-- The worker is still in its loop of reads and commits. -/
def Pc.looping : Pc → Bool
  | .read | .wait | .commit => true
  | .finish | .done => false

/-- What holds of one worker when the server clock is `n`. -/
structure WorkerOk (limitS totalIters : Nat) (n : Int) (w : Worker) : Prop where
  stale_le : w.staleCache ≤ n
  passed : w.pc = .commit → (w.clock : Int) ≤ n + limitS
  ahead : (w.clock : Int) ≤ n + limitS + 1
  iters : if w.pc.looping then w.clock < totalIters else w.clock = totalIters

theorem WorkerOk.mono {limitS totalIters : Nat} {m n : Int} {w : Worker} (hle : m ≤ n)
    (h : WorkerOk limitS totalIters m w) : WorkerOk limitS totalIters n w where
  stale_le := h.stale_le.trans hle
  passed hpc := by
    have := h.passed hpc
    omega
  ahead := by
    have := h.ahead
    omega
  iters := h.iters

/-- A worker that is still in its loop has iterations left. -/
theorem WorkerOk.clock_lt {limitS totalIters : Nat} {n : Int} {w : Worker}
    (h : WorkerOk limitS totalIters n w) (hloop : w.pc.looping) : w.clock < totalIters := by
  simpa [hloop] using h.iters

/-- The number of workers whose clock is `c`. -/
def atClock {n : Nat} (c : Nat) (workers : Fin n → Worker) : Nat :=
  tally (fun w => w.clock = c) workers

/-- The number of workers that have not lowered `worker_sz` yet. -/
def unfinished {n : Nat} (workers : Fin n → Worker) : Nat :=
  tally (fun w => w.pc ≠ .done) workers

/-- What holds in every reachable state. -/
structure Inv {n : Nat} (cfg : Config n) (st : State n) : Prop where
  started : Started st.sspTbl
  size : workerSz st.sspTbl = unfinished st.workers
  clock_nonneg : 0 ≤ serverClock st.sspTbl
  worker : ∀ i, WorkerOk cfg.limitS (cfg.totalIters i) (serverClock st.sspTbl) (st.workers i)
  slot_nonneg : ∀ d, 0 ≤ slot st.sspTbl d
  counted : ∀ c : Nat, (c : Int) = serverClock st.sspTbl + cfg.limitS →
    2 * (atClock (c + 1) st.workers : Int) ≤ slot st.sspTbl (slotOf cfg.limitS c)

/-! ### The start -/

section Init

variable {n : Nat}

theorem get_init (k : Str) :
    (init n).sspTbl.get k =
      if k = workerSzKey then some (n : Int)
      else if k = serverClockKey then some 0 else none := by
  have hempty : Kvs.get ({} : Kvs Str Int) k = none := rfl
  simp [init, thrdExecSsp, thrdExecSspInit, hempty]

theorem started_init : Started (init n).sspTbl where
  clock := by simp [get_init]
  size := by simp [get_init]

@[simp] theorem serverClock_init : serverClock (init n).sspTbl = 0 := by
  simp [serverClock, get_init]

@[simp] theorem workerSz_init : workerSz (init n).sspTbl = n := by
  simp [workerSz, get_init]

@[simp] theorem slot_init (d : Nat) : slot (init n).sspTbl d = 0 := by
  simp [slot, get_init]

@[simp] theorem workers_init (i : Fin n) : (init n).workers i = {} := rfl

theorem inv_init {cfg : Config n} (hpos : ∀ i, 0 < cfg.totalIters i) : Inv cfg (init n) where
  started := started_init
  size := by
    have hall : unfinished (init n).workers = n := by
      simp [unfinished, tally]
    simp [hall]
  clock_nonneg := by simp
  worker i :=
    { stale_le := by simp
      passed := fun h => by cases h
      ahead := by
        simp
        omega
      iters := by simpa [Pc.looping] using hpos i }
  slot_nonneg d := by simp
  counted c _ := by
    have hnone : atClock (c + 1) (init n).workers = 0 := by
      simp [atClock, Tally.eq_zero_iff]
    simp [hnone]

end Init

/-! ### The steps -/

section Steps

variable {n : Nat} {cfg : Config n} {st st' : State n} {i : Fin n}

/-- A change of one worker that keeps its clock and does not end it. -/
theorem Inv.setWorker (hi : Inv cfg st) {w : Worker} (hclock : w.clock = (st.workers i).clock)
    (hdone : w.pc ≠ .done ↔ (st.workers i).pc ≠ .done)
    (hw : WorkerOk cfg.limitS (cfg.totalIters i) (serverClock st.sspTbl) w) :
    Inv cfg (st.setWorker i w) where
  started := hi.started
  size := by
    rw [unfinished, State.setWorker, Tally.update_of_iff _ hdone]
    exact hi.size
  clock_nonneg := hi.clock_nonneg
  worker j := by
    by_cases hj : j = i
    · subst hj
      simpa [State.setWorker] using hw
    · simpa [State.setWorker, hj] using hi.worker j
  slot_nonneg := hi.slot_nonneg
  counted c hc := by
    rw [atClock, State.setWorker, Tally.update_of_iff _ (by rw [hclock])]
    exact hi.counted c hc

/-- A tick leaves nobody one clock beyond the new bound. -/
theorem Inv.atClock_of_tick (hi : Inv cfg st) {c : Nat}
    (hc : (c : Int) = serverClock st.sspTbl + 1 + cfg.limitS) :
    atClock (c + 1) st.workers = 0 := by
  rw [atClock, Tally.eq_zero_iff]
  intro j hj
  have := (hi.worker j).ahead
  omega

/-- A commit at clock `c` by a worker that the server lets read keeps the slots counted. -/
private theorem counted_commit (hi : Inv cfg st) (hpc : (st.workers i).pc = .commit) {c : Nat}
    (hc : (c : Int) = serverClock (commitTbl cfg st i) + cfg.limitS) :
    2 * (atClock (c + 1) (Function.update st.workers i
        ((st.workers i).afterCommit (cfg.totalIters i))) : Int) ≤
      slot (commitTbl cfg st i) (slotOf cfg.limitS c) := by
  have hs := hi.started
  have hpassed := (hi.worker i).passed hpc
  have hupd := Tally.update (fun w : Worker => w.clock = c + 1) st.workers i
    ((st.workers i).afterCommit (cfg.totalIters i))
  simp only [Worker.afterCommit_clock, Nat.add_right_cancel_iff] at hupd
  rw [serverClock_commitTbl hs] at hc
  rw [slot_commitTbl hs]
  by_cases htick : Ticks cfg st i
  · -- nobody is one clock beyond the new bound, the committing worker included
    simp only [htick, if_true] at hc ⊢
    have hnone := hi.atClock_of_tick hc
    have hne : (st.workers i).clock ≠ c := by omega
    have hnonneg := hi.slot_nonneg (slotOf cfg.limitS c)
    simp only [hne, if_false] at hupd
    simp only [atClock] at hnone ⊢
    split <;> omega
  · simp only [htick, if_false] at hc ⊢
    have hcount := hi.counted c hc
    have hne : (st.workers i).clock ≠ c + 1 := by omega
    simp only [atClock] at hcount ⊢
    simp only [hne, if_false] at hupd
    by_cases hat : (st.workers i).clock = c
    · simp only [hat, if_true] at hupd ⊢
      omega
    · simp only [hat, if_false] at hupd
      by_cases hsame : slotOf cfg.limitS c = slotOf cfg.limitS (st.workers i).clock
      · simp only [hsame, if_true] at hcount ⊢
        omega
      · simp only [hsame, if_false]
        omega

theorem Inv.committed (hi : Inv cfg st) (hpc : (st.workers i).pc = .commit) :
    Inv cfg
      { sspTbl := commitTbl cfg st i
        workers :=
          Function.update st.workers i ((st.workers i).afterCommit (cfg.totalIters i)) } := by
  have hs := hi.started
  have hpassed := (hi.worker i).passed hpc
  have hlt := (hi.worker i).clock_lt (by rw [hpc]; rfl)
  have hle : serverClock st.sspTbl ≤ serverClock (commitTbl cfg st i) := by
    rw [serverClock_commitTbl hs]
    split <;> omega
  refine ⟨started_commitTbl hs i, ?_, hi.clock_nonneg.trans hle, ?_, ?_,
    fun c hc => counted_commit hi hpc hc⟩
  · simp only [workerSz_commitTbl hs, hi.size, unfinished]
    rw [Tally.update_of_iff]
    simp only [Worker.afterCommit_pc, hpc]
    split <;> simp
  · intro j
    by_cases hj : j = i
    · subst hj
      simp only [Function.update_self]
      refine ⟨(hi.worker j).stale_le.trans hle, ?_, ?_, ?_⟩
      · intro h
        rw [Worker.afterCommit_pc] at h
        split at h <;> cases h
      · rw [Worker.afterCommit_clock]
        push_cast
        omega
      · simp only [Worker.afterCommit_pc, Worker.afterCommit_clock]
        by_cases hlast : (st.workers j).clock + 1 = cfg.totalIters j
        · simp [hlast, Pc.looping]
        · simp only [hlast, if_false, Pc.looping, if_true]
          omega
    · simp only [Function.update_of_ne hj]
      exact (hi.worker j).mono hle
  · intro d
    have hd := hi.slot_nonneg d
    simp only [slot_commitTbl hs]
    by_cases hslot : d = slotOf cfg.limitS (st.workers i).clock
    · subst hslot
      simp only [if_true]
      split <;> omega
    · simpa only [hslot, if_false] using hd

theorem Inv.finished (hi : Inv cfg st) (hpc : (st.workers i).pc = .finish) :
    Inv cfg
      { sspTbl := finishTbl st
        workers := Function.update st.workers i { st.workers i with pc := .done } } where
  started := started_finish hi.started
  size := by
    have hless : unfinished (Function.update st.workers i { st.workers i with pc := .done }) + 1 =
        unfinished st.workers := by
      have hupd := Tally.update (fun w : Worker => w.pc ≠ .done) st.workers i
        { st.workers i with pc := .done }
      rw [if_pos (by simp [hpc]), if_neg (by simp)] at hupd
      exact hupd
    simp only [finishTbl, workerSz_finish hi.started, hi.size, ← hless]
    push_cast
    omega
  clock_nonneg := by simpa [finishTbl] using hi.clock_nonneg
  worker j := by
    by_cases hj : j = i
    · subst hj
      have hold := hi.worker j
      have hiters := hold.iters
      simp only [hpc, Pc.looping, Bool.false_eq_true, if_false] at hiters
      simp only [finishTbl, serverClock_finish, Function.update_self]
      exact ⟨hold.stale_le, fun h => by simp at h, hold.ahead, by simpa [Pc.looping] using hiters⟩
    · simpa [finishTbl, hj] using hi.worker j
  slot_nonneg d := by simpa [finishTbl] using hi.slot_nonneg d
  counted c hc := by
    simp only [finishTbl, serverClock_finish, slot_finish] at hc ⊢
    rw [atClock, Tally.update_of_iff]
    · exact hi.counted c hc
    · rfl

theorem Inv.step (hi : Inv cfg st) (hstep : Ssp.step cfg st i = some st') : Inv cfg st' := by
  have hw := hi.worker i
  have hiters := hw.iters
  cases move_of_step hi.started hstep with
  | served hpc hpass =>
      have hlt := hw.clock_lt (by rcases hpc with hpc | hpc <;> rw [hpc] <;> rfl)
      refine hi.setWorker rfl ?_ ⟨hw.stale_le, ?_, hw.ahead, by simpa [Pc.looping]⟩
      · rcases hpc with hpc | hpc <;> simp [hpc]
      · intro _
        have hstale := hw.stale_le
        have hn := hi.clock_nonneg
        rcases hpass with h0 | hT | hle
        · simp only [h0]
          omega
        · omega
        · simp only
          omega
  | missed hpc =>
      refine hi.setWorker rfl ?_ ⟨hw.stale_le, fun h => by simp at h, hw.ahead, ?_⟩
      · simp [hpc]
      · simpa [hpc, Pc.looping] using hiters
  | polled hpc =>
      refine hi.setWorker rfl ?_ ⟨le_refl _, ?_, hw.ahead, ?_⟩
      · simp
      · intro h
        simp only [hpc] at h
        cases h
      · exact hiters
  | committed hpc => exact hi.committed hpc
  | finished hpc => exact hi.finished hpc

theorem Inv.of_reachable (hpos : ∀ i, 0 < cfg.totalIters i)
    (h : Reachable (Ssp.step cfg) (init n) st) : Inv cfg st :=
  h.invariant (inv_init hpos) fun _ _ _ hi hstep => hi.step hstep

/-! ### What the invariant says about the next commit -/

theorem Inv.workerSz_le (hi : Inv cfg st) : workerSz st.sspTbl ≤ n := by
  have hle : unfinished st.workers ≤ n := (Tally.le_card _ _).trans_eq (Fintype.card_fin n)
  rw [hi.size]
  omega

/-- Alone, a worker makes the server clock tick with every commit. -/
theorem Inv.ticks_of_alone (hi : Inv cfg st) (hn : n ≤ 1) (i : Fin n) : Ticks cfg st i := by
  have hsize := hi.workerSz_le
  have hnonneg := hi.slot_nonneg (slotOf cfg.limitS (st.workers i).clock)
  unfold Ticks Due
  omega

end Steps

end Paracel.Ssp
