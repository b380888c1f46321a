import Mathlib.Data.Fintype.Card
import Paracel.Misc.Run
import Paracel.Server.ExecSsp

/-!
# Workers under bounded staleness

The clock side of `paralg` (`include/ps.hpp`) in SSP mode and the system it
forms with the clock thread: every worker repeats `paracel_read` and
`iter_commit` until it has made `total_iters` commits. A scheduler picks which
worker goes next; one step is one request that the server handles, together
with what the worker does locally after the reply. The values that a read
returns play no part in the clocks and are the subject of `Paracel.Ssp.Cache`.
-/

namespace Paracel

open StepSystem

/-- The three branches of `paracel_read` in SSP mode. -/
inductive ReadBranch where
  | pull
  | hit
  | miss
deriving DecidableEq

/-- Which branch a `paracel_read` takes. -/
def readBranch (limitS totalIters clock : Nat) (staleCache : Int) : ReadBranch :=
  if clock = 0 ∨ clock = totalIters then .pull
  else if staleCache + limitS > clock then .hit
  else .miss

/-- The condition of the polling loop, `while(stale_cache + limit_s < clock)`. -/
def mustPoll (limitS clock : Nat) (staleCache : Int) : Bool :=
  staleCache + limitS < clock

/-- The slot in which the commit at `clock` is counted. -/
def slotOf (limitS clock : Nat) : Nat :=
  if limitS = 0 then 0 else clock % limitS

/-- The key `iter_commit` builds for that slot. -/
def clockKey (limitS clock : Nat) : Str :=
  if limitS = 0 then lit "client_clock_0" else clientClockPrefix ++ toStr (clock % limitS)

theorem clockKey_eq (limitS clock : Nat) :
    clockKey limitS clock = clientClockKey (slotOf limitS clock) := by
  unfold clockKey slotOf
  split
  · decide
  · rfl

/-- `kvclt::pull_int`; `none` where its asserts fail. -/
def pullInt (sspTbl : Kvs Str Int) (key : Str) : Option Int :=
  match (thrdExecSsp sspTbl (.pullInt key)).sent with
  | .int n :: _ => some n
  | _ => none

theorem pullInt_serverClock {sspTbl : Kvs Str Int} (hs : Started sspTbl) :
    pullInt sspTbl serverClockKey = some (serverClock sspTbl) := by
  obtain ⟨n, hn⟩ := Option.isSome_iff_exists.mp hs.clock
  simp [pullInt, thrdExecSsp, hn, serverClock]

namespace Ssp

/-- Where a worker stands in its loop: before a read, in the polling loop, before
    a commit, between the two requests of its last `iter_commit`, or done. -/
inductive Pc where
  | read
  | wait
  | commit
  | finish
  | done
deriving DecidableEq

/-- The clock fields of `paralg`. -/
structure Worker where
  clock : Nat := 0
  staleCache : Int := 0
  pc : Pc := .read
deriving DecidableEq

/-- What `iter_commit` does to the fields of its worker once the commit is counted. -/
def Worker.afterCommit (totalIters : Nat) (w : Worker) : Worker :=
  let clock := w.clock + 1
  { w with clock := clock, pc := if clock = totalIters then .finish else .read }

@[simp] theorem Worker.afterCommit_clock (totalIters : Nat) (w : Worker) :
    (w.afterCommit totalIters).clock = w.clock + 1 := rfl

theorem Worker.afterCommit_pc (totalIters : Nat) (w : Worker) :
    (w.afterCommit totalIters).pc = if w.clock + 1 = totalIters then .finish else .read := rfl

/-- What `n` workers were started with; `set_total_iters` may differ between them. -/
structure Config (n : Nat) where
  limitS : Nat
  totalIters : Fin n → Nat

/-- The clock table of the server and the clock fields of every worker. -/
structure State (n : Nat) where
  sspTbl : Kvs Str Int
  workers : Fin n → Worker

/-- Changes worker `i` only. -/
def State.setWorker {n : Nat} (st : State n) (i : Fin n) (w : Worker) : State n :=
  { st with workers := Function.update st.workers i w }

/-- The constructor of `paralg` on all workers: worker 0 pushes `worker_sz`. -/
def init (n : Nat) : State n :=
  { sspTbl := (thrdExecSsp (thrdExecSspInit {}) (.pushInt workerSzKey n)).mem
    workers := fun _ => {} }

/-- The next step of worker `i`. -/
def step {n : Nat} (cfg : Config n) (st : State n) (i : Fin n) : Option (State n) :=
  let w := st.workers i
  match w.pc with
  | .read =>
      match readBranch cfg.limitS (cfg.totalIters i) w.clock w.staleCache with
      | .pull | .hit => some (st.setWorker i { w with pc := .commit })
      | .miss => some (st.setWorker i { w with pc := .wait })
  | .wait =>
      if mustPoll cfg.limitS w.clock w.staleCache then
        (pullInt st.sspTbl serverClockKey).map fun n =>
          st.setWorker i { w with staleCache := n }
      else some (st.setWorker i { w with pc := .commit })
  | .commit =>
      some
        { sspTbl := (thrdExecSsp st.sspTbl (.incrInt (clockKey cfg.limitS w.clock) 1)).mem
          workers := Function.update st.workers i (w.afterCommit (cfg.totalIters i)) }
  | .finish =>
      some
        { sspTbl := (thrdExecSsp st.sspTbl (.incrInt workerSzKey (-1))).mem
          workers := Function.update st.workers i { w with pc := .done } }
  | .done => none

section Moves

variable {n : Nat} {cfg : Config n}

/-- The table after worker `i` had a commit counted. -/
def commitTbl (cfg : Config n) (st : State n) (i : Fin n) : Kvs Str Int :=
  (thrdExecSsp st.sspTbl
    (.incrInt (clientClockKey (slotOf cfg.limitS (st.workers i).clock)) 1)).mem

/-- The commit that worker `i` makes next makes its slot tick. -/
def Ticks (cfg : Config n) (st : State n) (i : Fin n) : Prop :=
  Due st.sspTbl (slotOf cfg.limitS (st.workers i).clock)

instance (cfg : Config n) (st : State n) (i : Fin n) : Decidable (Ticks cfg st i) :=
  inferInstanceAs (Decidable (Due _ _))

section CommitTbl

variable {st : State n} (hs : Started st.sspTbl) (i : Fin n)
include hs

theorem started_commitTbl : Started (commitTbl cfg st i) :=
  started_commit hs _

@[simp] theorem serverClock_commitTbl :
    serverClock (commitTbl cfg st i) =
      if Ticks cfg st i then serverClock st.sspTbl + 1 else serverClock st.sspTbl :=
  serverClock_commit hs _

@[simp] theorem workerSz_commitTbl : workerSz (commitTbl cfg st i) = workerSz st.sspTbl :=
  workerSz_commit hs _

@[simp] theorem slot_commitTbl (e : Nat) :
    slot (commitTbl cfg st i) e =
      if e = slotOf cfg.limitS (st.workers i).clock then
        (if Ticks cfg st i then 1 else slot st.sspTbl e + 2)
      else slot st.sspTbl e := by
  rw [commitTbl, slot_commit hs]
  by_cases he : e = slotOf cfg.limitS (st.workers i).clock
  · subst he
    rfl
  · simp only [he, if_false]

end CommitTbl

/-- The table after a worker had `worker_sz` lowered. -/
def finishTbl (st : State n) : Kvs Str Int :=
  (thrdExecSsp st.sspTbl (.incrInt workerSzKey (-1))).mem

/-- What a step of worker `i` can be. -/
inductive Move (cfg : Config n) (st : State n) (i : Fin n) : State n → Prop
  | served
      (hpc : (st.workers i).pc = .read ∨ (st.workers i).pc = .wait)
      (hpass : (st.workers i).clock = 0 ∨ (st.workers i).clock = cfg.totalIters i ∨
        ((st.workers i).clock : Int) ≤ (st.workers i).staleCache + cfg.limitS) :
      Move cfg st i (st.setWorker i { st.workers i with pc := .commit })
  | missed
      (hpc : (st.workers i).pc = .read)
      (hclock : (st.workers i).clock ≠ 0) :
      Move cfg st i (st.setWorker i { st.workers i with pc := .wait })
  | polled
      (hpc : (st.workers i).pc = .wait)
      (hpoll : (st.workers i).staleCache + cfg.limitS < (st.workers i).clock) :
      Move cfg st i (st.setWorker i { st.workers i with staleCache := serverClock st.sspTbl })
  | committed
      (hpc : (st.workers i).pc = .commit) :
      Move cfg st i
        { sspTbl := commitTbl cfg st i
          workers :=
            Function.update st.workers i ((st.workers i).afterCommit (cfg.totalIters i)) }
  | finished
      (hpc : (st.workers i).pc = .finish) :
      Move cfg st i
        { sspTbl := finishTbl st
          workers := Function.update st.workers i { st.workers i with pc := .done } }

/-- Everything a step can do, with the guards it passed. -/
theorem move_of_step {st st' : State n} {i : Fin n}
    (hs : Started st.sspTbl) (h : step cfg st i = some st') : Move cfg st i st' := by
  unfold step at h
  cases hpc : (st.workers i).pc with
  | read =>
      simp only [hpc] at h
      unfold readBranch at h
      by_cases hpull : (st.workers i).clock = 0 ∨ (st.workers i).clock = cfg.totalIters i
      · simp only [hpull, if_true, Option.some.injEq] at h
        subst h
        apply Move.served (.inl hpc)
        rcases hpull with h0 | hT
        · exact .inl h0
        · exact .inr (.inl hT)
      · have h0 : (st.workers i).clock ≠ 0 := fun h0 => hpull (.inl h0)
        by_cases hhit : (st.workers i).staleCache + cfg.limitS > (st.workers i).clock
        · simp only [hpull, hhit, if_true, if_false, Option.some.injEq] at h
          subst h
          exact .served (.inl hpc) (.inr (.inr (by omega)))
        · simp only [hpull, hhit, if_false, Option.some.injEq] at h
          subst h
          exact .missed hpc h0
  | wait =>
      simp only [hpc, mustPoll, decide_eq_true_eq, pullInt_serverClock hs, Option.map_some] at h
      split at h
      · rename_i hpoll
        cases h
        simpa only [hpc] using Move.polled hpc hpoll
      · rename_i hpass
        cases h
        exact .served (.inr hpc) (.inr (.inr (by omega)))
  | commit =>
      simp only [hpc, clockKey_eq, Option.some.injEq] at h
      subst h
      exact .committed hpc
  | finish =>
      simp only [hpc, Option.some.injEq] at h
      subst h
      exact .finished hpc
  | done =>
      simp only [hpc] at h
      cases h

/-- The server clock, the slots and the clocks of the workers are the same in both states. -/
structure SameClocks (st st' : State n) : Prop where
  server : serverClock st'.sspTbl = serverClock st.sspTbl
  slots : ∀ d, slot st'.sspTbl d = slot st.sspTbl d
  workers : ∀ j, (st'.workers j).clock = (st.workers j).clock

private theorem clock_update (st : State n) {i : Fin n} {w : Worker}
    (hw : w.clock = (st.workers i).clock) (j : Fin n) :
    (Function.update st.workers i w j).clock = (st.workers j).clock := by
  by_cases hj : j = i
  · subst hj
    simpa using hw
  · simp [hj]

/-- Only a commit moves a clock or a slot. -/
theorem commit_or_sameClocks {st st' : State n} {i : Fin n} (hs : Started st.sspTbl)
    (h : step cfg st i = some st') :
    ((st.workers i).pc = .commit ∧ st' =
      { sspTbl := commitTbl cfg st i
        workers :=
          Function.update st.workers i ((st.workers i).afterCommit (cfg.totalIters i)) }) ∨
    SameClocks st st' := by
  cases move_of_step hs h with
  | committed hpc => exact .inl ⟨hpc, rfl⟩
  | served hpc => exact .inr ⟨rfl, fun _ => rfl, clock_update st rfl⟩
  | missed hpc => exact .inr ⟨rfl, fun _ => rfl, clock_update st rfl⟩
  | polled hpc => exact .inr ⟨rfl, fun _ => rfl, clock_update st rfl⟩
  | finished hpc =>
      exact .inr ⟨serverClock_finish _, slot_finish _, clock_update st rfl⟩

end Moves

end Ssp

end Paracel
