import Paracel.Ssp.Invariant

/-!
# When the polling loops cannot block everybody

A worker that finishes sends two requests: the commit that is counted in a slot
and the decrement of `worker_sz`. Between the two, the other workers still wait
for it to be counted in later slots. This file shows that a state in which all
running workers are blocked is reached in one way only, through such a
decrement, and that it is then never left.
-/

namespace Paracel.Ssp

open StepSystem

variable {n : Nat} {cfg : Config n} {st st' : State n} {i : Fin n}

/-- Worker `j` is unfinished and does not have to wait: the server clock lets it
    read, or all it has left to do is to lower `worker_sz`. -/
def CanGo (cfg : Config n) (st : State n) (j : Fin n) : Prop :=
  (st.workers j).pc ≠ .done ∧
    ((st.workers j).pc = .finish ∨
      ((st.workers j).clock : Int) ≤ serverClock st.sspTbl + cfg.limitS)

/-- While some worker is unfinished, not all unfinished workers are blocked. -/
def Live (cfg : Config n) (st : State n) : Prop :=
  (∃ j, (st.workers j).pc ≠ .done) → ∃ j, CanGo cfg st j

/-- The step of worker `i` is not a decrement of `worker_sz` that comes when all
    other unfinished workers are blocked. -/
def LeavesOneGoing (cfg : Config n) (st : State n) (i : Fin n) : Prop :=
  (st.workers i).pc = .finish → (∃ j ≠ i, (st.workers j).pc ≠ .done) → ∃ j ≠ i, CanGo cfg st j

theorem live_init (cfg : Config n) : Live cfg (init n) := by
  rintro ⟨j, -⟩
  refine ⟨j, by simp, .inr ?_⟩
  simp

/-- A worker that goes from one point of its loop to another stays as able to go. -/
theorem canGo_setWorker {w : Worker} (hclock : w.clock = (st.workers i).clock)
    (hw : w.pc.looping) (hi : (st.workers i).pc.looping) (j : Fin n) :
    CanGo cfg (st.setWorker i w) j ↔ CanGo cfg st j := by
  unfold CanGo
  by_cases hj : j = i
  · subst hj
    have hdone : ∀ pc : Pc, pc.looping → pc ≠ .done ∧ pc ≠ .finish := by
      rintro (_ | _ | _ | _ | _) <;> simp [Pc.looping]
    simp [State.setWorker, hclock, hdone _ hw, hdone _ hi]
  · simp [State.setWorker, hj]

theorem live_setWorker {w : Worker} (hclock : w.clock = (st.workers i).clock)
    (hw : w.pc.looping) (hi : (st.workers i).pc.looping) (hlive : Live cfg st) :
    Live cfg (st.setWorker i w) := by
  rintro -
  have hrun : (st.workers i).pc ≠ .done := by
    intro h
    simp [h, Pc.looping] at hi
  obtain ⟨j, hj⟩ := hlive ⟨i, hrun⟩
  exact ⟨j, (canGo_setWorker hclock hw hi j).mpr hj⟩

/-- A commit leaves somebody going. Were it to block its worker and find all others
    blocked, its slot would already hold two for each of them and would tick. -/
theorem live_committed (hi : Inv cfg st) (hpc : (st.workers i).pc = .commit) :
    Live cfg
      { sspTbl := commitTbl cfg st i
        workers :=
          Function.update st.workers i ((st.workers i).afterCommit (cfg.totalIters i)) } := by
  rintro -
  by_contra hnone
  rw [not_exists] at hnone
  have hpassed := (hi.worker i).passed hpc
  have hself := hnone i
  simp only [CanGo, serverClock_commitTbl hi.started, Function.update_self,
    Worker.afterCommit_pc, Worker.afterCommit_clock] at hself
  -- the committing worker stands one clock beyond the bound, and its slot did not tick
  have hlast : (st.workers i).clock + 1 ≠ cfg.totalIters i := fun h => by simp [h] at hself
  have hnotick : ¬Ticks cfg st i := by
    intro htick
    simp only [hlast, htick, if_false, if_true] at hself
    refine hself ⟨by simp, .inr ?_⟩
    push_cast
    omega
  have hat : ((st.workers i).clock : Int) = serverClock st.sspTbl + cfg.limitS := by
    simp only [hlast, hnotick, if_false] at hself
    have hlt : ¬(((st.workers i).clock + 1 : Nat) : Int) ≤ serverClock st.sspTbl + cfg.limitS :=
      fun hle => hself ⟨by simp, .inr hle⟩
    push_cast at hlt
    omega
  -- so do all other unfinished workers, and they have been counted in that slot
  have hcount := hi.counted (st.workers i).clock hat
  have hall : unfinished (Function.update st.workers i
        ((st.workers i).afterCommit (cfg.totalIters i))) ≤
      atClock ((st.workers i).clock + 1) (Function.update st.workers i
        ((st.workers i).afterCommit (cfg.totalIters i))) := by
    apply Tally.mono _ _
    intro j hj
    by_cases hji : j = i
    · subst hji
      simp
    · have hblocked := hnone j
      simp only [CanGo, serverClock_commitTbl hi.started, hnotick, if_false,
        Function.update_of_ne hji] at hblocked hj ⊢
      have hahead := (hi.worker j).ahead
      have hgt : ¬((st.workers j).clock : Int) ≤ serverClock st.sspTbl + cfg.limitS :=
        fun hle => hblocked ⟨hj, .inr hle⟩
      omega
  have hrunning : unfinished (Function.update st.workers i
      ((st.workers i).afterCommit (cfg.totalIters i))) = unfinished st.workers := by
    apply Tally.update_of_iff _
    simp [Worker.afterCommit_pc, hlast, hpc]
  have hmore := Tally.update (fun w : Worker => w.clock = (st.workers i).clock + 1) st.workers i
    ((st.workers i).afterCommit (cfg.totalIters i))
  rw [Worker.afterCommit_clock, if_pos rfl, if_neg (by omega)] at hmore
  apply hnotick
  unfold Ticks Due
  have hsize := hi.size
  unfold atClock at hall hcount
  omega

/-- A decrement keeps somebody going exactly if another worker can go, or none is left. -/
theorem live_finished_iff (hpc : (st.workers i).pc = .finish) :
    Live cfg
      { sspTbl := finishTbl st
        workers := Function.update st.workers i { st.workers i with pc := .done } } ↔
    LeavesOneGoing cfg st i := by
  have hother : ∀ j ≠ i, (CanGo cfg
      { sspTbl := finishTbl st
        workers := Function.update st.workers i { st.workers i with pc := .done } } j ↔
      CanGo cfg st j) := fun j hj => by
    simp [CanGo, finishTbl, hj]
  constructor
  · rintro hlive - ⟨j, hji, hj⟩
    obtain ⟨k, hk⟩ := hlive ⟨j, by simpa [hji] using hj⟩
    have hki : k ≠ i := by
      rintro rfl
      simp [CanGo] at hk
    exact ⟨k, hki, (hother k hki).mp hk⟩
  · rintro hleaves ⟨j, hj⟩
    have hji : j ≠ i := by
      rintro rfl
      simp at hj
    obtain ⟨k, hki, hk⟩ := hleaves hpc ⟨j, hji, by simpa [hji] using hj⟩
    exact ⟨k, (hother k hki).mpr hk⟩

/-- What decides whether a step keeps somebody going. -/
theorem live_step_iff (hi : Inv cfg st) (hlive : Live cfg st) (hstep : step cfg st i = some st') :
    Live cfg st' ↔ LeavesOneGoing cfg st i := by
  have hnot : (st.workers i).pc ≠ .finish → LeavesOneGoing cfg st i :=
    fun hne hpc => absurd hpc hne
  cases move_of_step hi.started hstep with
  | served hpc =>
      have hloop : (st.workers i).pc.looping := by
        rcases hpc with hpc | hpc <;> simp [hpc, Pc.looping]
      have hne : (st.workers i).pc ≠ .finish := by rcases hpc with hpc | hpc <;> simp [hpc]
      exact iff_of_true (live_setWorker rfl rfl hloop hlive) (hnot hne)
  | missed hpc =>
      have hloop : (st.workers i).pc.looping := by simp [hpc, Pc.looping]
      exact iff_of_true (live_setWorker rfl rfl hloop hlive) (hnot (by simp [hpc]))
  | polled hpc =>
      have hloop : (st.workers i).pc.looping := by simp [hpc, Pc.looping]
      exact iff_of_true (live_setWorker rfl hloop hloop hlive) (hnot (by simp [hpc]))
  | committed hpc => exact iff_of_true (live_committed hi hpc) (hnot (by simp [hpc]))
  | finished hpc => exact live_finished_iff hpc

/-! ### A deadlock is for good -/

/-- In a deadlock no worker gets out of its polling loop. -/
theorem sameClocks_of_not_live (hi : Inv cfg st) (hdead : ¬Live cfg st)
    (hstep : step cfg st i = some st') : SameClocks st st' ∧ ¬Live cfg st' := by
  have hnone : ∀ j, ¬CanGo cfg st j := fun j hj => hdead fun _ => ⟨j, hj⟩
  obtain ⟨k, hk⟩ : ∃ j, (st.workers j).pc ≠ .done := by
    by_contra hall
    exact hdead fun h => absurd h hall
  have hw := hi.worker i
  -- a change of worker `i` inside its loop frees nobody
  have hstill : ∀ w : Worker, w.clock = (st.workers i).clock → w.pc.looping →
      (st.workers i).pc.looping →
      SameClocks st (st.setWorker i w) ∧ ¬Live cfg (st.setWorker i w) := by
    intro w hclock hwl hil
    refine ⟨⟨rfl, fun _ => rfl, ?_⟩, ?_⟩
    · intro j
      by_cases hj : j = i
      · subst hj
        simpa [State.setWorker] using hclock
      · simp [State.setWorker, hj]
    · intro hlive
      have hwdone : w.pc ≠ .done := by
        intro h
        simp [h, Pc.looping] at hwl
      obtain ⟨j, hj⟩ := hlive ⟨i, by simpa [State.setWorker] using hwdone⟩
      exact hnone j ((canGo_setWorker hclock hwl hil j).mp hj)
  have hblocked : (st.workers i).pc ≠ .done →
      ¬((st.workers i).clock : Int) ≤ serverClock st.sspTbl + cfg.limitS :=
    fun hrun hle => hnone i ⟨hrun, .inr hle⟩
  have hstale := hw.stale_le
  have hn := hi.clock_nonneg
  cases move_of_step hi.started hstep with
  | served hpc hpass =>
      have hrun : (st.workers i).pc ≠ .done := by rcases hpc with hpc | hpc <;> simp [hpc]
      have hlt := hw.clock_lt (by rcases hpc with hpc | hpc <;> rw [hpc] <;> rfl)
      have := hblocked hrun
      omega
  | missed hpc => exact hstill _ rfl rfl (by simp [hpc, Pc.looping])
  | polled hpc => exact hstill _ rfl (by simp [hpc, Pc.looping]) (by simp [hpc, Pc.looping])
  | committed hpc => exact absurd (hw.passed hpc) (hblocked (by simp [hpc]))
  | finished hpc => exact absurd ⟨by simp [hpc], .inl hpc⟩ (hnone i)

/-- Once all unfinished workers are blocked they stay so: no run makes another commit. -/
theorem deadlock_run {as : List (Fin n)} {t : State n} (hi : Inv cfg st)
    (hdead : ¬Live cfg st) (hrun : run (step cfg) st as = some t) :
    SameClocks st t ∧ ¬Live cfg t := by
  have hall : Inv cfg t ∧ SameClocks st t ∧ ¬Live cfg t :=
    run_invariant (P := fun s => Inv cfg s ∧ SameClocks st s ∧ ¬Live cfg s)
      (fun s _ s' ⟨hinv, hsame, hd⟩ hstep => by
        obtain ⟨hsame', hd'⟩ := sameClocks_of_not_live hinv hd hstep
        exact ⟨hinv.step hstep,
          ⟨hsame'.server.trans hsame.server, fun d => (hsame'.slots d).trans (hsame.slots d),
            fun j => (hsame'.workers j).trans (hsame.workers j)⟩, hd'⟩)
      ⟨hi, ⟨rfl, fun _ => rfl, fun _ => rfl⟩, hdead⟩ hrun
  exact hall.2

/-- Three workers with one, one and four iterations and no staleness allowed. -/
def unevenIters : Config 3 :=
  { limitS := 0, totalIters := fun i => if i = 2 then 4 else 1 }

end Paracel.Ssp
