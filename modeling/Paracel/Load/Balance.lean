import Paracel.Load.Steps
import Paracel.Misc.Run
import Paracel.Misc.Tally

/-!
# Every block is loaded once

The leader answers `ntasks + sz - 2 - blk_sz` requests. This file shows that these are
the requests the workers send, whatever the order in which they arrive: until the
last task is given the answers are the tasks in order, and from then on each
answer sends one more worker home.
-/

namespace Paracel.Schedule

open StepSystem

variable {w b : Nat}

/-! ### All ranks -/

/-- The blocks all ranks have loaded or have still to load as things stand. -/
def State.blocks (b : Nat) (st : State w) : Multiset Nat :=
  ↑(st.leader.loaded ++ st.leader.own b) + ∑ k, (st.view k).blocks

/-- The tasks given are the tasks up to `cnt`, and the answers after the last task are
    the workers that were sent home. -/
structure Inv (b : Nat) (st : State w) : Prop where
  leader : st.leader.Ok b
  view : ∀ k, (st.view k).Ok (lastTask w b)
  blocks : st.blocks b = Multiset.range (st.leader.cnt + 1)
  home : 0 < w → tally (fun v : View => v.given = lastTask w b) st.view =
    st.leader.cntControl + 1 - ntasks w b

variable {st st' : State w}

/-- The views after a step that changes one of them. -/
theorem view_eq_update {k : Fin w} (h : ∀ j, j ≠ k → st'.view j = st.view j) :
    st'.view = Function.update st.view k (st'.view k) := by
  funext j
  by_cases hj : j = k
  · subst hj
    rw [Function.update_self]
  · rw [Function.update_of_ne hj, h j hj]

theorem inv_init (hb : 0 < b) : Inv b (init w b) where
  leader := Leader.ok_init hb
  view k := ⟨rfl, rfl, fun h => absurd rfl h⟩
  blocks := by
    have hsucc : b - 1 + 1 = b := by omega
    simp [State.blocks, State.view, View.blocks, View.pending, Leader.own, init, hsucc,
      Multiset.range, List.range_eq_range']
  home hw := by
    have hlt := lt_ntasks hw hb
    have hzero : tally (fun v : View => v.given = lastTask w b) (init w b).view = 0 := by
      rw [Tally.eq_zero_iff]
      intro k
      simp only [View.given, State.view, init, lastTask]
      omega
    rw [hzero]
    simp only [init]
    omega

theorem Inv.leaderStep (hinv : Inv b st) (hb : 0 < b)
    (h : Schedule.leaderStep b st = some st') : Inv b st' := by
  obtain ⟨hchange, hview⟩ := leaderStep_cases h
  obtain ⟨hcontrol, hcnt⟩ := hchange.counters
  have hviews : st'.view = st.view := funext hview
  refine ⟨hchange.ok hb hinv.leader, fun k => hviews ▸ hinv.view k, ?_, ?_⟩
  · rw [State.blocks, hchange.blocks, hviews, hcnt]
    exact hinv.blocks
  · intro hw
    rw [hviews, hcontrol]
    exact hinv.home hw

/-- A `recv` of the leader: worker `src` waits for its answer, which is now under way. -/
structure Received (b : Nat) (st : State w) (src : Fin w) (st' : State w) : Prop where
  loop : st.leader.pc = .loop
  bound : st.leader.cntControl < bnd w b
  waits : (st.view src).worker.pc = .recvCnt
  asked : ∃ rk, (st.view src).requests = [rk]
  unread : (st.view src).unread = []
  more : (st.view src).given ≠ lastTask w b
  leader : st'.leader = st.leader.answer src
  answered : st'.view src = (st.view src).answered (st.leader.answer src).cnt
    (st.leader.answer src).flag
  other : ∀ k, k ≠ src → st'.view k = st.view k

theorem Inv.received {src : Fin w} (hinv : Inv b st) (h : Schedule.recvStep b st src = some st') :
    Received b st src st' := by
  obtain ⟨hpc, hlt, hleader, ⟨rk, rest, hreq, hsrc⟩, hother⟩ := recvStep_cases h
  obtain ⟨hwpc, rfl, hunread, hcnt⟩ := (hinv.view src).asked hreq
  rw [hunread, List.nil_append] at hsrc
  exact
    { loop := hpc
      bound := hlt
      waits := hwpc
      asked := ⟨rk, hreq⟩
      unread := hunread
      more := by simpa [View.given, hunread] using hcnt
      leader := hleader
      answered := hsrc
      other := hother }

theorem Inv.recvStep {src : Fin w} (hinv : Inv b st) (hb : 0 < b)
    (h : Schedule.recvStep b st src = some st') : Inv b st' := by
  have hr := hinv.received h
  have hl := hinv.leader.answer hb hr.loop hr.bound src
  have hviews := view_eq_update hr.other
  refine ⟨hr.leader ▸ hl, ?_, ?_, ?_⟩
  · intro j
    by_cases hj : j = src
    · subst hj
      rw [hr.answered]
      exact View.answered_ok hr.waits fun hflag => (hl.given hflag).1
    · exact hr.other j hj ▸ hinv.view j
  · have hsum := Tally.sum_update View.blocks st.view src (st'.view src)
    have hown : (st.leader.answer src).own b = st.leader.own b := by
      simp [Leader.own, Leader.answer, hr.loop]
    rw [← hviews, hr.answered, View.answered_blocks hr.waits hr.unread, add_left_comm, add_comm,
      add_left_cancel_iff] at hsum
    rw [State.blocks, hr.leader, hown, Leader.range_answer, ← hinv.blocks, State.blocks, hsum]
    exact (add_assoc _ _ _).symm
  · intro hw
    have htally := Tally.update (fun v : View => v.given = lastTask w b) st.view src
      (st'.view src)
    rw [← hviews, hr.answered, View.answered_given hr.waits, if_neg hr.more, hinv.home hw]
      at htally
    rw [hr.leader, hinv.leader.home_answer hr.loop]
    exact htally

theorem Inv.workerStep {k : Fin w} (hinv : Inv b st)
    (h : Schedule.workerStep b st k = some st') : Inv b st' := by
  obtain ⟨hleader, hchange, hother⟩ := workerStep_cases h
  have hviews := view_eq_update hother
  refine ⟨hleader ▸ hinv.leader, ?_, ?_, ?_⟩
  · intro j
    by_cases hj : j = k
    · subst hj
      exact hchange.ok (hinv.view j)
    · exact hother j hj ▸ hinv.view j
  · have hsum := Tally.sum_update View.blocks st.view k (st'.view k)
    rw [← hviews, hchange.blocks (hinv.view k), add_left_inj] at hsum
    rw [State.blocks, hsum, hleader]
    exact hinv.blocks
  · intro hw
    rw [hviews, hleader, Tally.update_of_iff, hinv.home hw]
    rw [hchange.given (hinv.view k)]

theorem Inv.step {a : Label w} (hb : 0 < b) (hinv : Inv b st)
    (h : Schedule.step b st a = some st') : Inv b st' := by
  cases a with
  | leader => exact hinv.leaderStep hb h
  | recv src => exact hinv.recvStep hb h
  | worker k => exact hinv.workerStep h

theorem inv_run (hb : 0 < b) {as : List (Label w)} {st : State w}
    (hrun : run (step b) (init w b) as = some st) : Inv b st :=
  run_invariant (fun _ _ _ => Inv.step hb) (inv_init hb) hrun

/-! ### Every run ends -/

/-- Falls with every step: an answer costs one turn of the leader's loop. -/
def State.measure (b : Nat) (st : State w) : Nat :=
  6 * (bnd w b - st.leader.cntControl) + st.leader.weight b + ∑ k, (st.view k).weight

theorem measure_lt {a : Label w} (hinv : Inv b st)
    (h : step b st a = some st') : st'.measure b < st.measure b := by
  cases a with
  | leader =>
      obtain ⟨hchange, hview⟩ := leaderStep_cases h
      have hlt := hchange.weight_lt hinv.leader
      rw [State.measure, State.measure, hchange.counters.1, funext hview]
      omega
  | recv src =>
      have hr := hinv.received h
      obtain ⟨rk, hreq⟩ := hr.asked
      have hlt := hr.bound
      have hsum := Tally.sum_update View.weight st.view src (st'.view src)
      rw [← view_eq_update hr.other, hr.answered, View.answered_weight hr.waits hreq] at hsum
      have hzero : st.leader.weight b = 0 := by simp [Leader.weight, hr.loop]
      have htwo : (st.leader.answer src).weight b = 2 := by simp [Leader.weight, Leader.answer]
      have hcontrol : (st.leader.answer src).cntControl = st.leader.cntControl + 1 := rfl
      rw [State.measure, State.measure, hr.leader, hzero, htwo, hcontrol]
      omega
  | worker k =>
      obtain ⟨hleader, hchange, hother⟩ := workerStep_cases h
      have hlt := hchange.weight_lt (hinv.view k)
      have hsum := Tally.sum_update View.weight st.view k (st'.view k)
      rw [← view_eq_update hother] at hsum
      rw [State.measure, State.measure, hleader]
      omega

theorem measure_init (w b : Nat) :
    (init w b).measure b = 6 * (bnd w b - b) + (b + 1) + 2 * w := by
  simp [State.measure, init, State.view, View.weight, Leader.weight, Nat.mul_comm]

/-! ### No rank waits for ever -/

/-- A worker that cannot go on while the leader is between two answers has left its loop
    or waits for the answer to a request under way. -/
theorem worker_of_stuck {st : State w} (hinv : Inv b st) (hpc : st.leader.pc = .loop) {k : Fin w}
    (hstuck : workerStep b st k = none) :
    ((st.workers k).pc = .done ∧ (st.view k).given = lastTask w b) ∨
      (st.view k).given ≠ lastTask w b ∧ ∃ rk, st.requests k = [rk] := by
  have hok := hinv.view k
  have howed : st.leader.owed k = [] := by simp [Leader.owed, hpc]
  unfold workerStep at hstuck
  cases hwpc : (st.workers k).pc with
  | loop =>
      simp only [hwpc] at hstuck
      split at hstuck <;> cases hstuck
  | recvCnt =>
      cases hrep : st.replies k with
      | cons => simp [hwpc, hrep] at hstuck
      | nil =>
          simp only [View.Ok, State.view, hwpc, hrep, howed, List.append_nil] at hok
          rcases hok with ⟨hreq, -, hcnt⟩ | ⟨-, cnt, flag, hnil, -⟩
          · exact .inr ⟨by simpa [View.given, State.view, hrep, howed] using hcnt, hreq⟩
          · cases hnil
  | recvFlag =>
      cases hrep : st.replies k with
      | cons => simp [hwpc, hrep] at hstuck
      | nil =>
          simp only [View.Ok, State.view, hwpc, hrep, howed, List.append_nil] at hok
          rcases hok with ⟨-, flag, hnil, -⟩
          cases hnil
  | done =>
      simp only [View.Ok, State.view, hwpc] at hok
      exact .inl ⟨rfl, by simpa [View.given, State.view, hwpc] using hok.2.2⟩

theorem leader_of_stuck {st : State w} (hstuck : leaderStep b st = none) :
    st.leader.pc = .loop := by
  unfold leaderStep at hstuck
  cases hpc : st.leader.pc with
  | loop => rfl
  | first i =>
      simp only [hpc] at hstuck
      split at hstuck <;> cases hstuck
  | sendCnt | sendFlag => simp [hpc] at hstuck

theorem finished_of_stuck (hb : 0 < b) {st : State w} (hinv : Inv b st)
    (hstuck : Stuck (step b) st) : st.Finished b := by
  have hpc : st.leader.pc = .loop := leader_of_stuck (hstuck .leader)
  have hworker := fun k => worker_of_stuck hinv hpc (hstuck (.worker k))
  have hhome := Tally.eq_card_iff (fun v : View => v.given = lastTask w b) st.view
  rw [Fintype.card_fin] at hhome
  have hn := le_ntasks w b
  have hbound : ¬st.leader.cntControl < bnd w b := by
    intro hlt
    have hw : 0 < w := by
      rcases Nat.eq_zero_or_pos w with rfl | hw
      · have hstart := hinv.leader.start
        simp only [bnd, ntasks] at hlt
        omega
      · exact hw
    have hall : ∀ k, (st.view k).given = lastTask w b := by
      intro k
      rcases hworker k with ⟨-, hgiven⟩ | ⟨-, rk, hreq⟩
      · exact hgiven
      · -- the leader can receive that request
        have hrecv : recvStep b st k = none := hstuck (.recv k)
        simp [recvStep, hpc, hreq, hlt] at hrecv
    have hcount := (hinv.home hw).symm.trans (hhome.mpr hall)
    simp only [bnd] at hlt
    omega
  refine ⟨hpc, hbound, ?_⟩
  intro k
  have hle := hinv.leader.bound k.pos
  have hall := hhome.mp (by
    rw [hinv.home k.pos]
    simp only [bnd] at hle hbound
    omega)
  rcases hworker k with ⟨hdone, -⟩ | ⟨hne, -⟩
  · exact hdone
  · exact absurd (hall k) hne

theorem stuck_of_finished {st : State w} (hfin : st.Finished b) : Stuck (step b) st := by
  intro a
  cases a with
  | leader => simp [step, leaderStep, hfin.leader]
  | recv src =>
      simp only [step, recvStep, hfin.leader]
      cases st.requests src with
      | nil => rfl
      | cons => simp [hfin.bound]
  | worker k => simp [step, workerStep, hfin.workers]

/-! ### What the ranks have loaded in the end -/

theorem cnt_of_finished (hb : 0 < b) {st : State w} (hinv : Inv b st) (hfin : st.Finished b) :
    st.leader.cnt + 1 = ntasks w b := by
  have hn := le_ntasks w b
  have hstart := hinv.leader.start
  have hbound := hfin.bound
  have hntasks : w = 0 → ntasks w b = b := by
    rintro rfl
    simp [ntasks]
  simp only [bnd] at hbound
  by_cases hflag : st.leader.flag = 0
  · obtain ⟨hcount, hle⟩ := hinv.leader.counting hflag
    simp only [lastTask] at hle
    omega
  · obtain ⟨hlast, -⟩ := hinv.leader.given hflag
    simp only [lastTask] at hlast
    omega

theorem view_of_finished {st : State w} (hinv : Inv b st) (hfin : st.Finished b) (k : Fin w) :
    st.requests k = [] ∧ st.replies k = [] := by
  have hok := hinv.view k
  have howed : st.leader.owed k = [] := by simp [Leader.owed, hfin.leader]
  simp only [View.Ok, State.view, hfin.workers, howed, List.append_nil] at hok
  exact ⟨hok.1, hok.2.1⟩

theorem blocks_of_finished {st : State w} (hfin : st.Finished b) :
    st.blocks b = ∑ rk, (st.loaded rk : Multiset Nat) := by
  rw [Fin.sum_univ_succ, State.blocks]
  simp [State.loaded, View.blocks, View.pending, State.view, Leader.own, hfin.leader, hfin.workers]

/-- The blocks of `structure_load` on `n` ranks. -/
theorem sum_range' (n b : Nat) :
    ∑ rk : Fin n, (↑(List.range' (rk * b) ((rk + 1) * b - rk * b)) : Multiset Nat) =
      Multiset.range (n * b) := by
  induction n with
  | zero => simp
  | succ n ih =>
      have hlen : (n + 1) * b - n * b = b := by rw [Nat.add_mul, Nat.one_mul]; omega
      rw [Fin.sum_univ_castSucc]
      simp only [Fin.val_castSucc, Fin.val_last]
      rw [ih, hlen, Nat.add_mul, Nat.one_mul, Multiset.range, Multiset.range, List.range_add,
        ← Multiset.coe_add, List.range'_eq_map_range]

/-- The lines of a sum of blocks. -/
theorem sum_flatMap {ι Line : Type} [Fintype ι] (blocks : ι → List Nat) (lines : Nat → List Line) :
    ∑ i, (↑((blocks i).flatMap lines) : Multiset Line) =
      (∑ i, (blocks i : Multiset Nat)).bind fun i => lines i := by
  classical
  have hsum : ∀ s : Finset ι, ∑ i ∈ s, (↑((blocks i).flatMap lines) : Multiset Line) =
      (∑ i ∈ s, (blocks i : Multiset Nat)).bind fun i => lines i := by
    intro s
    induction s using Finset.induction_on with
    | empty => rfl
    | insert i s hi ih =>
        rw [Finset.sum_insert hi, Finset.sum_insert hi, Multiset.add_bind, ih, Multiset.coe_bind]
  exact hsum Finset.univ

/-- Whatever the order of the requests, no run of the ranks goes on for ever or stops
    before every rank is past its loop; then no request and no answer is left, every
    block has been loaded by one rank, once, and the lines are those that
    `structure_load` gives. -/
theorem schedule_load_exact (hb : 0 < b) {as : List (Label w)} {st : State w}
    (hrun : run (step b) (init w b) as = some st) :
    as.length ≤ 6 * (bnd w b - b) + (b + 1) + 2 * w ∧
    (Stuck (step b) st ↔ st.Finished b) ∧
    (st.Finished b →
      (∀ k, st.requests k = [] ∧ st.replies k = []) ∧
      ∑ rk, (st.loaded rk : Multiset Nat) = Multiset.range ((w + 1) * b) ∧
      ∀ (Line : Type) (lines : Nat → List Line),
        ∑ rk, (st.result lines rk : Multiset Line) =
          ∑ rk : Fin (w + 1), (structureLoad lines b rk : Multiset Line)) := by
  have hinv := inv_run hb hrun
  refine ⟨?_, ⟨finished_of_stuck hb hinv, stuck_of_finished⟩, ?_⟩
  · have hlen := run_length_le (State.measure b)
      (fun _ _ _ hs h => ⟨hs.step hb h, measure_lt hs h⟩) (inv_init hb) hrun
    rw [measure_init] at hlen
    omega
  · intro hfin
    have hblocks : ∑ rk, (st.loaded rk : Multiset Nat) = Multiset.range ((w + 1) * b) := by
      rw [← blocks_of_finished hfin, hinv.blocks, cnt_of_finished hb hinv hfin, ntasks]
    refine ⟨view_of_finished hinv hfin, hblocks, ?_⟩
    intro Line lines
    simp only [State.result, structureLoad]
    rw [sum_flatMap, sum_flatMap, hblocks, sum_range']

/-- Two workers and one block for each rank: worker 1 takes the last task, and worker 0
    is sent home. -/
def twoWorkers : List (Label 2) :=
  [.leader, .leader, .worker 0, .worker 1, .recv 0, .leader, .leader, .worker 0, .worker 0,
    .worker 0, .recv 1, .leader, .leader, .worker 1, .worker 1, .worker 1, .recv 0, .leader,
    .leader, .worker 0, .worker 0, .worker 0]

theorem schedule_load_exact_twoWorkers :
    ∃ st : State 2,
      run (step (blkSz (lit "linesplit"))) (init 2 (blkSz (lit "linesplit"))) twoWorkers = some st ∧
      st.Finished (blkSz (lit "linesplit")) ∧
      ∑ rk, (st.loaded rk : Multiset Nat) = Multiset.range 3 := by
  have hblk : blkSz (lit "linesplit") = 1 := by decide
  have hends : (run (step 1) (init 2 1) twoWorkers).map
      (fun st => (st.leader.pc, st.leader.cntControl, (st.workers 0).pc, (st.workers 1).pc)) =
      some (.loop, 4, .done, .done) := by rfl
  obtain ⟨st, hrun, hst⟩ := Option.map_eq_some_iff.mp hends
  obtain ⟨hleader, hcontrol, hzero, hone⟩ := by simpa only [Prod.mk.injEq] using hst
  have hfin : st.Finished 1 :=
    { leader := hleader
      bound := by rw [hcontrol]; decide
      workers := Fin.forall_fin_two.mpr ⟨hzero, hone⟩ }
  rw [← hblk] at hrun hfin
  obtain ⟨-, hloaded, -⟩ := (schedule_load_exact (blkSz_pos _) hrun).2.2 hfin
  rw [hblk] at hloaded
  exact ⟨st, hrun, hfin, hloaded⟩

end Paracel.Schedule
