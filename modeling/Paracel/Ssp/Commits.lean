import Mathlib.Logic.Equiv.Basic
import Paracel.Ssp.Invariant

/-!
# The commits of a run

The clock thread sees the commits one after another, whichever workers they come
from. This file keeps them as a list and shows which lists some scheduler can
bring about: a worker that the server lets read can go through its next read and
commit before anybody else moves.
-/

namespace Paracel.Ssp

open StepSystem

/-- A commit as it is counted: its slot, the clock of its worker, and whether the slot is reset
    with it. -/
structure Commit where
  slot : Nat
  clock : Nat
  resets : Bool
deriving DecidableEq

variable {n : Nat} {cfg : Config n}

/-- The commit that worker `i` makes next. -/
def commitOf (cfg : Config n) (st : State n) (i : Fin n) : Commit :=
  { slot := slotOf cfg.limitS (st.workers i).clock
    clock := (st.workers i).clock
    resets := decide (Ticks cfg st i) }

/-- The commits of a run, in the order in which the server handles them. -/
def commits (cfg : Config n) : State n → List (Fin n) → List Commit
  | _, [] => []
  | st, i :: is =>
      match step cfg st i with
      | none => []
      | some st' =>
          (if (st.workers i).pc = .commit then [commitOf cfg st i] else []) ++ commits cfg st' is

/-- Some run with these commits leads from one state to the other. -/
def Leads (cfg : Config n) (st : State n) (h : List Commit) (st' : State n) : Prop :=
  ∃ is, run (step cfg) st is = some st' ∧ commits cfg st is = h

section Leads

variable {st m st' : State n} {h h' : List Commit} {i : Fin n}

theorem commits_cons (hstep : step cfg st i = some st') (is : List (Fin n)) :
    commits cfg st (i :: is) =
      (if (st.workers i).pc = .commit then [commitOf cfg st i] else []) ++
        commits cfg st' is := by
  rw [commits, hstep]

theorem commits_append {is js : List (Fin n)} (hrun : run (step cfg) st is = some m) :
    commits cfg st (is ++ js) = commits cfg st is ++ commits cfg m js := by
  induction is generalizing st with
  | nil =>
      cases hrun
      rfl
  | cons i is ih =>
      obtain ⟨st', hstep, hrest⟩ := Option.bind_eq_some_iff.mp hrun
      rw [List.cons_append, commits_cons hstep, commits_cons hstep, ih hrest, List.append_assoc]

theorem Leads.refl (st : State n) : Leads cfg st [] st :=
  ⟨[], rfl, rfl⟩

theorem Leads.trans (hfirst : Leads cfg st h m) (hsecond : Leads cfg m h' st') :
    Leads cfg st (h ++ h') st' := by
  obtain ⟨is, hrun, rfl⟩ := hfirst
  obtain ⟨js, hrun', rfl⟩ := hsecond
  refine ⟨is ++ js, ?_, commits_append hrun⟩
  rw [run_append, hrun]
  exact hrun'

/-- A step that is no commit. -/
theorem Leads.quiet (hpc : (st.workers i).pc ≠ .commit) (hstep : step cfg st i = some st') :
    Leads cfg st [] st' :=
  ⟨[i], by simp [hstep], by rw [commits_cons hstep, if_neg hpc]; rfl⟩

theorem Leads.commit (hpc : (st.workers i).pc = .commit) (hstep : step cfg st i = some st') :
    Leads cfg st [commitOf cfg st i] st' :=
  ⟨[i], by simp [hstep], by rw [commits_cons hstep, if_pos hpc]; rfl⟩

theorem Leads.reachable (hleads : Leads cfg st h st') : Reachable (step cfg) st st' := by
  obtain ⟨is, hrun, -⟩ := hleads
  exact ⟨is, hrun⟩

end Leads

/-! ### Getting ahead -/

/-- What the next commit of worker `i`, made from `st`, leads to. -/
structure Committed (cfg : Config n) (st : State n) (i : Fin n) (st' : State n) : Prop where
  table : st'.sspTbl = commitTbl cfg st i
  clock : (st'.workers i).clock = (st.workers i).clock + 1
  pc : (st'.workers i).pc =
    if (st.workers i).clock + 1 = cfg.totalIters i then .finish else .read
  other : ∀ j ≠ i, st'.workers j = st.workers j

private theorem exists_committed_of_commit {st : State n} {i : Fin n} {w : Worker}
    (hclock : w.clock = (st.workers i).clock) (hpc : w.pc = .commit)
    (hr : Leads cfg st [] (st.setWorker i w)) :
    ∃ st', Leads cfg st [commitOf cfg st i] st' ∧ Committed cfg st i st' := by
  have hworker : (st.setWorker i w).workers i = w := by simp [State.setWorker]
  have hstep : step cfg (st.setWorker i w) i = some
      { sspTbl := commitTbl cfg st i
        workers := Function.update (Function.update st.workers i w) i
          (w.afterCommit (cfg.totalIters i)) } := by
    simp [step, State.setWorker, hpc, hclock, clockKey_eq, commitTbl]
  have hsame : commitOf cfg (st.setWorker i w) i = commitOf cfg st i := by
    simp only [commitOf, Ticks, hworker, hclock]
    rfl
  have hlast := Leads.commit (by rw [hworker]; exact hpc) hstep
  rw [hsame] at hlast
  exact ⟨_, hr.trans hlast, rfl, by simp [hclock], by simp [Worker.afterCommit_pc, hclock],
    fun j hj => by simp [hj]⟩

/-- A worker that the server lets read can go through its next read and commit. -/
theorem exists_committed (cfg : Config n) {st : State n} {i : Fin n} (hs : Started st.sspTbl)
    (hpc : (st.workers i).pc = .read)
    (hle : ((st.workers i).clock : Int) ≤ serverClock st.sspTbl + cfg.limitS) :
    ∃ st', Leads cfg st [commitOf cfg st i] st' ∧ Committed cfg st i st' := by
  have hread : (st.workers i).pc ≠ .commit := by
    rw [hpc]
    exact Pc.noConfusion
  cases hbranch : readBranch cfg.limitS (cfg.totalIters i) (st.workers i).clock
      (st.workers i).staleCache with
  | pull | hit =>
      refine exists_committed_of_commit (w := { st.workers i with pc := .commit }) rfl rfl
        (.quiet (i := i) hread ?_)
      simp [step, hpc, hbranch]
  | miss =>
      have hmiss : Leads cfg st [] (st.setWorker i { st.workers i with pc := .wait }) :=
        .quiet (i := i) hread (by simp [step, hpc, hbranch])
      by_cases hpoll : mustPoll cfg.limitS (st.workers i).clock (st.workers i).staleCache
      · have hpolled : Leads cfg st [] (st.setWorker i
            { st.workers i with pc := .wait, staleCache := serverClock st.sspTbl }) :=
          hmiss.trans (.quiet (i := i) (by simp [State.setWorker])
            (by simp [step, State.setWorker, hpoll, pullInt_serverClock hs]))
        refine exists_committed_of_commit (w := { st.workers i with
          pc := .commit, staleCache := serverClock st.sspTbl }) rfl rfl
          (hpolled.trans (.quiet (i := i) (by simp [State.setWorker]) ?_))
        have hpass : ¬mustPoll cfg.limitS (st.workers i).clock (serverClock st.sspTbl) := by
          simpa [mustPoll] using hle
        simp [step, State.setWorker, hpass]
      · refine exists_committed_of_commit (w := { st.workers i with pc := .commit }) rfl rfl
          (hmiss.trans (.quiet (i := i) (by simp [State.setWorker]) ?_))
        simp [step, State.setWorker, hpoll]

theorem slotOf_zero (limitS : Nat) : slotOf limitS 0 = 0 := by
  simp [slotOf]

/-- With no more iterations than slots, a slot is the clock it counts. -/
theorem slotOf_eq_self {limitS c : Nat} (hc : c < max 1 limitS) : slotOf limitS c = c := by
  unfold slotOf
  split
  · omega
  · exact Nat.mod_eq_of_lt (by omega)

/-- What the invariant and every step keep gives a property of all commits of a run. -/
theorem forall_commits {Q : State n → Prop} {P : Commit → Prop}
    (hstep : ∀ st i st', Q st → step cfg st i = some st' → Q st')
    (hcommit : ∀ st i, Q st → (st.workers i).pc = .commit → P (commitOf cfg st i))
    {st : State n} (hst : Q st) (is : List (Fin n)) : ∀ c ∈ commits cfg st is, P c := by
  induction is generalizing st with
  | nil => simp [commits]
  | cons i is ih =>
      cases h : step cfg st i with
      | none => simp [commits, h]
      | some st' =>
          rw [commits_cons h, List.forall_mem_append]
          refine ⟨?_, ih (hstep st i st' hst h)⟩
          split
          · rename_i hpc
            simpa using hcommit st i hst hpc
          · simp

/-- Up to its first commit a run moves no clock and no slot. -/
theorem commits_cases {st : State n} (hi : Inv cfg st) (is : List (Fin n)) :
    commits cfg st is = [] ∨ ∃ m i js, Inv cfg m ∧ SameClocks st m ∧
      (m.workers i).pc = .commit ∧ ∃ m', step cfg m i = some m' ∧
        commits cfg st is = commitOf cfg m i :: commits cfg m' js := by
  induction is generalizing st with
  | nil => exact .inl rfl
  | cons i is ih =>
      cases h : step cfg st i with
      | none => exact .inl (by rw [commits, h])
      | some st' =>
          rw [commits_cons h]
          by_cases hpc : (st.workers i).pc = .commit
          · rw [if_pos hpc]
            exact .inr ⟨st, i, is, hi, ⟨rfl, fun _ => rfl, fun _ => rfl⟩, hpc, st', h, rfl⟩
          · rw [if_neg hpc, List.nil_append]
            have hsame := (commit_or_sameClocks hi.started h).resolve_left fun hc => hpc hc.1
            rcases ih (hi.step h) with hnil | ⟨m, j, js, him, hsame', hpcm, m', hm', hcons⟩
            · exact .inl hnil
            · refine .inr ⟨m, j, js, him, ⟨?_, ?_, ?_⟩, hpcm, m', hm', hcons⟩
              · rw [hsame'.server, hsame.server]
              · intro d
                rw [hsame'.slots, hsame.slots]
              · intro k
                rw [hsame'.workers, hsame.workers]

/-! ### The first commits -/

section First

variable (hpos : ∀ i, 0 < cfg.totalIters i) (e : Fin n ≃ Fin n)
include hpos

/-- The first half of the workers, in any order, commit once each without a tick. -/
theorem first_commits {m : Nat} (hm : 2 * m ≤ n) :
    ∃ h st, Leads cfg (init n) h st ∧ workerSz st.sspTbl = n ∧ serverClock st.sspTbl = 0 ∧
      slot st.sspTbl 0 = 2 * m ∧ (∀ j : Fin n, m ≤ j → st.workers (e j) = {}) ∧
      ∀ j : Fin n, (j : Nat) < m → (st.workers (e j)).clock = 1 ∧
        (st.workers (e j)).pc = if 1 = cfg.totalIters (e j) then .finish else .read := by
  induction m with
  | zero =>
      exact ⟨[], init n, Leads.refl _, by simp, by simp, by simp, fun j _ => by simp,
        fun j hj => absurd hj (Nat.not_lt_zero j)⟩
  | succ m ih =>
      obtain ⟨h, st, hr, hsize, hclock, hslot, hfresh, hfirst⟩ := ih (by omega)
      have hi := Inv.of_reachable hpos hr.reachable
      have hlt : m < n := by omega
      have hw : st.workers (e ⟨m, hlt⟩) = {} := hfresh ⟨m, hlt⟩ (le_refl m)
      obtain ⟨st', hr', hc⟩ := exists_committed cfg (i := e ⟨m, hlt⟩) hi.started (by rw [hw])
        (by simp [hw, hclock])
      have hno : ¬Ticks cfg st (e ⟨m, hlt⟩) := by
        simp only [Ticks, Due, hw, slotOf_zero, hsize, hslot]
        omega
      have hother : ∀ j : Fin n, (j : Nat) ≠ m → st'.workers (e j) = st.workers (e j) := by
        intro j hj
        exact hc.other _ fun heq => hj (congrArg Fin.val (e.injective heq))
      refine ⟨_, st', hr.trans hr', ?_, ?_, ?_, ?_, ?_⟩
      · rw [hc.table, workerSz_commitTbl hi.started, hsize]
      · rw [hc.table, serverClock_commitTbl hi.started, if_neg hno, hclock]
      · rw [hc.table, slot_commitTbl hi.started, hw, if_pos (slotOf_zero _).symm, if_neg hno,
          hslot]
        push_cast
        omega
      · intro j hj
        rw [hother j (by omega)]
        exact hfresh j (by omega)
      · intro j hj
        by_cases hjm : (j : Nat) = m
        · obtain rfl : j = ⟨m, hlt⟩ := Fin.ext hjm
          have hclock' := hc.clock
          have hpc' := hc.pc
          rw [hw] at hclock' hpc'
          exact ⟨hclock', hpc'⟩
        · rw [hother j hjm]
          exact hfirst j (by omega)

/-- Among three or more workers the clock ticks when the first one has committed and the last
    one has not. -/
theorem first_tick (hn : 3 ≤ n) :
    ∃ h st, Leads cfg (init n) h st ∧ workerSz st.sspTbl = n ∧ serverClock st.sspTbl = 1 ∧
      slot st.sspTbl 0 = 1 ∧ st.workers (e ⟨n - 1, by omega⟩) = {} ∧
      (st.workers (e ⟨0, by omega⟩)).clock = 1 ∧
      (st.workers (e ⟨0, by omega⟩)).pc =
        if 1 = cfg.totalIters (e ⟨0, by omega⟩) then .finish else .read := by
  obtain ⟨h, st, hr, hsize, hclock, hslot, hfresh, hfirst⟩ :=
    first_commits hpos e (m := n / 2) (by omega)
  have hi := Inv.of_reachable hpos hr.reachable
  have hlt : n / 2 < n := by omega
  have hw : st.workers (e ⟨n / 2, hlt⟩) = {} := hfresh ⟨n / 2, hlt⟩ (le_refl _)
  obtain ⟨st', hr', hc⟩ := exists_committed cfg (i := e ⟨n / 2, hlt⟩) hi.started (by rw [hw])
    (by simp [hw, hclock])
  have htick : Ticks cfg st (e ⟨n / 2, hlt⟩) := by
    simp only [Ticks, Due, hw, slotOf_zero, hsize, hslot]
    omega
  have hother : ∀ j : Fin n, (j : Nat) ≠ n / 2 → st'.workers (e j) = st.workers (e j) := by
    intro j hj
    exact hc.other _ fun heq => hj (congrArg Fin.val (e.injective heq))
  have hzero := hfirst ⟨0, by omega⟩ (by simp only; omega)
  refine ⟨_, st', hr.trans hr', ?_, ?_, ?_, ?_, ?_, ?_⟩
  · rw [hc.table, workerSz_commitTbl hi.started, hsize]
  · rw [hc.table, serverClock_commitTbl hi.started, if_pos htick, hclock]
    rfl
  · rw [hc.table, slot_commitTbl hi.started, hw, if_pos (slotOf_zero _).symm, if_pos htick]
  · rw [hother ⟨n - 1, by omega⟩ (by simp only; omega)]
    exact hfresh ⟨n - 1, by omega⟩ (by simp only; omega)
  · rw [hother ⟨0, by omega⟩ (by simp only; omega)]
    exact hzero.1
  · rw [hother ⟨0, by omega⟩ (by simp only; omega)]
    exact hzero.2

end First

end Paracel.Ssp
