import Mathlib.Algebra.BigOperators.Fin
import Paracel.Load.Schedule

/-!
# What the leader and the workers do in one step

Inversion lemmas for the three kinds of steps of `schedule_load`, and what each
of them does to the leader's counters and to one worker's view: the counters
stay in step with the tasks given, and no block is dropped or loaded twice
between the leader's answer and the worker's result.
-/

namespace Paracel.Schedule

variable {w b : Nat}

theorem ntasks_eq (w b : Nat) : ntasks w b = b + w * b := by
  rw [ntasks, Nat.add_mul, Nat.one_mul, Nat.add_comm]

theorem le_ntasks (w b : Nat) : b ≤ ntasks w b := by
  rw [ntasks_eq]
  exact Nat.le_add_right b _

theorem lt_ntasks (hw : 0 < w) (hb : 0 < b) : b < ntasks w b := by
  rw [ntasks_eq]
  exact Nat.lt_add_of_pos_right (Nat.mul_pos hw hb)

/-! ### What one step can do -/

/-- What a step of the leader other than a `recv` does to it. -/
inductive LeaderChange (b : Nat) (l : Leader w) : Leader w → Prop where
  | own (i : Nat) (hpc : l.pc = .first i) (hi : i < b) :
      LeaderChange b l { l with pc := .first (i + 1), loaded := l.loaded ++ [i] }
  | enter (i : Nat) (hpc : l.pc = .first i) (hi : ¬i < b) : LeaderChange b l { l with pc := .loop }
  | cnt (src : Fin w) (hpc : l.pc = .sendCnt src) :
      LeaderChange b l { l with pc := .sendFlag src }
  | flag (src : Fin w) (hpc : l.pc = .sendFlag src) :
      LeaderChange b l { l with
        flag := if l.cnt = lastTask w b ∧ l.flag = 0 then 1 else l.flag
        pc := .loop }

/-- The leader after it received a request of `src`. -/
def Leader.answer (l : Leader w) (src : Fin w) : Leader w :=
  { l with
    cntControl := l.cntControl + 1
    cnt := if l.flag = 0 then l.cnt + 1 else l.cnt
    pc := .sendCnt src }

/-- What a step of a worker does to its view. -/
inductive WorkerChange (last : Nat) (v : View) : View → Prop where
  | exit (hpc : v.worker.pc = .loop) (hlast : v.worker.flag ≠ 0 ∨ v.worker.cnt = last) :
      WorkerChange last v { v with worker := { v.worker with pc := .done } }
  | ask (rk : Nat) (hpc : v.worker.pc = .loop)
      (hmore : ¬(v.worker.flag ≠ 0 ∨ v.worker.cnt = last)) :
      WorkerChange last v
        { v with worker := { v.worker with pc := .recvCnt }, requests := v.requests ++ [rk] }
  | cnt (cnt : Nat) (rest : List Nat) (hpc : v.worker.pc = .recvCnt)
      (hunread : v.unread = cnt :: rest) :
      WorkerChange last v
        { v with worker := { v.worker with cnt := cnt, pc := .recvFlag }, unread := rest }
  | flag (flag : Nat) (rest : List Nat) (hpc : v.worker.pc = .recvFlag)
      (hunread : v.unread = flag :: rest) :
      WorkerChange last v
        { v with
          worker := { v.worker with
            flag := flag
            pc := .loop
            loaded := if flag = 0 then v.worker.loaded ++ [v.worker.cnt] else v.worker.loaded }
          unread := rest }

theorem leaderStep_cases {st st' : State w} (h : leaderStep b st = some st') :
    LeaderChange b st.leader st'.leader ∧ ∀ k, st'.view k = st.view k := by
  unfold leaderStep at h
  cases hpc : st.leader.pc with
  | first i =>
      simp only [hpc] at h
      split at h <;> cases h
      · exact ⟨.own i hpc ‹_›, fun k => by simp [State.view, Leader.owed, hpc]⟩
      · exact ⟨.enter i hpc ‹_›, fun k => by simp [State.view, Leader.owed, hpc]⟩
  | loop =>
      simp only [hpc] at h
      cases h
  | sendCnt src =>
      simp only [hpc] at h
      cases h
      refine ⟨.cnt src hpc, ?_⟩
      intro k
      by_cases hk : src = k
      · subst hk
        simp [State.view, Leader.owed, hpc]
      · simp [State.view, Leader.owed, hpc, hk, Function.update_of_ne (Ne.symm hk)]
  | sendFlag src =>
      simp only [hpc] at h
      cases h
      refine ⟨.flag src hpc, ?_⟩
      intro k
      by_cases hk : src = k
      · subst hk
        simp [State.view, Leader.owed, hpc]
      · simp [State.view, Leader.owed, hpc, hk, Function.update_of_ne (Ne.symm hk)]

theorem recvStep_cases {st st' : State w} {src : Fin w} (h : recvStep b st src = some st') :
    st.leader.pc = .loop ∧ st.leader.cntControl < bnd w b ∧
      st'.leader = st.leader.answer src ∧
      (∃ rk rest, (st.view src).requests = rk :: rest ∧
        st'.view src = { st.view src with
          requests := rest
          unread := (st.view src).unread ++
            [(st.leader.answer src).cnt, (st.leader.answer src).flag] }) ∧
      ∀ k, k ≠ src → st'.view k = st.view k := by
  unfold recvStep at h
  cases hpc : st.leader.pc with
  | first | sendCnt | sendFlag =>
      simp only [hpc] at h
      cases h
  | loop =>
      cases hreq : st.requests src with
      | nil =>
          simp only [hpc, hreq] at h
          cases h
      | cons rk rest =>
          simp only [hpc, hreq] at h
          split at h
          case isFalse => cases h
          case isTrue hlt =>
              cases h
              refine ⟨rfl, hlt, rfl, ⟨rk, rest, hreq, ?_⟩, ?_⟩
              · simp [State.view, Leader.owed, Leader.answer, hpc]
              · intro k hk
                simp [State.view, Leader.owed, hpc, hk, Ne.symm hk]

theorem workerStep_cases {st st' : State w} {k : Fin w} (h : workerStep b st k = some st') :
    st'.leader = st.leader ∧ WorkerChange (lastTask w b) (st.view k) (st'.view k) ∧
      ∀ j, j ≠ k → st'.view j = st.view j := by
  unfold workerStep at h
  cases hpc : (st.workers k).pc with
  | loop =>
      simp only [hpc] at h
      split at h <;> cases h
      · refine ⟨rfl, ?_, fun j hj => by simp [State.view, hj]⟩
        have hchange := WorkerChange.exit (v := st.view k) hpc ‹_›
        simpa [State.view] using hchange
      · refine ⟨rfl, ?_, fun j hj => by simp [State.view, hj]⟩
        have hchange := WorkerChange.ask (v := st.view k) (k.val + 1) hpc ‹_›
        simpa [State.view] using hchange
  | recvCnt =>
      cases hrep : st.replies k with
      | nil =>
          simp only [hpc, hrep] at h
          cases h
      | cons cnt rest =>
          simp only [hpc, hrep] at h
          cases h
          refine ⟨rfl, ?_, fun j hj => by simp [State.view, hj]⟩
          have hunread : (st.view k).unread = cnt :: (rest ++ st.leader.owed k) := by
            simp [State.view, hrep]
          have hchange : WorkerChange (lastTask w b) (st.view k) _ := .cnt cnt _ hpc hunread
          simpa [State.view] using hchange
  | recvFlag =>
      cases hrep : st.replies k with
      | nil =>
          simp only [hpc, hrep] at h
          cases h
      | cons flag rest =>
          simp only [hpc, hrep] at h
          cases h
          refine ⟨rfl, ?_, fun j hj => by simp [State.view, hj]⟩
          have hunread : (st.view k).unread = flag :: (rest ++ st.leader.owed k) := by
            simp [State.view, hrep]
          have hchange : WorkerChange (lastTask w b) (st.view k) _ := .flag flag _ hpc hunread
          simpa [State.view] using hchange
  | done =>
      simp only [hpc] at h
      cases h

/-! ### A worker -/

/-- The blocks a worker has loaded or has been sent to load. -/
def View.blocks (v : View) : Multiset Nat :=
  ↑(v.worker.loaded ++ v.pending)

namespace WorkerChange

variable {last : Nat} {v v' : View}

theorem ok (h : WorkerChange last v v') (hv : v.Ok last) : v'.Ok last := by
  cases h with
  | exit hpc hlast =>
      simp only [View.Ok, hpc] at hv ⊢
      rcases hv with ⟨hreq, hunread, hflag⟩
      exact ⟨hreq, hunread, hlast.elim hflag id⟩
  | ask rk hpc hmore =>
      simp only [View.Ok, hpc] at hv ⊢
      rcases hv with ⟨hreq, hunread, -⟩
      exact .inl ⟨⟨rk, by rw [hreq, List.nil_append]⟩, hunread, fun h => hmore (.inr h)⟩
  | cnt cnt rest hpc hunread =>
      simp only [View.Ok, hpc, hunread] at hv ⊢
      rcases hv with ⟨-, hnil, -⟩ | ⟨hreq, cnt', flag, heq, hflag⟩
      · cases hnil
      · cases heq
        exact ⟨hreq, flag, rfl, hflag⟩
  | flag flag rest hpc hunread =>
      simp only [View.Ok, hpc, hunread] at hv ⊢
      rcases hv with ⟨hreq, flag', heq, hflag⟩
      cases heq
      exact ⟨hreq, rfl, hflag⟩

/-- Reading an answer does not change what was given. -/
theorem given (h : WorkerChange last v v') (hv : v.Ok last) : v'.given = v.given := by
  cases h with
  | exit hpc hlast => simp [View.given, hpc]
  | ask rk hpc hmore =>
      simp only [View.Ok, hpc] at hv
      simp [View.given, hpc, hv.2.1]
  | cnt cnt rest hpc hunread => simp [View.given, hpc, hunread]
  | flag flag rest hpc hunread => simp [View.given, hpc]

/-- Nor which blocks the worker has loaded or is about to load. -/
theorem blocks (h : WorkerChange last v v') (hv : v.Ok last) : v'.blocks = v.blocks := by
  apply congrArg Multiset.ofList
  cases h with
  | exit hpc hlast => simp [View.pending, hpc]
  | ask rk hpc hmore =>
      simp only [View.Ok, hpc] at hv
      simp [View.pending, hpc, hv.2.1]
  | cnt cnt rest hpc hunread =>
      simp only [View.Ok, hpc, hunread] at hv
      rcases hv with ⟨-, hnil, -⟩ | ⟨-, cnt', flag, heq, -⟩
      · cases hnil
      · cases heq
        simp [View.pending, hpc, hunread]
  | flag flag rest hpc hunread =>
      simp only [View.Ok, hpc, hunread] at hv
      rcases hv with ⟨-, flag', heq, -⟩
      cases heq
      by_cases hflag : flag = 0 <;> simp [View.pending, hpc, hunread, hflag]

theorem weight_lt (h : WorkerChange last v v') (hv : v.Ok last) : v'.weight < v.weight := by
  cases h with
  | exit hpc hlast => simp [View.weight, hpc]
  | ask rk hpc hmore =>
      simp only [View.Ok, hpc] at hv
      simp [View.weight, hpc, hv.1]
  | cnt cnt rest hpc hunread =>
      simp only [View.Ok, hpc, hunread] at hv
      rcases hv with ⟨-, hnil, -⟩ | ⟨hreq, -⟩
      · cases hnil
      · simp [View.weight, hpc, hreq]
  | flag flag rest hpc hunread => simp [View.weight, hpc]

end WorkerChange

/-- A worker whose request the leader can receive. -/
theorem View.Ok.asked {last : Nat} {v : View} (hv : v.Ok last) {rk : Nat} {rest : List Nat}
    (hreq : v.requests = rk :: rest) :
    v.worker.pc = .recvCnt ∧ rest = [] ∧ v.unread = [] ∧ v.worker.cnt ≠ last := by
  cases hpc : v.worker.pc with
  | loop | done | recvFlag =>
      simp only [View.Ok, hpc, hreq] at hv
      cases hv.1
  | recvCnt =>
      simp only [View.Ok, hpc, hreq] at hv
      rcases hv with ⟨⟨rk', heq⟩, hunread, hcnt⟩ | ⟨hnil, -⟩
      · cases heq
        exact ⟨rfl, rfl, hunread, hcnt⟩
      · cases hnil

/-- The view once the leader has received the request of its worker. -/
def View.answered (v : View) (cnt flag : Nat) : View :=
  { v with requests := [], unread := [cnt, flag] }

namespace View

variable {v : View} {cnt flag : Nat}

theorem answered_ok (hpc : v.worker.pc = .recvCnt) {last : Nat} (hflag : flag ≠ 0 → cnt = last) :
    (v.answered cnt flag).Ok last := by
  simp only [Ok, answered, hpc]
  exact .inr ⟨trivial, cnt, flag, rfl, hflag⟩

theorem answered_given (hpc : v.worker.pc = .recvCnt) : (v.answered cnt flag).given = cnt := by
  simp [given, answered, hpc]

theorem answered_blocks (hpc : v.worker.pc = .recvCnt) (hunread : v.unread = []) :
    (v.answered cnt flag).blocks = v.blocks + if flag = 0 then {cnt} else 0 := by
  by_cases hflag : flag = 0
  · simp [blocks, pending, answered, hpc, hunread, hflag, ← Multiset.coe_add]
  · simp [blocks, pending, answered, hpc, hunread, hflag]

theorem answered_weight (hpc : v.worker.pc = .recvCnt) {rk : Nat} (hreq : v.requests = [rk]) :
    (v.answered cnt flag).weight = v.weight + 3 := by
  simp [weight, answered, hpc, hreq]

end View

/-! ### The leader -/

/-- The leader is about to send a part of an answer. -/
def Leader.Answering (l : Leader w) : Prop :=
  match l.pc with
  | .first _ | .loop => False
  | .sendCnt _ | .sendFlag _ => True

/-- Until the last task is given, the counters move together; from then on `cnt` stays
    and only the loop goes on. -/
structure Leader.Ok (b : Nat) (l : Leader w) : Prop where
  first : ∀ i, l.pc = .first i → i ≤ b
  start : b ≤ l.cntControl
  bound : 0 < w → l.cntControl ≤ bnd w b
  counting : l.flag = 0 → l.cnt + 1 = l.cntControl ∧ l.cnt ≤ lastTask w b
  given : l.flag ≠ 0 → l.cnt = lastTask w b ∧ ntasks w b ≤ l.cntControl
  more : 0 < w → l.flag = 0 → l.cnt = lastTask w b → l.Answering

/-- The leader's own blocks that it has still to load. -/
def Leader.own (b : Nat) (l : Leader w) : List Nat :=
  match l.pc with
  | .first i => List.range' i (b - i)
  | _ => []

/-- A bound on the steps of the leader until its next `recv`. -/
def Leader.weight (b : Nat) (l : Leader w) : Nat :=
  match l.pc with
  | .first i => b + 1 - i
  | .loop => 0
  | .sendCnt _ => 2
  | .sendFlag _ => 1

namespace LeaderChange

variable {l l' : Leader w}

theorem ok (h : LeaderChange b l l') (hb : 0 < b) (hl : l.Ok b) : l'.Ok b := by
  cases h with
  | own i hpc hi =>
      refine { hl with first := ?_, more := ?_ }
      · intro j hj
        cases hj
        exact hi
      · intro hw hflag hlast
        simpa [Leader.Answering, hpc] using hl.more hw hflag hlast
  | enter i hpc hi =>
      refine { hl with first := nofun, more := ?_ }
      intro hw hflag hlast
      simpa [Leader.Answering, hpc] using hl.more hw hflag hlast
  | cnt src hpc => exact { hl with first := nofun, more := fun _ _ _ => trivial }
  | flag src hpc =>
      have hpos : 0 < ntasks w b := Nat.lt_of_lt_of_le hb (le_ntasks w b)
      by_cases hlast : l.cnt = lastTask w b ∧ l.flag = 0
      · -- the last task was given just now
        have hcount := (hl.counting hlast.2).1
        have hn : lastTask w b + 1 = ntasks w b := by simp only [lastTask]; omega
        refine { hl with first := nofun, counting := ?_, given := ?_, more := ?_ }
        · simp [hlast]
        · intro _
          exact ⟨hlast.1, by simp only; omega⟩
        · simp [hlast]
      · refine { hl with first := nofun, counting := ?_, given := ?_, more := ?_ }
        · simpa [hlast] using hl.counting
        · simpa [hlast] using hl.given
        · simp only [hlast, if_false]
          intro _ hflag hcnt
          exact absurd ⟨hcnt, hflag⟩ hlast

theorem counters (h : LeaderChange b l l') :
    l'.cntControl = l.cntControl ∧ l'.cnt = l.cnt := by
  cases h <;> exact ⟨rfl, rfl⟩

theorem blocks (h : LeaderChange b l l') :
    l'.loaded ++ l'.own b = l.loaded ++ l.own b := by
  cases h with
  | own i hpc hi =>
      have hsucc : b - i = (b - (i + 1)) + 1 := by omega
      simp [Leader.own, hpc, hsucc, List.range'_succ]
  | enter i hpc hi =>
      have hzero : b - i = 0 := by omega
      simp [Leader.own, hpc, hzero]
  | cnt src hpc | flag src hpc => simp [Leader.own, hpc]

theorem weight_lt (h : LeaderChange b l l') (hl : l.Ok b) : l'.weight b < l.weight b := by
  cases h with
  | own i hpc hi =>
      simp only [Leader.weight, hpc]
      omega
  | enter i hpc hi =>
      have hle := hl.first i hpc
      simp only [Leader.weight, hpc]
      omega
  | cnt src hpc | flag src hpc => simp [Leader.weight, hpc]

end LeaderChange

theorem Leader.Ok.answer {l : Leader w} (hl : l.Ok b) (hb : 0 < b) (hpc : l.pc = .loop)
    (hlt : l.cntControl < bnd w b) (src : Fin w) : (l.answer src).Ok b := by
  have hw : 0 < w := src.pos
  have hpos : 0 < ntasks w b := Nat.lt_of_lt_of_le hb (le_ntasks w b)
  have hn : lastTask w b + 1 = ntasks w b := by simp only [lastTask]; omega
  refine
    { first := nofun
      start := Nat.le_succ_of_le hl.start
      bound := fun _ => hlt
      counting := fun hflag => ?_
      given := fun hflag => ?_
      more := fun _ _ _ => trivial }
  · have hne : l.cnt ≠ lastTask w b := fun hlast => by
      simpa [Leader.Answering, hpc] using hl.more hw hflag hlast
    have hcount := hl.counting hflag
    simp only [Leader.answer, show l.flag = 0 from hflag, if_true]
    omega
  · have hgiven := hl.given hflag
    simp only [Leader.answer, show ¬l.flag = 0 from hflag, if_false]
    exact ⟨hgiven.1, by omega⟩

/-- An answer gives the next task, or none after the last one. -/
theorem Leader.range_answer (l : Leader w) (src : Fin w) :
    Multiset.range ((l.answer src).cnt + 1) =
      Multiset.range (l.cnt + 1) + if (l.answer src).flag = 0 then {(l.answer src).cnt} else 0 := by
  by_cases hflag : l.flag = 0
  · simp only [Leader.answer, hflag, if_true]
    rw [Multiset.range_succ (l.cnt + 1), ← Multiset.singleton_add, add_comm]
  · simp only [Leader.answer, hflag, if_false, add_zero]

/-- It sends one more worker home exactly if it names the last task. -/
theorem Leader.Ok.home_answer {l : Leader w} (hl : l.Ok b) (hpc : l.pc = .loop) (src : Fin w) :
    (l.answer src).cntControl + 1 - ntasks w b =
      (l.cntControl + 1 - ntasks w b) + if (l.answer src).cnt = lastTask w b then 1 else 0 := by
  by_cases hflag : l.flag = 0
  · obtain ⟨hcount, hle⟩ := hl.counting hflag
    have hne : l.cnt ≠ lastTask w b := fun hlast => by
      simpa [Leader.Answering, hpc] using hl.more src.pos hflag hlast
    simp only [Leader.answer, hflag, if_true, lastTask] at hle hne ⊢
    split <;> omega
  · obtain ⟨hlast, hle⟩ := hl.given hflag
    simp only [Leader.answer, hflag, if_false, hlast, if_true]
    omega

theorem Leader.ok_init (hb : 0 < b) : (init w b).leader.Ok b where
  first i hi := by
    cases hi
    exact Nat.zero_le b
  start := Nat.le_refl b
  bound hw := by
    have hlt := lt_ntasks hw hb
    simp only [init, bnd]
    omega
  counting _ := by
    have hle := le_ntasks w b
    simp only [init, lastTask]
    omega
  given h := absurd rfl h
  more hw _ hlast := by
    have hlt := lt_ntasks hw hb
    simp only [init, lastTask] at hlast
    omega

end Paracel.Schedule
