import Mathlib.Logic.Function.Basic
import Mathlib.Data.Fin.Tuple.Basic
import Paracel.Types

/-!
# Dynamic load balancing

`scheduler::schedule_load` and `schedule_load_handle` (`src/scheduler.cpp`) on
`w + 1` ranks. The two differ only in what becomes of the lines of a block, which
`schedule_load` appends to its result and `schedule_load_handle` hands to a
callback, so a rank keeps the list of the blocks it loaded. One step is one
message sent or received, or one block of the leader's own. A `send` does not
wait, messages between two ranks arrive in order, and a scheduler picks who goes
next and whose request the leader receives.
-/

namespace Paracel

/-- `BLK_SZ`. -/
def blkSzDefault : Nat := 32

/-- The number of blocks of each rank, `blk_sz`. -/
def blkSz (pattern : Str) : Nat :=
  if pattern = lit "fvec" ∨ pattern = lit "linesplit" then 1 else blkSzDefault

theorem blkSz_pos (pattern : Str) : 0 < blkSz pattern := by
  unfold blkSz
  split <;> decide

/-- `scheduler::structure_load` on rank `rk`, where `lines i` are the lines of block `i`. -/
def structureLoad {Line : Type} (lines : Nat → List Line) (b rk : Nat) : List Line :=
  let st := rk * b
  let en := (rk + 1) * b
  (List.range' st (en - st)).flatMap lines

namespace Schedule

/-- The number of blocks of all ranks. -/
def ntasks (w b : Nat) : Nat := (w + 1) * b

/-- The last block, `ntasks - 1`. -/
def lastTask (w b : Nat) : Nat := ntasks w b - 1

/-- Where the leader's loop ends; with `w + 1` ranks this is `ntasks + sz - 2`. -/
def bnd (w b : Nat) : Nat := ntasks w b + (w + 1) - 2

/-- Where the leader stands: before its own block `i`, before a `recv` or past the
    loop, or before one of the two messages of its answer to worker `src`. -/
inductive LeaderPc (w : Nat) where
  | first (i : Nat)
  | loop
  | sendCnt (src : Fin w)
  | sendFlag (src : Fin w)

/-- The locals of `schedule_load` on the leader. -/
structure Leader (w : Nat) where
  cntControl : Nat
  cnt : Nat
  flag : Nat := 0
  pc : LeaderPc w := .first 0
  loaded : List Nat := []

/-- Where a worker stands: before the two tests, before one of its two `recv`s, or past
    the loop. -/
inductive WorkerPc where
  | loop
  | recvCnt
  | recvFlag
  | done
deriving DecidableEq

/-- The locals of `schedule_load` on another rank. -/
structure Worker where
  cnt : Nat
  flag : Nat := 0
  pc : WorkerPc := .loop
  loaded : List Nat := []

/-- All ranks, worker `k` being rank `k + 1`, and the messages under way. -/
structure State (w : Nat) where
  leader : Leader w
  workers : Fin w → Worker
  requests : Fin w → List Nat := fun _ => []
  replies : Fin w → List Nat := fun _ => []

/-- Who goes next, and for the leader's `recv` whose request it is. -/
inductive Label (w : Nat) where
  | leader
  | recv (src : Fin w)
  | worker (k : Fin w)

variable {w : Nat}

/-- Every rank at its entry: `cnt_control = blk_sz` and `cnt = cnt_control - 1`. -/
def init (w b : Nat) : State w where
  leader := { cntControl := b, cnt := b - 1 }
  workers _ := { cnt := b - 1 }

/-- The leader's own blocks, and the two `send`s of its loop. -/
def leaderStep (b : Nat) (st : State w) : Option (State w) :=
  let l := st.leader
  match l.pc with
  | .first i =>
      if i < b then
        some { st with leader := { l with pc := .first (i + 1), loaded := l.loaded ++ [i] } }
      else some { st with leader := { l with pc := .loop } }
  | .loop => none
  | .sendCnt src =>
      some { st with
        leader := { l with pc := .sendFlag src }
        replies := Function.update st.replies src (st.replies src ++ [l.cnt]) }
  | .sendFlag src =>
      some { st with
        leader := { l with
          flag := if l.cnt = lastTask w b ∧ l.flag = 0 then 1 else l.flag
          pc := .loop }
        replies := Function.update st.replies src (st.replies src ++ [l.flag]) }

/-- One turn of the leader's loop up to its `recv`, which takes a request of `src`. -/
def recvStep (b : Nat) (st : State w) (src : Fin w) : Option (State w) :=
  let l := st.leader
  match l.pc, st.requests src with
  | .loop, _ :: rest =>
      if l.cntControl < bnd w b then
        some { st with
          leader := { l with
            cntControl := l.cntControl + 1
            cnt := if l.flag = 0 then l.cnt + 1 else l.cnt
            pc := .sendCnt src }
          requests := Function.update st.requests src rest }
      else none
  | _, _ => none

/-- A worker's loop: its exits and its request, then the two messages of the answer. -/
def workerStep (b : Nat) (st : State w) (k : Fin w) : Option (State w) :=
  let wk := st.workers k
  match wk.pc with
  | .loop =>
      if wk.flag ≠ 0 ∨ wk.cnt = lastTask w b then
        some { st with workers := Function.update st.workers k { wk with pc := .done } }
      else
        some { st with
          workers := Function.update st.workers k { wk with pc := .recvCnt }
          requests := Function.update st.requests k (st.requests k ++ [k.val + 1]) }
  | .recvCnt =>
      match st.replies k with
      | [] => none
      | cnt :: rest =>
          some { st with
            workers := Function.update st.workers k { wk with cnt := cnt, pc := .recvFlag }
            replies := Function.update st.replies k rest }
  | .recvFlag =>
      match st.replies k with
      | [] => none
      | flag :: rest =>
          let loaded := if flag = 0 then wk.loaded ++ [wk.cnt] else wk.loaded
          some { st with
            workers := Function.update st.workers k
              { wk with flag := flag, pc := .loop, loaded := loaded }
            replies := Function.update st.replies k rest }
  | .done => none

/-- One step of one rank. -/
def step (b : Nat) (st : State w) : Label w → Option (State w)
  | .leader => leaderStep b st
  | .recv src => recvStep b st src
  | .worker k => workerStep b st k

/-- Every rank is past its loop. -/
structure State.Finished (b : Nat) (st : State w) : Prop where
  leader : st.leader.pc = .loop
  bound : ¬st.leader.cntControl < bnd w b
  workers : ∀ k, (st.workers k).pc = .done

/-- The blocks a rank has loaded, in order. -/
def State.loaded (st : State w) : Fin (w + 1) → List Nat :=
  Fin.cons st.leader.loaded fun k => (st.workers k).loaded

/-- The result of `schedule_load` on a rank. -/
def State.result {Line : Type} (st : State w) (lines : Nat → List Line) (rk : Fin (w + 1)) :
    List Line :=
  (st.loaded rk).flatMap lines

/-! ### One worker as the leader sees it -/

/-- The part of its current answer that the leader has not sent to worker `k`. -/
def Leader.owed (l : Leader w) (k : Fin w) : List Nat :=
  match l.pc with
  | .sendCnt src => if src = k then [l.cnt, l.flag] else []
  | .sendFlag src => if src = k then [l.flag] else []
  | .first _ | .loop => []

/-- A worker, its requests, and what it has still to read: the leader's `send`s move
    messages inside `unread` and leave it as it is. -/
structure View where
  worker : Worker
  requests : List Nat
  unread : List Nat

def State.view (st : State w) (k : Fin w) : View :=
  ⟨st.workers k, st.requests k, st.replies k ++ st.leader.owed k⟩

namespace View

/-- The task the worker was given last. -/
def given (v : View) : Nat :=
  match v.worker.pc, v.unread with
  | .recvCnt, cnt :: _ => cnt
  | _, _ => v.worker.cnt

/-- The block that the answer under way has the worker load. -/
def pending (v : View) : List Nat :=
  match v.worker.pc, v.unread with
  | .recvCnt, [cnt, flag] => if flag = 0 then [cnt] else []
  | .recvFlag, [flag] => if flag = 0 then [v.worker.cnt] else []
  | _, _ => []

/-- A bound on the steps the worker can take without another answer. -/
def weight (v : View) : Nat :=
  match v.worker.pc, v.requests with
  | .loop, _ => 2
  | .recvCnt, [] => 4
  | .recvCnt, _ :: _ => 1
  | .recvFlag, _ => 3
  | .done, _ => 0

/-- A worker waits for an answer after it sent a request and at no other time, it sends
    none after the last task, and a set `flag` comes with that task only. -/
def Ok (last : Nat) (v : View) : Prop :=
  match v.worker.pc with
  | .loop => v.requests = [] ∧ v.unread = [] ∧ (v.worker.flag ≠ 0 → v.worker.cnt = last)
  | .recvCnt =>
      ((∃ rk, v.requests = [rk]) ∧ v.unread = [] ∧ v.worker.cnt ≠ last) ∨
        (v.requests = [] ∧ ∃ cnt flag, v.unread = [cnt, flag] ∧ (flag ≠ 0 → cnt = last))
  | .recvFlag =>
      v.requests = [] ∧ ∃ flag, v.unread = [flag] ∧ (flag ≠ 0 → v.worker.cnt = last)
  | .done => v.requests = [] ∧ v.unread = [] ∧ v.worker.cnt = last

end View

end Schedule

end Paracel
