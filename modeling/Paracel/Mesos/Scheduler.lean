import Mathlib.Data.List.Infix
import Mathlib.Data.Rat.Floor
import Paracel.Misc.Index
import Paracel.Misc.Run
import Paracel.Types

/-!
# The Mesos scheduler

`MPIScheduler` of `mesos_scheduler.py`, which `mrun` starts. Mesos offers it
machines; it takes one task on each of several machines until together they
have a slot for every MPI process, and when all tasks run it starts `mpirun`
and publishes for every machine the command to run there. The callbacks hold a
lock, so the model performs them one after another, in any order. Amounts that
are floats in the source are rational numbers.
-/

namespace Paracel.Mesos

open Index

/-- The states of a task in `mesos_pb2`. -/
inductive TaskState where
  | staging | starting | running | finished | failed | killed | lost | error
deriving DecidableEq

/-- `Task`; the state -1 is `none`. -/
structure Task where
  id : Nat
  tried : Nat := 0
  state : Option TaskState := none
  stateTime : ℚ := 0

/-- The exceptions that can leave a callback. -/
inductive Raised where
  | keyError
  | zeroDivisionError
  | attributeError

/-- The options, the memory after `parse_mem`. -/
structure Options where
  tasks : Int := 1
  taskPerNode : Int := 0
  cpus : ℚ := 1
  mem : ℚ := 100
  group : Str := []

/-- An offer of Mesos. -/
structure Offer where
  id : Str
  hostname : Str
  slaveId : Str
  resources : List (Str × ℚ)
  attributes : List (Str × Str)

/-- What `create_task` asks Mesos for. -/
structure TaskInfo where
  taskId : Str
  slaveId : Str
  name : Str
  cpus : ℚ
  mem : ℚ

/-- What the scheduler does to the world. -/
inductive Action where
  | launchTasks (offer : Str) (tasks : List TaskInfo)
  | reviveOffers
  | mpirun (hosts : List (Str × Int)) (np : Int)
  | broadcast (commands : Dict Str Str)

/-- What starting `mpirun` meets: the launch lines that it prints, unless an exception comes
    first, and the clock and the delay if it is to be tried again. -/
structure Mpirun where
  slaves : Option (List Str)
  now : ℚ := 0
  delay : ℚ := 5

/-- The fields of the scheduler. -/
structure Sched where
  /-- `registered` has set `std_t` and `err_t`. -/
  registered : Bool := false
  taskLaunched : Dict Nat Task := ∅
  usedHosts : Dict Str Int := ∅
  usedTasks : Dict Nat (Str × Int) := ∅
  id : Nat := 0
  started : Bool := false
  stopped : Bool := false
  status : Int := 0
  nextTry : ℚ := 0
  lastOfferTime : ℚ := 0

/-- `getResource`; of two entries with one name the last counts. -/
def getResource (offer : Offer) : ℚ × ℚ :=
  offer.resources.foldl (fun (cpus, mem) r =>
    if r.1 = lit "cpus" then (r.2, mem) else if r.1 = lit "mem" then (cpus, r.2) else (cpus, mem))
    (0, 0)

/-- `getAttributes`. -/
def getAttributes (offer : Offer) : Dict Str Str :=
  offer.attributes.foldl (fun attrs a => attrs.insert a.1 a.2) ∅

/-- The offer is not for the group of the job. -/
def refused (o : Options) (offer : Offer) : Bool :=
  let group := ((getAttributes offer).lookup (lit "group")).getD (lit "None")
  (o.group ≠ [] ∨ startswith group (lit "_")) ∧ ¬group <:+: o.group

/-- `int` on a float. -/
def truncate (q : ℚ) : Int :=
  if 0 ≤ q then ⌊q⌋ else ⌈q⌉

/-- The slots that an offer has for tasks, at most `task_per_node`. -/
def slotsOf (o : Options) (offer : Offer) : Except Raised Int :=
  let (cpus, mem) := getResource offer
  if o.cpus = 0 ∨ o.mem = 0 then .error .zeroDivisionError
  else
    let slots := truncate (min (cpus / o.cpus) (mem / o.mem) + 1 / 100000)
    .ok (if o.taskPerNode ≠ 0 then min slots o.taskPerNode else slots)

/-- `create_task`. When the memory is set, `mem` is the message that it is set in, no longer that
    of the offer, and `min` of a number and a message is the number. -/
def createTask (o : Options) (offer : Offer) (t : Task) (k : Int) : TaskInfo :=
  let (cpus, _) := getResource offer
  { taskId := toStr t.id ++ lit "-" ++ toStr t.tried
    slaveId := offer.slaveId
    name := lit "task " ++ toStr t.id
    cpus := min (o.cpus * k) cpus
    mem := o.mem * k }

/-- `start_task`. -/
def startTask (o : Options) (s : Sched) (offer : Offer) (k : Int) : Sched × Action :=
  let t : Task := { id := s.id }
  ({ s with
      id := s.id + 1
      taskLaunched := s.taskLaunched.insert t.id t
      usedTasks := s.usedTasks.insert t.id (offer.hostname, k) },
    .launchTasks offer.id [createTask o offer t k])

/-- The body of the loop of `resourceOffers`, with the slots launched so far. -/
def takeOffer (o : Options) (s : Sched) (launched : Int) (offer : Offer) :
    Except Raised (Sched × Int × Action) :=
  if o.tasks ≤ launched ∨ offer.hostname ∈ s.usedHosts then
    .ok (s, launched, .launchTasks offer.id [])
  else if refused o offer then
    .ok (s, launched, .launchTasks offer.id [])
  else do
    let slots ← slotsOf o offer
    let slots := min slots (o.tasks - launched)
    if 1 ≤ slots then
      let s := { s with usedHosts := s.usedHosts.insert offer.hostname slots }
      let (s, action) := startTask o s offer slots
      .ok (s, launched + slots, action)
    else
      .ok (s, launched, .launchTasks offer.id [])

/-- The loop of `resourceOffers`. -/
def takeOffers (o : Options) : Sched → Int → List Offer → Except Raised (Sched × List Action)
  | s, _, [] => .ok (s, [])
  | s, launched, offer :: offers => do
      let (s, launched, action) ← takeOffer o s launched offer
      let (s, actions) ← takeOffers o s launched offers
      .ok (s, action :: actions)

/-- `resourceOffers` on the offers as they are shuffled. -/
def resourceOffers (o : Options) (s : Sched) (now : ℚ) (offers : List Offer) :
    Except Raised (Sched × List Action) :=
  takeOffers o { s with lastOfferTime := now } (sumValues s.usedHosts) offers

/-- `pop` on a dictionary. -/
def popKey {K V : Type} [DecidableEq K] (d : Dict K V) (k : K) : Except Raised (Dict K V) :=
  if k ∈ d then .ok (d.erase k) else .error .keyError

/-- The pops of a task that is given up. -/
def dropTask (s : Sched) (tid : Nat) (hostname : Str) : Except Raised Sched := do
  let usedHosts ← popKey s.usedHosts hostname
  let usedTasks ← popKey s.usedTasks tid
  let taskLaunched ← popKey s.taskLaunched tid
  .ok { s with usedHosts := usedHosts, usedTasks := usedTasks, taskLaunched := taskLaunched }

/-- `stop`; it joins the threads `std_t` and `err_t`. -/
def stop (s : Sched) (status : Int) : Except Raised Sched :=
  if s.stopped then .ok s
  else if s.registered then .ok { s with stopped := true, status := status }
  else .error .attributeError

/-- `start_mpi`, with `try_to_start_mpi`: unless `mpirun` prints as many launch lines as there are
    hosts, an empty command is broadcast. -/
def startMpi (o : Options) (s : Sched) (mpi : Mpirun) : Sched × List Action :=
  let run := Action.mpirun (Dict.pairs s.usedHosts) o.tasks
  match mpi.slaves with
  | none => ({ s with nextTry := mpi.now + mpi.delay }, [run, .broadcast ∅])
  | some slaves =>
      if slaves.length ≠ (Dict.pairs s.usedHosts).length then
        ({ s with nextTry := mpi.now + mpi.delay }, [run, .broadcast ∅])
      else
        let commands := (((Dict.pairs s.usedHosts).map Prod.fst).zip slaves).foldl
          (fun d c => d.insert c.1 c.2) (∅ : Dict Str Str)
        ({ s with started := true }, [run, .broadcast commands])

/-- All launched tasks run. -/
def ready (s : Sched) : Bool :=
  (Dict.pairs s.taskLaunched).all fun kv => kv.2.state = some .running

/-- `statusUpdate`. -/
def statusUpdate (o : Options) (s : Sched) (now : ℚ) (tid : Nat) (state : TaskState)
    (mpi : Mpirun) : Except Raised (Sched × List Action) :=
  match s.taskLaunched.lookup tid with
  | none => .ok (s, [])
  | some t =>
      let s := { s with
        taskLaunched := s.taskLaunched.insert tid { t with state := some state, stateTime := now } }
      match s.usedTasks.lookup tid with
      | none => .error .keyError
      | some (hostname, _) =>
          match state with
          | .running =>
              if sumValues s.usedHosts = o.tasks ∧ ready s then .ok (startMpi o s mpi)
              else .ok (s, [])
          | .lost | .failed =>
              if s.started then do
                let s ← stop s 1
                .ok (s, [])
              else do
                let s ← dropTask s tid hostname
                .ok (s, [.reviveOffers])
          | .finished =>
              if s.started then
                let s := { s with taskLaunched := s.taskLaunched.erase tid }
                if Dict.pairs s.taskLaunched = [] then do
                  let s ← stop s 0
                  .ok (s, [])
                else .ok (s, [])
              else .ok (s, [])
          | _ => .ok (s, [])

/-- The loop of `check` over the tasks launched when it began. -/
def checkTasks (now : ℚ) : Sched → List (Nat × Task) → Except Raised (Sched × List Action)
  | s, [] => .ok (s, [])
  | s, (tid, t) :: ts =>
      if t.state = some .starting ∧ t.stateTime + 30 < now then
        match s.usedTasks.lookup tid with
        | none => .error .keyError
        | some (hostname, _) => do
            let s ← dropTask s tid hostname
            let (s, actions) ← checkTasks now s ts
            .ok (s, .reviveOffers :: actions)
      else checkTasks now s ts

/-- `check`. -/
def check (s : Sched) (now : ℚ) : Except Raised (Sched × List Action) :=
  checkTasks now s (Dict.pairs s.taskLaunched)

/-- The main loop after `check`: offers are asked for again when it is time to. -/
def retry (s : Sched) (now delay : ℚ) : Sched × List Action :=
  let (s, again) := if ¬s.started ∧ 0 < s.nextTry ∧ s.nextTry < now then
      ({ s with nextTry := 0 }, [Action.reviveOffers]) else (s, [])
  let (s, late) := if ¬s.started ∧ s.lastOfferTime + 60 + delay < now then
      ({ s with lastOfferTime := now }, [Action.reviveOffers]) else (s, [])
  (s, again ++ late)

/-- What ends the job from outside: `main` stops it with 2, 3 and 4. -/
inductive Cause where
  | timeout | signal | interrupt

/-- The status that `main` stops with. -/
def Cause.status : Cause → Int
  | .timeout => 2
  | .signal => 3
  | .interrupt => 4

/-- What can happen to the scheduler. The first callback is `registered`; `main` can stop the job
    before that. -/
inductive Event where
  | registered
  | resourceOffers (now : ℚ) (offers : List Offer)
  | statusUpdate (now : ℚ) (tid : Nat) (state : TaskState) (mpi : Mpirun)
  | check (now : ℚ)
  | retry (now delay : ℚ)
  | stop (cause : Cause)

/-- One callback, or one turn of the main loop. -/
def step (o : Options) (s : Sched) : Event → Except Raised (Sched × List Action)
  | .registered => .ok ({ s with registered := true }, [])
  | .resourceOffers now offers => resourceOffers o s now offers
  | .statusUpdate now tid state mpi => statusUpdate o s now tid state mpi
  | .check now => check s now
  | .retry now delay => .ok (retry s now delay)
  | .stop cause => do
      let s ← stop s cause.status
      .ok (s, [])

/-- The scheduler after an event, if no exception left the callback. -/
def next (o : Options) (s : Sched) (e : Event) : Option Sched :=
  match step o s e with
  | .ok (s', _) => some s'
  | .error _ => none

end Paracel.Mesos
