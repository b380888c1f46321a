import Paracel.Server.Exec

/-!
# The clock thread

`thrd_exec_ssp` of `include/server.hpp`, which keeps the tables of the bounded
staleness protocol: the server clock, the number of workers still running and
one counter for each clock slot. The values are the `int`s of the source, taken
without overflow.
-/

namespace Paracel

/-- The requests of `kvclt` on `ports_lst[4]`. -/
inductive SspRequest where
  | pushInt (key : Str) (val : Int)
  | incrInt (key : Str) (delta : Int)
  | pullInt (key : Str)

/-- The replies of the clock thread. -/
inductive SspReply where
  | bool (b : Bool)
  | nokey
  | int (n : Int)
deriving DecidableEq

/-- The key of the server clock. -/
def serverClockKey : Str := lit "server_clock"

/-- The key of the number of running workers. -/
def workerSzKey : Str := lit "worker_sz"

/-- What marks the key of a clock slot. -/
def clientClockPrefix : Str := lit "client_clock_"

/-- The key of the slot `d`. -/
def clientClockKey (d : Nat) : Str := clientClockPrefix ++ toStr d

/-- `operator>=` of `boost::optional`: an empty optional is below every value. -/
def optGe : Option Int → Option Int → Bool
  | _, none => true
  | none, some _ => false
  | some x, some y => y ≤ x

/-- The part of `incr_int` that only the keys of clock slots run: the commit is
    counted, and a slot that reached `worker_sz` ticks and starts again. -/
def tickSlot (sspTbl : Kvs Str Int) (key : Str) : Kvs Str Int :=
  let sspTbl :=
    if (sspTbl.get key).isSome then (sspTbl.incr key 1).2 else sspTbl.set key 1
  if optGe (sspTbl.get key) (sspTbl.get workerSzKey) then
    (sspTbl.incr serverClockKey 1).2.set key 0
  else sspTbl

/-- One turn of `thrd_exec_ssp`. -/
def thrdExecSsp (sspTbl : Kvs Str Int) : SspRequest → Turn SspReply (Kvs Str Int)
  | .pushInt key val => Turn.send { mem := sspTbl.set key val } (.bool true)
  | .incrInt key delta =>
      let sspTbl := if startswith key clientClockPrefix then tickSlot sspTbl key else sspTbl
      -- the slots reach this line too: a commit is counted a second time
      Turn.send { mem := (sspTbl.incr key delta).2 } (.bool true)
  | .pullInt key =>
      let t : Turn SspReply (Kvs Str Int) := { mem := sspTbl }
      match sspTbl.get key with
      | some result => t.send (.int result)
      | none =>
          -- no `else` separates the two sends of the source
          (t.send .nokey).send (.int 0)

/-- What `thrd_exec_ssp` does before its loop. -/
def thrdExecSspInit (sspTbl : Kvs Str Int) : Kvs Str Int :=
  sspTbl.set serverClockKey 0

/-! ### The table as clocks and slots -/

/-- The server clock, 0 before the thread has started. -/
def serverClock (sspTbl : Kvs Str Int) : Int :=
  (sspTbl.get serverClockKey).getD 0

/-- The number of running workers. -/
def workerSz (sspTbl : Kvs Str Int) : Int :=
  (sspTbl.get workerSzKey).getD 0

/-- The counter of slot `d`; a slot never used counts as 0. -/
def slot (sspTbl : Kvs Str Int) (d : Nat) : Int :=
  (sspTbl.get (clientClockKey d)).getD 0

/-- The server has started and worker 0 has pushed `worker_sz`. -/
structure Started (sspTbl : Kvs Str Int) : Prop where
  clock : (sspTbl.get serverClockKey).isSome
  size : (sspTbl.get workerSzKey).isSome

@[simp] theorem startswith_append (pre s : Str) : startswith (pre ++ s) pre = true := by
  simp [startswith]

@[simp] theorem startswith_clientClockKey (d : Nat) :
    startswith (clientClockKey d) clientClockPrefix = true :=
  startswith_append _ _

@[simp] theorem startswith_workerSzKey : startswith workerSzKey clientClockPrefix = false := by
  decide

@[simp] theorem clientClockKey_inj {d e : Nat} : clientClockKey d = clientClockKey e ↔ d = e := by
  simp [clientClockKey, toStr_injective.eq_iff]

theorem clientClockKey_ne_of_not_startswith {key : Str}
    (h : startswith key clientClockPrefix = false) (d : Nat) : clientClockKey d ≠ key := by
  intro heq
  rw [← heq, startswith_clientClockKey] at h
  cases h

@[simp] theorem clientClockKey_ne_workerSzKey (d : Nat) : clientClockKey d ≠ workerSzKey :=
  clientClockKey_ne_of_not_startswith startswith_workerSzKey d

@[simp] theorem clientClockKey_ne_serverClockKey (d : Nat) :
    clientClockKey d ≠ serverClockKey :=
  clientClockKey_ne_of_not_startswith (by decide) d

@[simp] theorem serverClockKey_ne_workerSzKey : serverClockKey ≠ workerSzKey := by
  decide

/-! ### What one request does to clocks and slots -/

/-- The commit that is being counted makes slot `d` due. -/
def Due (sspTbl : Kvs Str Int) (d : Nat) : Prop :=
  workerSz sspTbl ≤ slot sspTbl d + 1

instance (sspTbl : Kvs Str Int) (d : Nat) : Decidable (Due sspTbl d) :=
  inferInstanceAs (Decidable (_ ≤ _))

/-- The first statement of `tickSlot` counts the commit, also in a slot never used. -/
private theorem get_countCommit (sspTbl : Kvs Str Int) (d : Nat) (k : Str) :
    (if (sspTbl.get (clientClockKey d)).isSome then (sspTbl.incr (clientClockKey d) 1).2
      else sspTbl.set (clientClockKey d) 1).get k =
    if k = clientClockKey d then some (slot sspTbl d + 1) else sspTbl.get k := by
  cases h : sspTbl.get (clientClockKey d) with
  | none => simp [slot, h]
  | some n => simp [slot, h]

theorem get_tickSlot {sspTbl : Kvs Str Int} (hs : Started sspTbl) (d : Nat) (k : Str) :
    (tickSlot sspTbl (clientClockKey d)).get k =
      if k = clientClockKey d then some (if Due sspTbl d then 0 else slot sspTbl d + 1)
      else if k = serverClockKey ∧ Due sspTbl d then some (serverClock sspTbl + 1)
      else sspTbl.get k := by
  obtain ⟨n, hn⟩ := Option.isSome_iff_exists.mp hs.clock
  obtain ⟨w, hw⟩ := Option.isSome_iff_exists.mp hs.size
  have hne := clientClockKey_ne_serverClockKey d
  have hnw := clientClockKey_ne_workerSzKey d
  have hdue : Due sspTbl d ↔ w ≤ slot sspTbl d + 1 := by simp [Due, workerSz, hw]
  unfold tickSlot
  simp only [get_countCommit, if_true, if_neg hnw.symm, hw, optGe, decide_eq_true_eq, ← hdue]
  by_cases htick : Due sspTbl d
  · simp only [htick, if_true, Kvs.get_set, Kvs.get_incr, get_countCommit, if_neg hne.symm, hn,
      serverClock, Option.map_some, Option.getD_some, and_true]
    by_cases hk : k = clientClockKey d
    · simp [hk]
    · simp [hk]
  · simp only [htick, if_false, get_countCommit, and_false]

/-- What counting a commit in slot `d` changes: the slot always, the server clock
    when the slot is due, and nothing else. A slot that ticks ends at 1 and one
    that does not ends 2 higher, because the increment is made twice. -/
theorem incrInt_clientClock {sspTbl : Kvs Str Int} (hs : Started sspTbl) (d : Nat) (k : Str) :
    (thrdExecSsp sspTbl (.incrInt (clientClockKey d) 1)).mem.get k =
      if k = clientClockKey d then some (if Due sspTbl d then 1 else slot sspTbl d + 2)
      else if k = serverClockKey ∧ Due sspTbl d then some (serverClock sspTbl + 1)
      else sspTbl.get k := by
  simp only [thrdExecSsp, startswith_clientClockKey, if_true, Turn.send_fresh, Kvs.get_incr,
    get_tickSlot hs, Option.map_some]
  by_cases hk : k = clientClockKey d
  · by_cases htick : Due sspTbl d
    · simp [hk, htick]
    · simp only [hk, htick, if_true, if_false]
      congr 1
      omega
  · simp only [hk, if_false]

/-- The decrement a finishing worker sends lowers `worker_sz` and touches nothing
    else; in particular no slot is looked at again. -/
theorem incrInt_workerSz (sspTbl : Kvs Str Int) (k : Str) :
    (thrdExecSsp sspTbl (.incrInt workerSzKey (-1))).mem.get k =
      if k = workerSzKey then (sspTbl.get workerSzKey).map (· + -1) else sspTbl.get k := by
  simp [thrdExecSsp]

section Commit

variable {sspTbl : Kvs Str Int} (hs : Started sspTbl) (d : Nat)
include hs

@[simp] theorem serverClock_commit :
    serverClock (thrdExecSsp sspTbl (.incrInt (clientClockKey d) 1)).mem =
      if Due sspTbl d then serverClock sspTbl + 1 else serverClock sspTbl := by
  simp only [serverClock, incrInt_clientClock hs,
    if_neg (clientClockKey_ne_serverClockKey d).symm, true_and]
  by_cases htick : Due sspTbl d <;> simp [htick]

@[simp] theorem workerSz_commit :
    workerSz (thrdExecSsp sspTbl (.incrInt (clientClockKey d) 1)).mem = workerSz sspTbl := by
  simp only [workerSz, incrInt_clientClock hs, if_neg (clientClockKey_ne_workerSzKey d).symm,
    if_neg (fun h : workerSzKey = serverClockKey ∧ Due sspTbl d =>
      serverClockKey_ne_workerSzKey h.1.symm)]

@[simp] theorem slot_commit (e : Nat) :
    slot (thrdExecSsp sspTbl (.incrInt (clientClockKey d) 1)).mem e =
      if e = d then (if Due sspTbl d then 1 else slot sspTbl d + 2) else slot sspTbl e := by
  simp only [slot, incrInt_clientClock hs, clientClockKey_inj,
    clientClockKey_ne_serverClockKey, false_and, if_false]
  by_cases he : e = d <;> simp [he]

theorem started_commit : Started (thrdExecSsp sspTbl (.incrInt (clientClockKey d) 1)).mem := by
  constructor
  · rw [incrInt_clientClock hs, if_neg (clientClockKey_ne_serverClockKey d).symm]
    split
    · rfl
    · exact hs.clock
  · rw [incrInt_clientClock hs, if_neg (clientClockKey_ne_workerSzKey d).symm,
      if_neg (fun h => serverClockKey_ne_workerSzKey h.1.symm)]
    exact hs.size

end Commit

@[simp] theorem serverClock_finish (sspTbl : Kvs Str Int) :
    serverClock (thrdExecSsp sspTbl (.incrInt workerSzKey (-1))).mem = serverClock sspTbl := by
  simp [serverClock, incrInt_workerSz]

theorem workerSz_finish {sspTbl : Kvs Str Int} (hs : Started sspTbl) :
    workerSz (thrdExecSsp sspTbl (.incrInt workerSzKey (-1))).mem = workerSz sspTbl - 1 := by
  obtain ⟨w, hw⟩ := Option.isSome_iff_exists.mp hs.size
  simp only [workerSz, incrInt_workerSz, if_true, hw, Option.map_some, Option.getD_some]
  omega

@[simp] theorem slot_finish (sspTbl : Kvs Str Int) (e : Nat) :
    slot (thrdExecSsp sspTbl (.incrInt workerSzKey (-1))).mem e = slot sspTbl e := by
  simp [slot, incrInt_workerSz]

theorem started_finish {sspTbl : Kvs Str Int} (hs : Started sspTbl) :
    Started (thrdExecSsp sspTbl (.incrInt workerSzKey (-1))).mem := by
  constructor
  · simpa [incrInt_workerSz] using hs.clock
  · simpa [incrInt_workerSz] using hs.size

end Paracel
