import Paracel.Kv

/-!
# The server threads

`thrd_exec` of `include/server.hpp`, one turn of its loop: from a received
request to the next receive. Requests appear decoded, as the client meant them;
the framing on the wire is the subject of `Paracel.Wire`. The value type `V`
stands for packed values: the server stores and returns them unopened, and only
the updaters and filters loaded from shared libraries look inside. All named
library functions load, so `dlopen` and `dlsym` never take their abort branch.
-/

namespace Paracel

/-- What can end a server thread: an exception that leaves its loop, or the
    abort of a failed `assert`. -/
inductive Exn where
  | outOfRange
  | badFunctionCall
  | efsm
  | assertion
deriving DecidableEq

/-- One turn of a server loop: the replies sent since the receive, what ended
    the thread, if anything did, and the memory it leaves. -/
structure Turn (ρ σ : Type) where
  sent : List ρ := []
  thrown : Option Exn := none
  mem : σ

/-- Sending on a REP socket. The socket takes one reply for each request; a
    second send fails with `EFSM`, which `zmq::socket_t::send` throws. -/
def Turn.send {ρ σ : Type} (t : Turn ρ σ) (r : ρ) : Turn ρ σ :=
  if t.thrown.isSome then t
  else if t.sent.isEmpty then { t with sent := [r] }
  else { t with thrown := some .efsm }

@[simp] theorem Turn.send_fresh {ρ σ : Type} (m : σ) (r : ρ) :
    Turn.send { mem := m } r = { sent := [r], mem := m } := rfl

/-- A symbol of a shared library, the two arguments of the `dlopen` lambdas. -/
structure Symbol where
  fn : Str
  fcn : Str
deriving DecidableEq

/-- What the shared libraries hold under each symbol. -/
structure Libs (V : Type) where
  update : Symbol → V → V → V
  filter : Symbol → Str → V → Bool

/-- The updater `thrd_exec` loads when none was set. -/
def defaultIncrI : Symbol := ⟨lit "../local/build/lib/default.so", lit "default_incr_i"⟩

/-- The function objects that the lambdas of one `thrd_exec` capture by reference. -/
structure ThrdEnv (V : Type) where
  updateF : Option (V → V → V) := none
  pullallSpecialF : Option (Str → V → Bool) := none
  removeSpecialF : Option (Str → V → Bool) := none

/-- The requests of `kvclt` that the data threads handle. -/
inductive Request (V : Type) where
  | contains (key : Str)
  | pull (key : Str)
  | pullMulti (keyLst : List Str)
  | pullall
  | pullallSpecial (func : Option Symbol)
  | registerPullallSpecial (func : Symbol)
  | registerRemoveSpecial (func : Symbol)
  | registerUpdate (func : Symbol)
  | registerBupdate (func : Symbol)
  | push (key : Str) (val : V)
  | pushMulti (keyLst : List Str) (valLst : List V)
  | update (key : Str) (delta : V) (func : Option Symbol)
  | bupdate (key : Str) (delta : V) (func : Option Symbol)
  | bupdateMulti (keyLst : List Str) (vOrDeltaLst : List V) (func : Option Symbol)
  | remove (key : Str)
  | removeSpecial (func : Option Symbol)
  | clear

/-- The replies of the data threads. -/
inductive Reply (V : Type) where
  | bool (b : Bool)
  | nokey
  | val (v : V)
  | vals (vs : List V)
  | dct (d : Dict Str V)

/-- What one data thread works on: its own function objects and the shared store. -/
structure Mem (V : Type) where
  env : ThrdEnv V
  tblStore : Kvs Str V

section Handlers

variable {V : Type}

/-- `dlopen_update_lambda`: the loaded function replaces the captured `update_f`. -/
def dlopenUpdateLambda (lib : Libs V) (env : ThrdEnv V) (func : Symbol) : ThrdEnv V :=
  { env with updateF := some (lib.update func) }

/-- `dlopen_pullall_lambda`. -/
def dlopenPullallLambda (lib : Libs V) (env : ThrdEnv V) (func : Symbol) : ThrdEnv V :=
  { env with pullallSpecialF := some (lib.filter func) }

/-- `dlopen_remove_lambda`. -/
def dlopenRemoveLambda (lib : Libs V) (env : ThrdEnv V) (func : Symbol) : ThrdEnv V :=
  { env with removeSpecialF := some (lib.filter func) }

/-- The head of the update handlers: which function is applied, and what is
    captured afterwards. -/
def loadUpdate (lib : Libs V) (env : ThrdEnv V) :
    Option Symbol → (V → V → V) × ThrdEnv V
  | some func => (lib.update func, dlopenUpdateLambda lib env func)
  | none =>
      match env.updateF with
      | some f => (f, env)
      | none => (lib.update defaultIncrI, dlopenUpdateLambda lib env defaultIncrI)

/-- `kv_update`: the new value, which is also the reply, and the store. -/
def kvUpdate (store : Kvs Str V) (key : Str) (vOrDelta : V) (updateFunc : V → V → V) :
    V × Kvs Str V :=
  match store.get key with
  | none => (vOrDelta, store.set key vOrDelta)
  | some val => (updateFunc val vOrDelta, store.set key (updateFunc val vOrDelta))

/-- `kvs_update`, key by key in list order. -/
def kvsUpdate (updateFunc : V → V → V) : List Str → List V → Kvs Str V → List V × Kvs Str V
  | key :: keyLst, vOrDelta :: vOrDeltaLst, store =>
      let (newVal, store) := kvUpdate store key vOrDelta updateFunc
      let (newVals, store) := kvsUpdate updateFunc keyLst vOrDeltaLst store
      (newVal :: newVals, store)
  | _, _, store => ([], store)

/-- `kv_filter4pullall`. Calling an empty `std::function` throws `bad_function_call`. -/
def kvFilter4pullall (filterFunc : Option (Str → V → Bool)) :
    List (Str × V) → Dict Str V → Option Exn × Dict Str V
  | [], newDct => (none, newDct)
  | kv :: rest, newDct =>
      match filterFunc with
      | none => (some .badFunctionCall, newDct)
      | some f =>
          kvFilter4pullall filterFunc rest (if f kv.1 kv.2 then newDct.insert kv.1 kv.2 else newDct)

/-- `kv_filter4remove`. Its `ERROR_ABORT` only prints, so a key that vanished
    would be filtered with a default-constructed value. -/
def kvFilter4remove [Inhabited V] (filterFunc : Option (Str → V → Bool)) :
    List (Str × V) → Kvs Str V → Option Exn × Kvs Str V
  | [], store => (none, store)
  | kv :: rest, store =>
      let v := (store.get kv.1).getD default
      match filterFunc with
      | none => (some .badFunctionCall, store)
      | some f => kvFilter4remove filterFunc rest (if f kv.1 v then (store.del kv.1).2 else store)

/-- One turn of `thrd_exec`. From `push` on the source holds its mutex. -/
def thrdExec [Inhabited V] (lib : Libs V) (m : Mem V) :
    Request V → Turn (Reply V) (Mem V)
  | .contains key => Turn.send { mem := m } (.bool (m.tblStore.contains key))
  | .pull key =>
      match m.tblStore.get key with
      | none => Turn.send { mem := m } .nokey
      | some result => Turn.send { mem := m } (.val result)
  | .pullMulti keyLst =>
      match m.tblStore.getMulti keyLst with
      | none => { mem := m, thrown := some .outOfRange }
      | some result => Turn.send { mem := m } (.vals result)
  | .pullall => Turn.send { mem := m } (.dct m.tblStore.getall)
  | .pullallSpecial func =>
      -- without a name the ERROR_ABORT on a missing filter prints and goes on
      let env := match func with
        | some func => dlopenPullallLambda lib m.env func
        | none => m.env
      let (exn, newDct) :=
        kvFilter4pullall env.pullallSpecialF (Dict.pairs m.tblStore.getall) ∅
      let t : Turn (Reply V) (Mem V) := { mem := { m with env := env }, thrown := exn }
      t.send (.dct newDct)
  | .registerPullallSpecial func =>
      Turn.send { mem := { m with env := dlopenPullallLambda lib m.env func } } (.bool true)
  | .registerRemoveSpecial func =>
      Turn.send { mem := { m with env := dlopenRemoveLambda lib m.env func } } (.bool true)
  | .registerUpdate func =>
      { mem := { m with env := dlopenUpdateLambda lib m.env func } }
  | .registerBupdate func =>
      Turn.send { mem := { m with env := dlopenUpdateLambda lib m.env func } } (.bool true)
  | .push key val =>
      Turn.send { mem := { m with tblStore := m.tblStore.set key val } } (.bool true)
  | .pushMulti keyLst valLst =>
      if keyLst.length = valLst.length then
        let kvPairs : Dict Str V :=
          (keyLst.zip valLst).foldl (fun d kv => d.insert kv.1 kv.2) ∅
        Turn.send { mem := { m with tblStore := m.tblStore.setMulti kvPairs } } (.bool true)
      else
        { mem := m, thrown := some .assertion }
  | .update key delta func =>
      let (updateF, env) := loadUpdate lib m.env func
      let (_, store) := kvUpdate m.tblStore key delta updateF
      { mem := { env := env, tblStore := store } }
  | .bupdate key delta func =>
      let (updateF, env) := loadUpdate lib m.env func
      let (result, store) := kvUpdate m.tblStore key delta updateF
      Turn.send { mem := { env := env, tblStore := store } } (.val result)
  | .bupdateMulti keyLst vOrDeltaLst func =>
      let (updateF, env) := loadUpdate lib m.env func
      if keyLst.length = vOrDeltaLst.length then
        let (result, store) := kvsUpdate updateF keyLst vOrDeltaLst m.tblStore
        Turn.send { mem := { env := env, tblStore := store } } (.vals result)
      else
        { mem := { m with env := env }, thrown := some .assertion }
  | .remove key =>
      let (result, store) := m.tblStore.del key
      Turn.send { mem := { m with tblStore := store } } (.bool result)
  | .removeSpecial func =>
      let env := match func with
        | some func => dlopenRemoveLambda lib m.env func
        | none => m.env
      let (exn, store) :=
        kvFilter4remove env.removeSpecialF (Dict.pairs m.tblStore.getall) m.tblStore
      let t : Turn (Reply V) (Mem V) :=
        { mem := { env := env, tblStore := store }, thrown := exn }
      t.send (.bool true)
  | .clear => Turn.send { mem := { m with tblStore := m.tblStore.clean } } (.bool true)

/-- The reply of `kv_update` merges the delta into the value the key had, if any. -/
theorem kvUpdate_fst (store : Kvs Str V) (key : Str) (d : V) (f : V → V → V) :
    some (kvUpdate store key d f).1 = Option.merge f (store.get key) (some d) := by
  unfold kvUpdate
  cases store.get key <;> rfl

/-- `kv_update` stores what it replies, and touches no other key. -/
@[simp] theorem get_kvUpdate (store : Kvs Str V) (key k : Str) (d : V) (f : V → V → V) :
    (kvUpdate store key d f).2.get k =
      if k = key then some (kvUpdate store key d f).1 else store.get k := by
  unfold kvUpdate
  cases store.get key <;> simp

end Handlers

end Paracel
