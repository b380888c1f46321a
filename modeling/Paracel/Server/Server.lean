import Paracel.Server.Updater

/-!
# A server

One server runs four data threads on a common store, each with function objects
of its own. The port that a `kvclt` method connects to decides which thread
handles the request. Since every update holds the mutex for the rest of its
turn, the server is modelled as handling whole requests one after another, in
any order.
-/

namespace Paracel

variable {V : Type}

/-- The index in `ports_lst` of the socket that `kvclt` uses for the request. -/
def Request.port : Request V → Fin 4
  | .contains _ | .pull _ | .pullMulti _ | .pullall | .pullallSpecial _
  | .registerPullallSpecial _ | .registerRemoveSpecial _ | .remove _ | .removeSpecial _
  | .clear => 0
  | .push _ _ | .pushMulti _ _ => 1
  | .update _ _ _ | .registerUpdate _ => 2
  | .bupdate _ _ _ | .bupdateMulti _ _ _ | .registerBupdate _ => 3

/-- The data threads of a server and their store. -/
structure Server (V : Type) where
  envs : Fin 4 → ThrdEnv V := fun _ => {}
  tblStore : Kvs Str V := {}

/-- The memory that the thread on a port works on. -/
def Server.mem (s : Server V) (port : Fin 4) : Mem V :=
  { env := s.envs port, tblStore := s.tblStore }

/-- One turn of the thread that the request goes to. -/
def serve [Inhabited V] (lib : Libs V) (s : Server V) (req : Request V) :
    Turn (Reply V) (Server V) :=
  let t := thrdExec lib (s.mem req.port) req
  { sent := t.sent
    thrown := t.thrown
    mem := { envs := Function.update s.envs req.port t.mem.env, tblStore := t.mem.tblStore } }

/-- Handles the requests in order; `none` once a thread has left its loop. -/
def serveAll [Inhabited V] (lib : Libs V) : Server V → List (Request V) → Option (Server V)
  | s, [] => some s
  | s, req :: reqs =>
      let t := serve lib s req
      if t.thrown.isSome then none else serveAll lib t.mem reqs

section Serve

variable [Inhabited V] (lib : Libs V) (s : Server V) (req : Request V)

@[simp] theorem serve_sent : (serve lib s req).sent = (thrdExec lib (s.mem req.port) req).sent :=
  rfl

@[simp] theorem serve_thrown :
    (serve lib s req).thrown = (thrdExec lib (s.mem req.port) req).thrown := rfl

@[simp] theorem serve_tblStore :
    (serve lib s req).mem.tblStore = (thrdExec lib (s.mem req.port) req).mem.tblStore := rfl

theorem serve_envs : (serve lib s req).mem.envs =
    Function.update s.envs req.port (thrdExec lib (s.mem req.port) req).mem.env := rfl

/-- A request that leaves the memory of its thread as it is leaves the server as it is. -/
theorem serve_mem_eq_self (h : (thrdExec lib (s.mem req.port) req).mem = s.mem req.port) :
    (serve lib s req).mem = s := by
  rw [serve, h]
  simp only [Server.mem, Function.update_eq_self]

/-- What a request does to the functions in force on the four threads. -/
theorem inForce_serve (i : Fin 4) :
    inForce lib ((serve lib s req).mem.envs i) =
      if i = req.port then chosen lib (s.envs i) req.loads else inForce lib (s.envs i) := by
  rw [serve_envs]
  by_cases hi : i = req.port
  · subst hi
    rw [Function.update_self, if_pos rfl, inForce_thrdExec]
    rfl
  · rw [Function.update_of_ne hi, if_neg hi]

end Serve

end Paracel
