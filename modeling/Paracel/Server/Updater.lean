import Paracel.Server.Exec

/-!
# Which function a plain update is applied with

An update request may name its function or leave it to the one in force on its
thread. `register_update` and `register_bupdate` are meant to choose that
function. The handlers of named requests load theirs through the same lambda
and so replace it too. This file says which function is in force after any
history of requests, and when it is the registered one.
-/

namespace Paracel

variable {V : Type}

/-- The symbol that a request has its thread load as updater. -/
def Request.loads : Request V → Option Symbol
  | .registerUpdate func | .registerBupdate func => some func
  | .update _ _ func | .bupdate _ _ func | .bupdateMulti _ _ func => func
  | _ => none

/-- The symbol that a request registers as updater of its thread. -/
def Request.registers : Request V → Option Symbol
  | .registerUpdate func | .registerBupdate func => some func
  | _ => none

/-- An update request that names no function. -/
def Request.plain : Request V → Bool
  | .update _ _ none | .bupdate _ _ none | .bupdateMulti _ _ none => true
  | _ => false

/-- The last symbol loaded in a history, or the built-in default. -/
def loaded (history : List (Request V)) : Symbol :=
  (history.filterMap Request.loads).getLastD defaultIncrI

/-- The last symbol registered in a history, or the built-in default. -/
def registered (history : List (Request V)) : Symbol :=
  (history.filterMap Request.registers).getLastD defaultIncrI

/-- The function that a plain request is applied with, see `loadUpdate_fst`. -/
def inForce (lib : Libs V) (env : ThrdEnv V) : V → V → V :=
  env.updateF.getD (lib.update defaultIncrI)

/-- The function that a request is applied with, which may name one. -/
def chosen (lib : Libs V) (env : ThrdEnv V) : Option Symbol → V → V → V
  | some func => lib.update func
  | none => inForce lib env

/-- The loop of one thread from its start. The store it finds at each turn is
    whatever the other threads made of it; an exception ends the loop. -/
def thrdLoop [Inhabited V] (lib : Libs V) :
    ThrdEnv V → List (Kvs Str V × Request V) → Option (ThrdEnv V)
  | env, [] => some env
  | env, (tblStore, req) :: rest =>
      let t := thrdExec lib ⟨env, tblStore⟩ req
      if t.thrown.isSome then none else thrdLoop lib t.mem.env rest

/-- The replies and the store of a plain request applied with `f`. -/
def plainOutcome (f : V → V → V) (tblStore : Kvs Str V) :
    Request V → List (Reply V) × Kvs Str V
  | .update key delta _ => ([], (kvUpdate tblStore key delta f).2)
  | .bupdate key delta _ =>
      let (result, store) := kvUpdate tblStore key delta f
      ([.val result], store)
  | .bupdateMulti keyLst vOrDeltaLst _ =>
      if keyLst.length = vOrDeltaLst.length then
        let (result, store) := kvsUpdate f keyLst vOrDeltaLst tblStore
        ([.vals result], store)
      else ([], tblStore)
  | _ => ([], tblStore)

theorem loadUpdate_fst (lib : Libs V) (env : ThrdEnv V) (func : Option Symbol) :
    (loadUpdate lib env func).1 = chosen lib env func := by
  cases func with
  | some func => rfl
  | none => cases h : env.updateF <;> simp [chosen, inForce, loadUpdate, h]

/-- What is captured after a request is what it was applied with. -/
@[simp] theorem inForce_loadUpdate (lib : Libs V) (env : ThrdEnv V) (func : Option Symbol) :
    inForce lib (loadUpdate lib env func).2 = chosen lib env func := by
  cases func with
  | some func => rfl
  | none => cases h : env.updateF <;> simp [chosen, inForce, loadUpdate, h, dlopenUpdateLambda]

/-- Two functions that agree in every plain request are the same. -/
theorem eq_of_plainOutcome {f g : V → V → V}
    (h : ∀ tblStore, ∀ req : Request V, req.plain →
      plainOutcome f tblStore req = plainOutcome g tblStore req) : f = g := by
  funext v delta
  have hval := h (Kvs.set {} [] v) (.bupdate [] delta none) rfl
  simp only [plainOutcome, kvUpdate, Kvs.get_set, if_true, Prod.mk.injEq, List.cons.injEq,
    Reply.val.injEq, and_true] at hval
  exact hval.1

section Exec

variable [Inhabited V] (lib : Libs V) (m : Mem V)

/-- What a turn does to the function in force: a symbol it loads replaces it. -/
theorem inForce_thrdExec (req : Request V) :
    inForce lib (thrdExec lib m req).mem.env = chosen lib m.env req.loads := by
  cases req with
  | contains | pullall | registerPullallSpecial | registerRemoveSpecial | push | remove | clear =>
      rfl
  | registerUpdate func | registerBupdate func => rfl
  | pull key =>
      simp only [thrdExec, Request.loads]
      cases m.tblStore.get key <;> rfl
  | pullMulti keyLst =>
      simp only [thrdExec, Request.loads]
      cases m.tblStore.getMulti keyLst <;> rfl
  | pullallSpecial func | removeSpecial func =>
      simp only [thrdExec, Request.loads, Turn.send]
      cases func <;> split_ifs <;> rfl
  | pushMulti keyLst valLst =>
      simp only [thrdExec, Request.loads]
      split <;> rfl
  | update key delta func | bupdate key delta func =>
      simp only [thrdExec, Request.loads, Turn.send_fresh, inForce_loadUpdate]
  | bupdateMulti keyLst vOrDeltaLst func =>
      simp only [thrdExec, Request.loads]
      split <;> simp only [Turn.send_fresh, inForce_loadUpdate]

/-- A plain request is applied with the function in force. -/
theorem thrdExec_plain {req : Request V} (hplain : req.plain) :
    ((thrdExec lib m req).sent, (thrdExec lib m req).mem.tblStore) =
      plainOutcome (inForce lib m.env) m.tblStore req := by
  cases req with
  | update key delta func | bupdate key delta func =>
      cases func with
      | some func => cases hplain
      | none => simp [thrdExec, plainOutcome, loadUpdate_fst, chosen]
  | bupdateMulti keyLst vOrDeltaLst func =>
      cases func with
      | some func => cases hplain
      | none =>
          simp only [thrdExec, plainOutcome, loadUpdate_fst, chosen]
          split <;> rfl
  | _ => cases hplain

variable {lib m}

/-- After any history, the function in force is the last one loaded. -/
theorem inForce_thrdLoop {history : List (Kvs Str V × Request V)} {env env' : ThrdEnv V}
    (hloop : thrdLoop lib env history = some env') :
    inForce lib env' =
      match (history.map Prod.snd |>.filterMap Request.loads).getLast? with
      | some func => lib.update func
      | none => inForce lib env := by
  induction history generalizing env with
  | nil =>
      cases hloop
      rfl
  | cons turn rest ih =>
      rcases turn with ⟨tblStore, req⟩
      rw [thrdLoop] at hloop
      split at hloop
      · cases hloop
      · rw [ih hloop, List.map_cons, List.filterMap_cons]
        cases hloads : req.loads with
        | none => simp only [inForce_thrdExec, hloads, chosen]
        | some func =>
            simp only [inForce_thrdExec, hloads, chosen, List.getLast?_cons]
            cases (rest.map Prod.snd |>.filterMap Request.loads).getLast? <;> rfl

theorem inForce_eq_loaded {history : List (Kvs Str V × Request V)} {env : ThrdEnv V}
    (hloop : thrdLoop lib {} history = some env) :
    inForce lib env = lib.update (loaded (history.map Prod.snd)) := by
  rw [inForce_thrdLoop hloop, loaded, List.getLastD_eq_getLast?]
  cases (history.map Prod.snd |>.filterMap Request.loads).getLast? <;> rfl

/-- Plain requests are applied with the registered function, whatever came before,
    exactly when the last function loaded is that function. -/
theorem plain_registered_iff {history : List (Kvs Str V × Request V)} {env : ThrdEnv V}
    (hloop : thrdLoop lib {} history = some env) :
    (∀ tblStore, ∀ req : Request V, req.plain →
      ((thrdExec lib ⟨env, tblStore⟩ req).sent,
        (thrdExec lib ⟨env, tblStore⟩ req).mem.tblStore) =
      plainOutcome (lib.update (registered (history.map Prod.snd))) tblStore req) ↔
    lib.update (loaded (history.map Prod.snd)) =
      lib.update (registered (history.map Prod.snd)) := by
  constructor
  · intro hall
    apply eq_of_plainOutcome
    intro tblStore req hplain
    rw [← hall tblStore req hplain, thrdExec_plain lib _ hplain, inForce_eq_loaded hloop]
  · intro heq tblStore req hplain
    rw [thrdExec_plain lib _ hplain, inForce_eq_loaded hloop, heq]

end Exec

/-- Addition under every symbol but `mul`. -/
def addMulLib : Libs Int :=
  { update := fun func => if func.fcn = lit "mul" then (· * ·) else (· + ·)
    filter := fun _ _ _ => false }

/-- Another client multiplies a key of its own. -/
def namedMul : List (Kvs Str Int × Request Int) :=
  [({}, .bupdate (lit "b") 1 (some ⟨lit "update.so", lit "mul"⟩))]

theorem plain_registered_iff_namedMul :
    (∀ tblStore, ∀ req : Request Int, req.plain →
      ((thrdExec addMulLib ⟨{ updateF := some (· * ·) }, tblStore⟩ req).sent,
        (thrdExec addMulLib ⟨{ updateF := some (· * ·) }, tblStore⟩ req).mem.tblStore) =
      plainOutcome (addMulLib.update (registered (namedMul.map Prod.snd))) tblStore req) ↔
    addMulLib.update (loaded (namedMul.map Prod.snd)) =
      addMulLib.update (registered (namedMul.map Prod.snd)) :=
  plain_registered_iff (by rfl)

/-- After it, a plain increment by 5 of a key that holds 2 gives 10. -/
theorem not_plain_registered_namedMul :
    ¬∀ (lib : Libs Int) history env, thrdLoop lib {} history = some env →
      ∀ tblStore, ∀ req : Request Int, req.plain →
        ((thrdExec lib ⟨env, tblStore⟩ req).sent,
          (thrdExec lib ⟨env, tblStore⟩ req).mem.tblStore) =
        plainOutcome (lib.update (registered (history.map Prod.snd))) tblStore req := by
  intro hall
  have hval := hall addMulLib namedMul { updateF := some (· * ·) } rfl (Kvs.set {} (lit "a") 2)
    (.bupdate (lit "a") 5 none) rfl
  have hreplies := congrArg Prod.fst hval
  have hten : (thrdExec addMulLib ⟨{ updateF := some (· * ·) }, Kvs.set {} (lit "a") 2⟩
      (.bupdate (lit "a") 5 none)).sent = [.val 10] := by rfl
  have hseven : (plainOutcome (addMulLib.update (registered (namedMul.map Prod.snd)))
      (Kvs.set {} (lit "a") 2) (.bupdate (lit "a") 5 none)).1 = [.val 7] := by rfl
  rw [hten, hseven] at hreplies
  cases hreplies

end Paracel
