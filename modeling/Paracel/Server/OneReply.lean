import Paracel.Server.ExecSsp

/-!
# One reply for each request

A REQ client blocks until its reply comes, and a REP socket takes exactly one
reply between two receives. For every request that arrives on a REP socket this
file says in which states the handler sends one reply and goes back to its
receive, and that a request that fails leaves the stores as they are.
-/

namespace Paracel

/-- A request to one of the threads of a server. -/
inductive AnyRequest (V : Type) where
  | data (req : Request V)
  | ssp (req : SspRequest)

/-- What one turn of the thread that got a request does: the number of replies, what
    ended the thread, and both stores. -/
structure Outcome (V : Type) where
  replies : Nat
  thrown : Option Exn
  tblStore : Kvs Str V
  sspTbl : Kvs Str Int

variable {V : Type}

/-- One turn, on a data thread with memory `m` or on the clock thread. -/
def handle [Inhabited V] (lib : Libs V) (m : Mem V) (sspTbl : Kvs Str Int) :
    AnyRequest V → Outcome V
  | .data req =>
      let t := thrdExec lib m req
      ⟨t.sent.length, t.thrown, t.mem.tblStore, sspTbl⟩
  | .ssp req =>
      let t := thrdExecSsp sspTbl req
      ⟨t.sent.length, t.thrown, m.tblStore, t.mem⟩

/-- `kvclt` sends the request on a REQ socket; `update` and `register_update` use PUSH. -/
def AnyRequest.onReq : AnyRequest V → Bool
  | .data (.update _ _ _) | .data (.registerUpdate _) => false
  | _ => true

/-- The request asks for a key that is absent or for a filter that is not registered. -/
def Fails (m : Mem V) (sspTbl : Kvs Str Int) : AnyRequest V → Prop
  | .data (.pull key) | .data (.remove key) => m.tblStore.get key = none
  | .data (.pullMulti keyLst) => ∃ key ∈ keyLst, m.tblStore.get key = none
  | .data (.pullallSpecial none) => m.env.pullallSpecialF = none
  | .data (.removeSpecial none) => m.env.removeSpecialF = none
  | .ssp (.pullInt key) => sspTbl.get key = none
  | .ssp (.incrInt key _) =>
      startswith key clientClockPrefix = false ∧ sspTbl.get key = none
  | _ => False

/-- The requests that end the thread: `at` or an empty filter throws, the two list
    lengths differ in an `assert`, or `pull_int` sends a second reply. -/
def EndsThread (m : Mem V) (sspTbl : Kvs Str Int) : AnyRequest V → Prop
  | .data (.pullMulti keyLst) => ∃ key ∈ keyLst, m.tblStore.get key = none
  | .data (.pullallSpecial none) =>
      m.env.pullallSpecialF = none ∧ Dict.pairs m.tblStore.getall ≠ []
  | .data (.removeSpecial none) =>
      m.env.removeSpecialF = none ∧ Dict.pairs m.tblStore.getall ≠ []
  | .data (.pushMulti keyLst valLst) => keyLst.length ≠ valLst.length
  | .data (.bupdateMulti keyLst vOrDeltaLst _) => keyLst.length ≠ vOrDeltaLst.length
  | .ssp (.pullInt key) => sspTbl.get key = none
  | _ => False

/-- One reply, no exception, and nothing changed if the request failed. -/
structure OneReply (m : Mem V) (sspTbl : Kvs Str Int) (req : AnyRequest V) (out : Outcome V) :
    Prop where
  replies : out.replies = 1
  thrown : out.thrown = none
  unchanged : Fails m sspTbl req → out.tblStore = m.tblStore ∧ out.sspTbl = sspTbl

/-! ### The filters -/

theorem kvFilter4pullall_some (f : Str → V → Bool) (dct : List (Str × V)) (newDct : Dict Str V) :
    (kvFilter4pullall (some f) dct newDct).1 = none := by
  induction dct generalizing newDct with
  | nil => rfl
  | cons kv dct ih => exact ih _

/-- Without a filter, the first entry throws. -/
theorem kvFilter4pullall_none (dct : List (Str × V)) (newDct : Dict Str V) :
    (kvFilter4pullall none dct newDct).1 = if dct = [] then none else some .badFunctionCall := by
  cases dct <;> rfl

theorem kvFilter4remove_some [Inhabited V] (f : Str → V → Bool) (dct : List (Str × V))
    (store : Kvs Str V) : (kvFilter4remove (some f) dct store).1 = none := by
  induction dct generalizing store with
  | nil => rfl
  | cons kv dct ih => exact ih _

theorem kvFilter4remove_none [Inhabited V] (dct : List (Str × V)) (store : Kvs Str V) :
    kvFilter4remove none dct store =
      (if dct = [] then none else some .badFunctionCall, store) := by
  cases dct <;> rfl

/-! ### The threads -/

section Handle

variable [Inhabited V] (lib : Libs V) (m : Mem V) (sspTbl : Kvs Str Int)

/-- A failed request leaves both stores as they were. -/
theorem unchanged_of_fails {req : AnyRequest V} (hfails : Fails m sspTbl req) :
    (handle lib m sspTbl req).tblStore = m.tblStore ∧
      (handle lib m sspTbl req).sspTbl = sspTbl := by
  cases req with
  | data req =>
      refine ⟨?_, rfl⟩
      cases req with
      | pull key =>
          have hnone : m.tblStore.get key = none := hfails
          simp [handle, thrdExec, hnone]
      | remove key => simp [handle, thrdExec, Kvs.del_of_get_none hfails]
      | pullMulti keyLst =>
          have hnone := Kvs.getMulti_eq_none.mpr hfails
          simp [handle, thrdExec, hnone]
      | pullallSpecial func =>
          simp only [handle, thrdExec, Turn.send]
          split_ifs <;> rfl
      | removeSpecial func =>
          cases func with
          | some func => cases hfails
          | none =>
              have hnone : m.env.removeSpecialF = none := hfails
              simp only [handle, thrdExec, hnone, kvFilter4remove_none, Turn.send]
              split_ifs <;> rfl
      | _ => cases hfails
  | ssp req =>
      refine ⟨rfl, ?_⟩
      cases req with
      | pullInt key =>
          have hnone : sspTbl.get key = none := hfails
          simp [handle, thrdExecSsp, hnone, Turn.send]
      | incrInt key delta =>
          simp [handle, thrdExecSsp, hfails.1, Kvs.incr_of_get_none hfails.2]
      | pushInt key val => cases hfails

/-- Every other request that comes over a REP socket gets one reply. -/
theorem replied_of_not_endsThread {req : AnyRequest V} (hreq : req.onReq)
    (hends : ¬EndsThread m sspTbl req) :
    (handle lib m sspTbl req).replies = 1 ∧ (handle lib m sspTbl req).thrown = none := by
  cases req with
  | data req =>
      cases req with
      | contains | pullall | registerPullallSpecial | registerRemoveSpecial
      | registerBupdate | push | bupdate | remove | clear => exact ⟨rfl, rfl⟩
      | pull key =>
          simp only [handle, thrdExec]
          cases m.tblStore.get key <;> exact ⟨rfl, rfl⟩
      | pullMulti keyLst =>
          cases hget : m.tblStore.getMulti keyLst with
          | none => exact absurd (Kvs.getMulti_eq_none.mp hget) hends
          | some vals => simp [handle, thrdExec, hget]
      | pullallSpecial func =>
          cases func with
          | some func =>
              simp [handle, thrdExec, dlopenPullallLambda, kvFilter4pullall_some, Turn.send]
          | none =>
              cases hf : m.env.pullallSpecialF with
              | some f => simp [handle, thrdExec, hf, kvFilter4pullall_some, Turn.send]
              | none =>
                  have hempty : Dict.pairs m.tblStore.getall = [] :=
                    not_not.mp fun hne => hends ⟨hf, hne⟩
                  simp [handle, thrdExec, hf, hempty, kvFilter4pullall_none, Turn.send]
      | removeSpecial func =>
          cases func with
          | some func =>
              simp [handle, thrdExec, dlopenRemoveLambda, kvFilter4remove_some, Turn.send]
          | none =>
              cases hf : m.env.removeSpecialF with
              | some f => simp [handle, thrdExec, hf, kvFilter4remove_some, Turn.send]
              | none =>
                  have hempty : Dict.pairs m.tblStore.getall = [] :=
                    not_not.mp fun hne => hends ⟨hf, hne⟩
                  simp [handle, thrdExec, hf, hempty, kvFilter4remove_none, Turn.send]
      | pushMulti keyLst valLst =>
          have heq : keyLst.length = valLst.length := not_not.mp hends
          simp [handle, thrdExec, heq]
      | bupdateMulti keyLst vOrDeltaLst func =>
          have heq : keyLst.length = vOrDeltaLst.length := not_not.mp hends
          simp [handle, thrdExec, heq]
      | update | registerUpdate => cases hreq
  | ssp req =>
      cases req with
      | pushInt | incrInt => exact ⟨rfl, rfl⟩
      | pullInt key =>
          cases hget : sspTbl.get key with
          | none => exact absurd hget hends
          | some n => simp [handle, thrdExecSsp, hget]

/-- The requests that end the thread do so by an exception or a failed `assert`. -/
theorem thrown_of_endsThread {req : AnyRequest V} (hends : EndsThread m sspTbl req) :
    (handle lib m sspTbl req).thrown ≠ none := by
  cases req with
  | data req =>
      cases req with
      | pullMulti keyLst => simp [handle, thrdExec, Kvs.getMulti_eq_none.mpr hends]
      | pullallSpecial func =>
          cases func with
          | some func => cases hends
          | none => simp [handle, thrdExec, hends.1, kvFilter4pullall_none, hends.2, Turn.send]
      | removeSpecial func =>
          cases func with
          | some func => cases hends
          | none => simp [handle, thrdExec, hends.1, kvFilter4remove_none, hends.2, Turn.send]
      | pushMulti keyLst valLst =>
          have hne : keyLst.length ≠ valLst.length := hends
          simp [handle, thrdExec, hne]
      | bupdateMulti keyLst vOrDeltaLst func =>
          have hne : keyLst.length ≠ vOrDeltaLst.length := hends
          simp [handle, thrdExec, hne]
      | _ => cases hends
  | ssp req =>
      cases req with
      | pullInt key =>
          have hnone : sspTbl.get key = none := hends
          simp [handle, thrdExecSsp, hnone, Turn.send]
      | _ => cases hends

end Handle

/-- Libraries that hold one updater and one filter. -/
def oneLib : Libs Int :=
  { update := fun _ => (· + ·), filter := fun _ _ v => v = 0 }

end Paracel
