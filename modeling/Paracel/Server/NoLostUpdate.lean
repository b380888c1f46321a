import Paracel.Misc.MergeFold
import Paracel.Server.Server

/-!
# Updates are merged in any order

Any number of workers send `update`, `bupdate` and `bupdate_multi` requests,
single or batched, on keys that may be absent. When all are applied with one
associative and commutative function, the value of a key depends only on which
deltas were sent for it, and the replies are what had been merged so far.
-/

namespace Paracel

open MergeFold

variable {V : Type}

/-- The keys and deltas of an update request, in the order it applies them. -/
def Request.pairs : Request V → List (Str × V)
  | .update key delta _ | .bupdate key delta _ => [(key, delta)]
  | .bupdateMulti keyLst vOrDeltaLst _ => keyLst.zip vOrDeltaLst
  | _ => []

/-- The request is an update, batched ones with as many deltas as keys. -/
def Request.isUpdate : Request V → Prop
  | .update _ _ _ | .bupdate _ _ _ => True
  | .bupdateMulti keyLst vOrDeltaLst _ => keyLst.length = vOrDeltaLst.length
  | _ => False

/-- The server replies to the request. -/
def Request.replied : Request V → Bool
  | .update _ _ _ => false
  | _ => true

/-- The function that the thread with these function objects applies the request with. -/
def appliedWith (lib : Libs V) (env : ThrdEnv V) (req : Request V) : V → V → V :=
  chosen lib env req.loads

/-- The values of a reply. -/
def Reply.values : Reply V → List V
  | .val v => [v]
  | .vals vs => vs
  | _ => []

/-- The store after the pairs are applied in order. -/
def applyPairs (f : V → V → V) (store : Kvs Str V) (pairs : List (Str × V)) : Kvs Str V :=
  pairs.foldl (fun store p => (kvUpdate store p.1 p.2 f).2) store

/-- Every key holds the merge of its value and its deltas. -/
theorem get_applyPairs (f : V → V → V) (store : Kvs Str V) (pairs : List (Str × V)) (key : Str) :
    (applyPairs f store pairs).get key = mergeAll f (store.get key) (deltasOf key pairs) := by
  induction pairs generalizing store with
  | nil => rfl
  | cons p pairs ih =>
      rw [applyPairs, List.foldl_cons, ← applyPairs, ih, get_kvUpdate, deltasOf_cons]
      by_cases h : key = p.1
      · subst h
        rw [if_pos rfl, if_pos rfl, kvUpdate_fst, mergeAll_cons]
      · rw [if_neg h, if_neg (Ne.symm h)]

theorem kvsUpdate_snd (f : V → V → V) (keyLst : List Str) (vOrDeltaLst : List V)
    (store : Kvs Str V) :
    (kvsUpdate f keyLst vOrDeltaLst store).2 = applyPairs f store (keyLst.zip vOrDeltaLst) := by
  induction keyLst generalizing vOrDeltaLst store with
  | nil => rfl
  | cons key keyLst ih =>
      cases vOrDeltaLst with
      | nil => rfl
      | cons d vOrDeltaLst => exact ih vOrDeltaLst _

/-- What the `j`-th value of a batch is: everything merged into its key so far. -/
theorem getElem?_kvsUpdate (f : V → V → V) (keyLst : List Str) (vOrDeltaLst : List V)
    (store : Kvs Str V) (j : Nat) :
    (kvsUpdate f keyLst vOrDeltaLst store).1[j]? =
      ((keyLst.zip vOrDeltaLst)[j]?).bind fun p => mergeAll f (store.get p.1)
        (deltasOf p.1 ((keyLst.zip vOrDeltaLst).take (j + 1))) := by
  induction keyLst generalizing vOrDeltaLst store j with
  | nil => rfl
  | cons key keyLst ih =>
      cases vOrDeltaLst with
      | nil => rfl
      | cons d vOrDeltaLst =>
          rw [kvsUpdate, List.zip_cons_cons]
          cases j with
          | zero =>
              simp only [List.getElem?_cons_zero, Option.bind_some, List.take_succ_cons,
                List.take_zero, deltasOf_cons, if_true, deltasOf_nil, mergeAll_cons, mergeAll_nil]
              exact kvUpdate_fst store key d f
          | succ j =>
              simp only [List.getElem?_cons_succ, List.take_succ_cons, deltasOf_cons]
              rw [ih]
              cases (keyLst.zip vOrDeltaLst)[j]? with
              | none => rfl
              | some p =>
                  simp only [Option.bind_some, get_kvUpdate]
                  by_cases h : p.1 = key
                  · simp only [h, if_true, kvUpdate_fst, mergeAll_cons]
                  · simp only [h, Ne.symm h, if_false]

section Exec

variable [Inhabited V] {lib : Libs V} {m : Mem V} {req : Request V}

/-- What an update request does: it applies its pairs with one function. -/
theorem thrdExec_update (hupd : req.isUpdate) :
    (thrdExec lib m req).thrown = none ∧
      (thrdExec lib m req).mem.tblStore =
        applyPairs (appliedWith lib m.env req) m.tblStore req.pairs := by
  cases req with
  | update key delta func | bupdate key delta func =>
      refine ⟨rfl, ?_⟩
      simp only [thrdExec, Turn.send_fresh, loadUpdate_fst, appliedWith, Request.loads,
        Request.pairs, applyPairs, List.foldl_cons, List.foldl_nil]
  | bupdateMulti keyLst vOrDeltaLst func =>
      have hlen : keyLst.length = vOrDeltaLst.length := hupd
      simp only [thrdExec, hlen, if_true, Turn.send_fresh, kvsUpdate_snd, loadUpdate_fst,
        appliedWith, Request.loads, Request.pairs, and_self]
  | _ => cases hupd

/-- What it replies: the value of each pair once the pair is merged. -/
theorem thrdExec_update_replies (hupd : req.isUpdate) (j : Nat) :
    ((thrdExec lib m req).sent.flatMap Reply.values)[j]? =
      if req.replied then
        (req.pairs[j]?).bind fun p => mergeAll (appliedWith lib m.env req) (m.tblStore.get p.1)
          (deltasOf p.1 (req.pairs.take (j + 1)))
      else none := by
  cases req with
  | update key delta func => rfl
  | bupdate key delta func =>
      simp only [thrdExec, Turn.send_fresh, loadUpdate_fst, appliedWith, Request.loads,
        Request.pairs, Request.replied, if_true, List.flatMap_cons, List.flatMap_nil,
        List.append_nil, Reply.values]
      cases j with
      | zero =>
          simp only [List.getElem?_cons_zero, Option.bind_some, List.take_succ_cons,
            List.take_zero, deltasOf_cons, if_true, deltasOf_nil, mergeAll_cons, mergeAll_nil]
          exact kvUpdate_fst _ _ _ _
      | succ j => rfl
  | bupdateMulti keyLst vOrDeltaLst func =>
      have hlen : keyLst.length = vOrDeltaLst.length := hupd
      simp only [thrdExec, hlen, if_true, Turn.send_fresh, loadUpdate_fst, appliedWith,
        Request.loads, Request.pairs, Request.replied, List.flatMap_cons, List.flatMap_nil,
        List.append_nil, Reply.values]
      exact getElem?_kvsUpdate _ _ _ _ j
  | _ => cases hupd

end Exec

/-! ### The server -/

/-- The server applies the request, when it comes, with `f`. -/
structure UpdatesWith (lib : Libs V) (s : Server V) (f : V → V → V) (req : Request V) : Prop where
  update : req.isUpdate
  function : appliedWith lib (s.envs req.port) req = f

section Serve

variable [Inhabited V] {lib : Libs V} {s : Server V} {f : V → V → V} {req : Request V}

/-- A request that is applied with `f` does not change how later ones are applied. -/
theorem UpdatesWith.serve (h : UpdatesWith lib s f req) {req' : Request V}
    (h' : UpdatesWith lib s f req') : UpdatesWith lib (serve lib s req).mem f req' where
  update := h'.update
  function := by
    rw [serve_envs]
    by_cases hport : req'.port = req.port
    · rw [hport, Function.update_self]
      have hold := h'.function
      unfold appliedWith at hold ⊢
      cases hloads : req'.loads with
      | some func =>
          rw [hloads] at hold
          exact hold
      | none => exact (inForce_thrdExec lib (s.mem req.port) req).trans h.function
    · rw [Function.update_of_ne hport]
      exact h'.function

/-- Handling any sequence of updates ends no thread and merges every delta. -/
theorem serveAll_updates {reqs : List (Request V)} (h : ∀ req ∈ reqs, UpdatesWith lib s f req) :
    ∃ t, serveAll lib s reqs = some t ∧
      (∀ key, t.tblStore.get key =
        mergeAll f (s.tblStore.get key) (deltasOf key (reqs.flatMap Request.pairs))) ∧
      ∀ req, UpdatesWith lib s f req → UpdatesWith lib t f req := by
  induction reqs generalizing s with
  | nil => exact ⟨s, rfl, fun _ => rfl, fun _ h => h⟩
  | cons req reqs ih =>
      have hreq := h req List.mem_cons_self
      have hthrown : (thrdExec lib (s.mem req.port) req).thrown = none :=
        (thrdExec_update hreq.update).1
      have hstore : (Paracel.serve lib s req).mem.tblStore =
          applyPairs f s.tblStore req.pairs := by
        rw [serve_tblStore, (thrdExec_update hreq.update).2]
        exact congrArg (applyPairs · s.tblStore req.pairs) hreq.function
      obtain ⟨t, ht, hget, hkeep⟩ := ih (s := (Paracel.serve lib s req).mem) fun req' hreq' =>
        hreq.serve (h req' (List.mem_cons_of_mem req hreq'))
      refine ⟨t, ?_, ?_, fun req' hreq' => hkeep req' (hreq.serve hreq')⟩
      · rw [serveAll, serve_thrown, hthrown]
        exact ht
      · intro key
        rw [hget, hstore, get_applyPairs, List.flatMap_cons, deltasOf_append, mergeAll_append]

end Serve

/-- Two batches of increments that share a key, and one more on it. -/
def increments : List (Request Int) :=
  [.bupdateMulti [lit "a", lit "a"] [1, 2] none, .update (lit "a") 3 none,
    .bupdateMulti [lit "b", lit "a"] [4, 5] (some defaultIncrI)]

end Paracel
