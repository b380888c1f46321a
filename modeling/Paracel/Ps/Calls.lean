import Paracel.Misc.Spmd
import Paracel.Ps.Kvclt

/-!
# Workers that share the servers

The blocking parameter calls of `paralg` that the programs under `alg/` and the
vertex class make, with `ssp_switch` off: `paracel_read` and `paracel_bupdate`
(`include/ps.hpp`). Here the servers are common to all workers, and a call takes
effect when its server handles it. `paracel_bupdate` returns `true`, so what a
worker does next cannot depend on the result.
-/

namespace Paracel

open MergeFold

/-- The servers of a program. -/
abbrev Servers (m : Nat) (V : Type) := Fin m → Server V

/-- A blocking call of a worker. -/
inductive Call (V : Type) where
  | read (key : Str)
  | bupdate (key : Str) (delta : V) (func : Option Symbol)

variable {m : Nat} {V : Type}

/-- A bupdate that is still to be issued. -/
structure Bupdate (V : Type) where
  key : Str
  delta : V
  func : Option Symbol

/-- Issuing it. -/
def Bupdate.call (b : Bupdate V) : Call V :=
  .bupdate b.key b.delta b.func

/-- The bupdate that a call is. -/
def Call.toBupdate : Call V → Option (Bupdate V)
  | .read _ => none
  | .bupdate key delta func => some ⟨key, delta, func⟩

@[simp] theorem Call.toBupdate_read (key : Str) : (read key : Call V).toBupdate = none := rfl

@[simp] theorem Bupdate.toBupdate_call (b : Bupdate V) : b.call.toBupdate = some b := rfl

namespace Servers

/-- The value of a key, on the server that the ring picks for it. -/
def value (getServer : Str → Fin m) (servers : Servers m V) (key : Str) : Option V :=
  (servers (getServer key)).tblStore.get key

/-- What a call brings back and leaves on the servers. -/
def perform [Inhabited V] (lib : Libs V) (getServer : Str → Fin m) (servers : Servers m V) :
    Call V → Option V × Servers m V
  | .read key =>
      let indx := getServer key
      match Kvclt.pull lib (servers indx) key with
      | some (val, s) => (val, Function.update servers indx s)
      | none => (none, servers)
  | .bupdate key delta func =>
      let indx := getServer key
      match Kvclt.bupdate lib (servers indx) key delta func with
      | some (val, s) => (val, Function.update servers indx s)
      | none => (none, servers)

section Perform

variable [Inhabited V] {lib : Libs V} {getServer : Str → Fin m} {servers : Servers m V}

@[simp] theorem perform_read_fst (key : Str) :
    (perform lib getServer servers (.read key)).1 = servers.value getServer key := by
  simp only [perform, Kvclt.pull_eq]
  rfl

/-- A read leaves the servers as they are. -/
@[simp] theorem perform_read_snd (key : Str) :
    (perform lib getServer servers (.read key)).2 = servers := by
  have hserver : (serve lib (servers (getServer key)) (.pull key)).mem =
      servers (getServer key) := by
    apply serve_mem_eq_self
    simp only [thrdExec]
    cases ((servers (getServer key)).mem _).tblStore.get key <;> rfl
  simp only [perform, Kvclt.pull_eq, hserver, Function.update_eq_self]

theorem perform_bupdate_snd (key : Str) (delta : V) (func : Option Symbol) :
    (perform lib getServer servers (.bupdate key delta func)).2 =
      Function.update servers (getServer key)
        (serve lib (servers (getServer key)) (.bupdate key delta func)).mem := by
  simp only [perform, Kvclt.bupdate_eq]

/-- A bupdate merges its delta into its key and touches no other. -/
theorem value_bupdate (key : Str) (delta : V) (func : Option Symbol) (k : Str) :
    (perform lib getServer servers (.bupdate key delta func)).2.value getServer k =
      if k = key then Option.merge (chosen lib ((servers (getServer key)).envs 3) func)
        (servers.value getServer key) (some delta)
      else servers.value getServer k := by
  rw [perform_bupdate_snd, value]
  by_cases hserver : getServer k = getServer key
  · have hupd : (Request.bupdate key delta func).isUpdate := trivial
    rw [hserver, Function.update_self, Kvclt.get_update_single lib _ hupd rfl]
    by_cases hk : k = key
    · rw [if_pos hk, if_pos hk]
      rfl
    · rw [if_neg hk, if_neg hk, value, hserver]
  · have hk : k ≠ key := fun h => hserver (h ▸ rfl)
    rw [Function.update_of_ne hserver, if_neg hk]
    rfl

/-- A call takes no value away. -/
theorem isSome_value_perform {c : Call V} {k : Str}
    (h : (servers.value getServer k).isSome) :
    ((perform lib getServer servers c).2.value getServer k).isSome := by
  cases c with
  | read key =>
      rw [perform_read_snd]
      exact h
  | bupdate key delta func =>
      rw [value_bupdate]
      split
      · cases servers.value getServer key <;> rfl
      · exact h

/-- Only the bupdates among the calls matter to the servers. -/
theorem replay_bupdates (calls : List (Call V)) :
    Spmd.replay (perform lib getServer) servers calls =
      Spmd.replay (perform lib getServer) servers
        ((calls.filterMap Call.toBupdate).map Bupdate.call) := by
  induction calls generalizing servers with
  | nil => rfl
  | cons c calls ih =>
      cases c with
      | read key =>
          rw [Spmd.replay_cons, perform_read_snd, ih]
          rfl
      | bupdate key delta func =>
          rw [Spmd.replay_cons, ih]
          rfl

end Perform

end Servers

/-! ### Calls with one updater -/

/-- The keys and deltas of a call. -/
def Call.pairs : Call V → List (Str × V)
  | .read _ => []
  | .bupdate key delta _ => [(key, delta)]

theorem pairs_bupdates {ι : Type} (key : ι → Str) (delta : ι → V) (func : Option Symbol)
    (is : List ι) : (is.map fun i => Call.bupdate (key i) (delta i) func).flatMap Call.pairs =
      is.map fun i => (key i, delta i) := by
  rw [List.flatMap_map, List.map_eq_flatMap]
  rfl

/-- The servers apply the call, if it is an update, with `f`. -/
def Call.AppliedWith (lib : Libs V) (f : V → V → V) (servers : Servers m V) : Call V → Prop
  | .read _ => True
  | .bupdate key delta func =>
      ∀ i, chosen lib ((servers i).envs (Request.bupdate key delta func).port) func = f

section Replay

variable [Inhabited V] {lib : Libs V} {f : V → V → V} {getServer : Str → Fin m}
  {servers : Servers m V}

/-- A call applied with `f` does not change how others are applied. -/
theorem Call.AppliedWith.perform {c c' : Call V} (h : c.AppliedWith lib f servers)
    (h' : c'.AppliedWith lib f servers) :
    c'.AppliedWith lib f (Servers.perform lib getServer servers c).2 := by
  cases c' with
  | read key => trivial
  | bupdate key' delta' func' =>
      cases c with
      | read key =>
          rw [Servers.perform_read_snd]
          exact h'
      | bupdate key delta func =>
          intro i
          rw [Servers.perform_bupdate_snd]
          by_cases hi : i = getServer key
          · subst hi
            rw [Function.update_self]
            cases func' with
            | some s => exact h' (getServer key)
            | none =>
                have hforce := inForce_serve lib (servers (getServer key))
                  (.bupdate key delta func) 3
                exact hforce.trans (h (getServer key))
          · rw [Function.update_of_ne hi]
            exact h' i

/-- After the calls every key holds the merge of its value and its deltas. -/
theorem Servers.value_replay {calls : List (Call V)}
    (h : ∀ c ∈ calls, c.AppliedWith lib f servers) (key : Str) :
    (Spmd.replay (perform lib getServer) servers calls).value getServer key =
      mergeAll f (servers.value getServer key) (deltasOf key (calls.flatMap Call.pairs)) := by
  induction calls generalizing servers with
  | nil => rfl
  | cons c calls ih =>
      have hc := h c List.mem_cons_self
      rw [Spmd.replay_cons, ih fun c' hc' => hc.perform (h c' (List.mem_cons_of_mem c hc')),
        List.flatMap_cons, deltasOf_append, mergeAll_append]
      cases c with
      | read key' =>
          rw [perform_read_snd]
          rfl
      | bupdate key' delta func =>
          have hf : chosen lib ((servers (getServer key')).envs 3) func = f := hc (getServer key')
          rw [value_bupdate, hf, Call.pairs, deltasOf_cons, deltasOf_nil]
          by_cases hk : key = key'
          · subst hk
            rw [if_pos rfl, if_pos rfl]
            rfl
          · rw [if_neg hk, if_neg (Ne.symm hk)]
            rfl

/-- Past a barrier that no calls follow, every key has merged what all workers sent for it. -/
theorem Servers.value_straight {n k : Nat} {prog pre : Fin n → List (List (Call V))}
    {st : Spmd.State n (List (List (Call V))) (Call V) (Servers m V)}
    (hprog : ∀ w, prog w = pre w ++ List.replicate k [])
    (hlen : ∀ w w', (pre w).length = (pre w').length)
    (hf : ∀ w, ∀ c ∈ (pre w).flatten, c.AppliedWith lib f servers)
    (h : StepSystem.Reachable (Spmd.step (fun _ => Spmd.straight) (perform lib getServer))
      { loc := prog, store := servers } st)
    (hpast : ∃ w, (st.loc w).length ≤ k) (key : Str) :
    ∃ ds, ds.Perm ((List.finRange n).flatMap fun w =>
        deltasOf key ((pre w).flatten.flatMap Call.pairs)) ∧
      st.store.value getServer key = mergeAll f (servers.value getServer key) ds := by
  have hcalls : ∀ w, Spmd.callsOf w st.log = (pre w).flatten := by
    intro w
    rw [Spmd.straight_passed hprog hlen h hpast w, hprog, List.flatten_append,
      List.flatten_replicate_nil, List.append_nil]
  have hperm := Spmd.log_perm st.log
  simp only [hcalls] at hperm
  refine ⟨deltasOf key ((st.log.map Prod.snd).flatMap Call.pairs), ?_, ?_⟩
  · have hall := deltasOf_perm key (hperm.flatMap_right Call.pairs)
    rwa [List.flatMap_assoc,
      deltasOf_flatMap key (fun w => (pre w).flatten.flatMap Call.pairs)] at hall
  · rw [Spmd.store_eq_replay rfl h]
    apply value_replay
    intro c hc
    rcases List.mem_flatMap.mp (hperm.mem_iff.mp hc) with ⟨w, -, hw⟩
    exact hf w c hw

end Replay

end Paracel
