import Mathlib.Data.Int.Basic
import Paracel.Misc.Run
import Paracel.Ps.Paralg
import Paracel.Server.Updater

/-!
# When the cache says what the server holds

In SSP mode `paracel_update` computes the new value twice: the client applies
its own `update_f` to the cached value and the server applies the function of
the request to the stored one. The two functions come by different ways. The
client only knows registered functions and the default for doubles; the server
also loads the function that a request names, keeps it for later plain requests,
and defaults to the one for integers.
-/

namespace Paracel.CacheAgreement

open StepSystem

variable {n : Nat} {V : Type}

/-- The calls of one worker that write parameters. -/
inductive Call (V : Type) where
  | registerUpdate (func : Symbol)
  | write (key : Str) (val : V)
  | update (key : Str) (delta : V)
  | updateBy (key : Str) (delta : V) (func : Symbol)
  | bupdate (key : Str) (delta : V) (func : Option Symbol)

/-- One call, its messages handled by the servers when it returns. -/
def perform [Inhabited V] (lib : Libs V) (getServer : Str → Fin n) (p : Paralg n V) :
    Call V → Option (Paralg n V)
  | .registerUpdate func => some (p.paracelRegisterUpdate lib func)
  | .write key val => (p.paracelWrite lib getServer key val).map Prod.snd
  | .update key delta => p.paracelUpdate lib getServer key delta
  | .updateBy key delta func => p.paracelUpdateBy lib getServer key delta func
  | .bupdate key delta func => (p.paracelBupdate lib getServer key delta func).map Prod.snd

/-- Every key has the same value in the cache and on its server, or none. -/
def Agree (getServer : Str → Fin n) (p : Paralg n V) : Prop :=
  ∀ key, p.cachedPara.lookup key = (p.kvm (getServer key)).tblStore.get key

/-- No call throws, and the cache agrees with the servers after each of them. -/
def AgreesThroughout [Inhabited V] (lib : Libs V) (getServer : Str → Fin n) (p : Paralg n V)
    (calls : List (Call V)) : Prop :=
  (∃ t, run (perform lib getServer) p calls = some t) ∧
    Throughout (perform lib getServer) p calls (Agree getServer)

/-! ### The names of the functions in force -/

/-- The symbols of the functions in force, in the client and on the update thread of
    each server, and the cached keys. -/
structure Names (n : Nat) where
  client : Option Symbol := none
  server : Fin n → Symbol := fun _ => defaultIncrI
  known : List Str := []

/-- How a call changes them. -/
def Names.after (getServer : Str → Fin n) (nm : Names n) : Call V → Names n
  | .registerUpdate func => { nm with client := some func, server := fun _ => func }
  | .write key _ => { nm with known := key :: nm.known }
  | .update _ _ => { nm with client := some (nm.client.getD defaultIncrD) }
  | .updateBy key _ func => { nm with server := Function.update nm.server (getServer key) func }
  | .bupdate key _ _ => { nm with known := key :: nm.known }

/-- An update is of a cached key, and the client applies the same function as the server. -/
def Names.Ok (getServer : Str → Fin n) (nm : Names n) : Call V → Prop
  | .update key _ => key ∈ nm.known ∧ nm.client.getD defaultIncrD = nm.server (getServer key)
  | .updateBy key _ func => key ∈ nm.known ∧ nm.client = some func
  | _ => True

/-- Every call of the list is `Ok` when it is made. -/
def Consistent (getServer : Str → Fin n) : Names n → List (Call V) → Prop
  | _, [] => True
  | nm, call :: calls => nm.Ok getServer call ∧ Consistent getServer (nm.after getServer call) calls

instance (getServer : Str → Fin n) (nm : Names n) (call : Call V) :
    Decidable (nm.Ok getServer call) :=
  match call with
  | .update _ _ | .updateBy _ _ _ => inferInstanceAs (Decidable (_ ∧ _))
  | .registerUpdate _ | .write _ _ | .bupdate _ _ _ => inferInstanceAs (Decidable True)

instance decidableConsistent (getServer : Str → Fin n) :
    ∀ (nm : Names n) (calls : List (Call V)), Decidable (Consistent getServer nm calls)
  | _, [] => inferInstanceAs (Decidable True)
  | nm, call :: calls =>
      have := decidableConsistent getServer (nm.after getServer call) calls
      inferInstanceAs (Decidable (_ ∧ _))

/-- The names are those of the functions in force in `p`. -/
structure Tracks (lib : Libs V) (nm : Names n) (p : Paralg n V) : Prop where
  ssp : p.sspSwitch = true
  client : p.updateF = nm.client.map lib.update
  server : ∀ i, inForce lib ((p.kvm i).envs 2) = lib.update (nm.server i)
  known : ∀ key, (p.cachedPara.lookup key).isSome ↔ key ∈ nm.known

theorem tracks_init (lib : Libs V) :
    Tracks lib ({} : Names n) ({ sspSwitch := true } : Paralg n V) where
  ssp := rfl
  client := rfl
  server _ := rfl
  known key := by simp

section Cached

variable {getServer : Str → Fin n} {nm : Names n} {p : Paralg n V} {key : Str}

/-- Setting a key in the cache and in the store of its server to the same value. -/
theorem Agree.update (h : Agree getServer p) {q : Paralg n V} {v : V} {s : Server V}
    (hcache : q.cachedPara = p.cachedPara.insert key v)
    (hkvm : q.kvm = Function.update p.kvm (getServer key) s)
    (hs : ∀ k, s.tblStore.get k =
      if k = key then some v else (p.kvm (getServer key)).tblStore.get k) : Agree getServer q := by
  intro k
  rw [hcache, hkvm]
  by_cases hk : k = key
  · subst hk
    rw [Function.update_self, hs, if_pos rfl, AList.lookup_insert]
  · rw [AList.lookup_insert_ne hk, h]
    by_cases hserver : getServer k = getServer key
    · rw [hserver, Function.update_self, hs, if_neg hk]
    · rw [Function.update_of_ne hserver]

theorem isSome_insert {v : V} (h : ∀ k, (p.cachedPara.lookup k).isSome ↔ k ∈ nm.known) (k : Str) :
    ((p.cachedPara.insert key v).lookup k).isSome ↔ k ∈ key :: nm.known := by
  by_cases hk : k = key
  · subst hk
    simp
  · simp [hk, h]

/-- Caching a key that is cached already adds none. -/
theorem isSome_insert_of_mem {v : V} (h : ∀ k, (p.cachedPara.lookup k).isSome ↔ k ∈ nm.known)
    (hkey : key ∈ nm.known) (k : Str) :
    ((p.cachedPara.insert key v).lookup k).isSome ↔ k ∈ nm.known := by
  rw [isSome_insert h]
  constructor
  · intro hk
    rcases List.mem_cons.mp hk with rfl | hk
    · exact hkey
    · exact hk
  · exact List.mem_cons_of_mem key

end Cached

section Steps

variable [Inhabited V] {lib : Libs V} {getServer : Str → Fin n} {nm : Names n} {p : Paralg n V}
  {key : Str}

theorem agreesThroughout_cons {call : Call V} {calls : List (Call V)} {p' : Paralg n V}
    (hstep : perform lib getServer p call = some p') :
    AgreesThroughout lib getServer p (call :: calls) ↔
      Agree getServer p ∧ AgreesThroughout lib getServer p' calls := by
  rw [AgreesThroughout, AgreesThroughout, throughout_cons hstep, run_cons, hstep, Option.bind_some]
  constructor
  · rintro ⟨hrun, hp, hall⟩
    exact ⟨hp, hrun, hall⟩
  · rintro ⟨hp, hrun, hall⟩
    exact ⟨hrun, hp, hall⟩

/-- What one server holds after an `update` request. -/
theorem get_update (s : Server V) (delta : V) (func : Option Symbol) (k : Str) :
    (Kvclt.update lib s key delta func).tblStore.get k =
      if k = key then
        Option.merge (chosen lib (s.envs 2) func) (s.tblStore.get key) (some delta)
      else s.tblStore.get k := by
  have hupd : (Request.update key delta func).isUpdate := trivial
  exact Kvclt.get_update_single lib s hupd rfl k

/-- The update thread of each server after a request to the server of `key`. -/
theorem inForce_update_kvm (ht : Tracks lib nm p) (req : Request V) {func : Symbol}
    (hfunc : (if 2 = req.port then chosen lib ((p.kvm (getServer key)).envs 2) req.loads
      else inForce lib ((p.kvm (getServer key)).envs 2)) = lib.update func) (i : Fin n) :
    inForce lib ((Function.update p.kvm (getServer key)
      (serve lib (p.kvm (getServer key)) req).mem i).envs 2) =
    lib.update (Function.update nm.server (getServer key) func i) := by
  by_cases hi : i = getServer key
  · subst hi
    rw [Function.update_self, Function.update_self, inForce_serve, hfunc]
  · rw [Function.update_of_ne hi, Function.update_of_ne hi, ht.server]

/-- `paracel_update` and its named overload on a cached key: the client applies `f`,
    the server the function of the request. -/
theorem update_eq (ht : Tracks lib nm p) {delta v : V}
    (hv : p.cachedPara.lookup key = some v) :
    p.paracelUpdate lib getServer key delta = some
      ({ p with
          updateF := some (lib.update (nm.client.getD defaultIncrD))
          cachedPara := p.cachedPara.insert key
            (lib.update (nm.client.getD defaultIncrD) v delta) }.setServer (getServer key)
        (Kvclt.update lib (p.kvm (getServer key)) key delta none)) := by
  have hf : p.updateF.getD (lib.update defaultIncrD) =
      lib.update (nm.client.getD defaultIncrD) := by
    rw [ht.client]
    cases nm.client <;> rfl
  simp [Paralg.paracelUpdate, ht.ssp, hv, hf]

theorem updateBy_eq (ht : Tracks lib nm p) {delta v : V} {func f : Symbol}
    (hv : p.cachedPara.lookup key = some v) (hf : nm.client = some f) :
    p.paracelUpdateBy lib getServer key delta func = some
      ({ p with cachedPara := p.cachedPara.insert key (lib.update f v delta) }.setServer
        (getServer key) (Kvclt.update lib (p.kvm (getServer key)) key delta (some func))) := by
  simp [Paralg.paracelUpdateBy, ht.ssp, hv, ht.client, hf]

/-- A call that is `Ok` does not throw, keeps the names right and keeps the agreement. -/
theorem perform_ok (ht : Tracks lib nm p) (ha : Agree getServer p) {call : Call V}
    (hok : nm.Ok getServer call) :
    ∃ p', perform lib getServer p call = some p' ∧
      Tracks lib (nm.after getServer call) p' ∧ Agree getServer p' := by
  cases call with
  | registerUpdate func =>
      refine ⟨_, rfl, ⟨ht.ssp, rfl, ?_, ht.known⟩, ha⟩
      intro i
      exact inForce_serve lib (p.kvm i) (.registerUpdate func) 2
  | write key val =>
      have hcache : p.cache key val = { p with cachedPara := p.cachedPara.insert key val } := by
        simp [Paralg.cache, ht.ssp]
      have hstep : perform lib getServer p (.write key val) = some
          ({ p with cachedPara := p.cachedPara.insert key val }.setServer (getServer key)
            (serve lib (p.kvm (getServer key)) (.push key val)).mem) := by
        simp [perform, Paralg.paracelWrite, Kvclt.push_eq, hcache]
      refine ⟨_, hstep, ⟨ht.ssp, ht.client, ?_, isSome_insert ht.known⟩,
        ha.update rfl rfl ?_⟩
      · intro i
        exact (inForce_update_kvm ht (.push key val) (ht.server (getServer key)) i).trans
          (by rw [Function.update_eq_self]; rfl)
      · intro k
        rw [Kvclt.tblStore_push, Kvs.get_set]
  | update key delta =>
      rcases hok with ⟨hkey, hname⟩
      obtain ⟨v, hv⟩ := Option.isSome_iff_exists.mp ((ht.known key).mpr hkey)
      refine ⟨_, update_eq ht hv, ⟨ht.ssp, rfl, ?_, isSome_insert_of_mem ht.known hkey⟩,
        ha.update rfl rfl ?_⟩
      · intro i
        exact (inForce_update_kvm ht (.update key delta none) (ht.server (getServer key)) i).trans
          (by rw [Function.update_eq_self]; rfl)
      · intro k
        rw [get_update, ← ha, hv, Option.merge_some_some, chosen, ht.server, hname]
  | updateBy key delta func =>
      rcases hok with ⟨hkey, hname⟩
      obtain ⟨v, hv⟩ := Option.isSome_iff_exists.mp ((ht.known key).mpr hkey)
      refine ⟨_, updateBy_eq ht hv hname,
        ⟨ht.ssp, ht.client, ?_, isSome_insert_of_mem ht.known hkey⟩,
        ha.update rfl rfl ?_⟩
      · intro i
        exact inForce_update_kvm ht (.update key delta (some func)) rfl i
      · intro k
        rw [get_update, ← ha, hv, Option.merge_some_some, chosen]
  | bupdate key delta func =>
      have hupd : (Request.bupdate key delta func).isUpdate := trivial
      have hget : ∀ k,
          (serve lib (p.kvm (getServer key)) (.bupdate key delta func)).mem.tblStore.get k =
            if k = key then
              Option.merge (chosen lib ((p.kvm (getServer key)).envs 3) func)
                ((p.kvm (getServer key)).tblStore.get key) (some delta)
            else (p.kvm (getServer key)).tblStore.get k :=
        Kvclt.get_update_single lib _ hupd rfl
      have hforce := inForce_update_kvm ht (.bupdate key delta func) (ht.server (getServer key))
      rw [Function.update_eq_self] at hforce
      generalize hs : (serve lib (p.kvm (getServer key)) (.bupdate key delta func)).mem = s
        at hget hforce
      obtain ⟨v, hv⟩ : ∃ v, Option.merge (chosen lib ((p.kvm (getServer key)).envs 3) func)
          ((p.kvm (getServer key)).tblStore.get key) (some delta) = some v :=
        Option.isSome_iff_exists.mp (by rw [Option.isSome_merge]; simp)
      rw [hv] at hget
      have hstep : perform lib getServer p (.bupdate key delta func) = some
          { p.setServer (getServer key) s with cachedPara := p.cachedPara.insert key v } := by
        simp only [perform, Paralg.paracelBupdate, Kvclt.bupdate_eq, hs, hget, if_true,
          Option.map_some, Option.getD_some]
        simp [Paralg.cache, ht.ssp]
      exact ⟨_, hstep, ⟨ht.ssp, ht.client, hforce, isSome_insert ht.known⟩,
        ha.update rfl rfl hget⟩

/-! ### Where the names differ -/

/-- A library in which `func` returns `x` and every other function returns `y`. -/
def tellApart (func : Symbol) (x y : V) : Libs V :=
  { update := fun func' _ _ => if func' = func then x else y
    filter := fun _ _ _ => false }

/-- After an update that the client applies with `f` and the server with `g`, some
    libraries make the cache and the server differ. -/
private theorem not_agree_of_ne {f g : Symbol} (hne : f ≠ g) {x y : V} (hxy : x ≠ y)
    {q : Paralg n V} {s : Server V} {v : V} (hstored : s.tblStore.get key = some v)
    (delta : V) (func : Option Symbol)
    (hg : chosen (tellApart f x y) (s.envs 2) func = (tellApart f x y).update g)
    (hcache : q.cachedPara.lookup key = some ((tellApart f x y).update f v delta))
    (hkvm : q.kvm (getServer key) = Kvclt.update (tellApart f x y) s key delta func) :
    ¬Agree getServer q := by
  intro hagree
  have hkey := hagree key
  rw [hcache, hkvm, get_update, if_pos rfl, hg, hstored, Option.merge_some_some] at hkey
  simp only [tellApart, if_true, if_neg hne.symm, Option.some.injEq] at hkey
  exact hxy hkey

/-- A call that is not `Ok` throws, or breaks the agreement for some libraries. -/
theorem exists_lib_of_not_ok [Nontrivial V] (nm : Names n) {call : Call V}
    (hok : ¬nm.Ok getServer call) :
    ∃ lib : Libs V, ∀ p, Tracks lib nm p → Agree getServer p →
      ∀ p', perform lib getServer p call = some p' → ¬Agree getServer p' := by
  obtain ⟨x, y, hxy⟩ := exists_pair_ne V
  cases call with
  | update key delta =>
      refine ⟨tellApart (nm.client.getD defaultIncrD) x y, ?_⟩
      intro p ht ha p' hp'
      cases hv : p.cachedPara.lookup key with
      | none => simp [perform, Paralg.paracelUpdate, ht.ssp, hv] at hp'
      | some v =>
          have hkey : key ∈ nm.known := (ht.known key).mp (by rw [hv]; rfl)
          have hne : nm.client.getD defaultIncrD ≠ nm.server (getServer key) :=
            fun h => hok ⟨hkey, h⟩
          rw [perform, update_eq ht hv, Option.some.injEq] at hp'
          subst hp'
          exact not_agree_of_ne hne hxy ((ha key).symm.trans hv) delta none
            (ht.server (getServer key)) (by simp) (by simp)
  | updateBy key delta func =>
      cases hclient : nm.client with
      | none =>
          -- the client has no function to call
          refine ⟨tellApart func x y, ?_⟩
          intro p ht ha p' hp'
          simp [perform, Paralg.paracelUpdateBy, ht.ssp, ht.client, hclient] at hp'
      | some f =>
          refine ⟨tellApart f x y, ?_⟩
          intro p ht ha p' hp'
          cases hv : p.cachedPara.lookup key with
          | none => simp [perform, Paralg.paracelUpdateBy, ht.ssp, hv] at hp'
          | some v =>
              have hkey : key ∈ nm.known := (ht.known key).mp (by rw [hv]; rfl)
              have hne : f ≠ func := fun h => hok ⟨hkey, by rw [hclient, h]⟩
              rw [perform, updateBy_eq ht hv hclient, Option.some.injEq] at hp'
              subst hp'
              exact not_agree_of_ne hne hxy ((ha key).symm.trans hv) delta (some func) rfl
                (by simp) (by simp)
  | registerUpdate | write | bupdate => exact absurd trivial hok

theorem agreesThroughout_of_consistent {calls : List (Call V)} (ht : Tracks lib nm p)
    (ha : Agree getServer p) (hc : Consistent getServer nm calls) :
    AgreesThroughout lib getServer p calls := by
  induction calls generalizing nm p with
  | nil => exact ⟨⟨p, rfl⟩, throughout_nil.mpr ha⟩
  | cons call calls ih =>
      obtain ⟨p', hp', ht', ha'⟩ := perform_ok ht ha hc.1
      exact (agreesThroughout_cons hp').mpr ⟨ha, ih ht' ha' hc.2⟩

theorem exists_lib_of_not_consistent [Nontrivial V] {calls : List (Call V)}
    (hc : ¬Consistent getServer nm calls) :
    ∃ lib : Libs V, ∀ p, Tracks lib nm p → Agree getServer p →
      ¬AgreesThroughout lib getServer p calls := by
  induction calls generalizing nm with
  | nil => exact absurd trivial hc
  | cons call calls ih =>
      by_cases hok : nm.Ok getServer call
      · obtain ⟨lib, hlib⟩ := ih fun h => hc ⟨hok, h⟩
        refine ⟨lib, ?_⟩
        intro p ht ha hall
        obtain ⟨p', hp', ht', ha'⟩ := perform_ok ht ha hok
        exact hlib p' ht' ha' ((agreesThroughout_cons hp').mp hall).2
      · obtain ⟨lib, hlib⟩ := exists_lib_of_not_ok nm hok
        refine ⟨lib, ?_⟩
        intro p ht ha hall
        obtain ⟨t, hrun⟩ := hall.1
        obtain ⟨p', hp', -⟩ := Option.bind_eq_some_iff.mp hrun
        have hall' := ((agreesThroughout_cons hp').mp hall).2
        exact hlib p ht ha p' hp' (hall'.2 [] p' List.nil_prefix rfl)

end Steps

/-- Addition is registered, and one update names multiplication. -/
def mulOnce : List (Call Int) :=
  [.registerUpdate ⟨lit "update.so", lit "add"⟩, .write (lit "a") 5,
    .updateBy (lit "a") 3 ⟨lit "update.so", lit "mul"⟩]

end Paracel.CacheAgreement
