import Mathlib.Data.List.FinRange
import Paracel.Ps.Kvclt

/-!
# The parameter server of one worker

The parameter calls of `paralg` (`include/ps.hpp`) on `srv_sz` servers. The ring
is a function from keys to servers; nothing depends on which one. In SSP mode
the calls also keep the values in `cached_para`; the branches of `paracel_read`
that use the clocks are the subject of `Paracel.Ssp.Cache`, so the read here is
the one with `ssp_switch` off. `none` stands for an exception in the client, or
for a reply that does not come.
-/

namespace Paracel

/-- The fields of `paralg` that parameter calls use. `kvm` holds the servers
    themselves, at the other end of the clients of the source. -/
structure Paralg (n : Nat) (V : Type) where
  sspSwitch : Bool
  cachedPara : Dict Str V := ∅
  updateF : Option (V → V → V) := none
  kvm : Fin n → Server V := fun _ => {}

/-- The updater that the client loads when none was registered. -/
def defaultIncrD : Symbol := ⟨lit "../local/build/lib/default.so", lit "default_incr_d"⟩

namespace Paralg

variable {n : Nat} {V : Type}

/-- Keeps a value in the cache, in SSP mode. -/
def cache (p : Paralg n V) (key : Str) (val : V) : Paralg n V :=
  if p.sspSwitch then { p with cachedPara := p.cachedPara.insert key val } else p

/-- Keeps several values in the cache, in order. -/
def cacheAll (p : Paralg n V) (kvs : List (Str × V)) : Paralg n V :=
  kvs.foldl (fun p kv => p.cache kv.1 kv.2) p

/-- Replaces the server `indx`. -/
def setServer (p : Paralg n V) (indx : Fin n) (s : Server V) : Paralg n V :=
  { p with kvm := Function.update p.kvm indx s }

/-- The loop over all servers of the batched calls; `r` is the conjunction of what
    the servers say. -/
def forServers (body : Fin n → Paralg n V → Option (Bool × Paralg n V)) :
    List (Fin n) → Paralg n V → Option (Bool × Paralg n V)
  | [], p => some (true, p)
  | k :: ks, p =>
      (body k p).bind fun (rr, p) => (forServers body ks p).map fun (r, p) => (rr && r, p)

/-- `dct_lst`: the entries of a dictionary by the server of their key. -/
def dctLst (getServer : Str → Fin n) (dct : Dict Str V) : Fin n → Dict Str V :=
  (Dict.pairs dct).foldl
    (fun lst kv => Function.update lst (getServer kv.1)
      ((lst (getServer kv.1)).insert kv.1 kv.2))
    fun _ => ∅

/-- `kd_lst`: the keys and deltas of two lists by the server of their key. -/
def kdLst (getServer : Str → Fin n) (kvs : List (Str × V)) : Fin n → List (Str × V) :=
  kvs.foldl
    (fun lst kv => Function.update lst (getServer kv.1) (lst (getServer kv.1) ++ [kv]))
    fun _ => []

section Calls

variable [Inhabited V] (lib : Libs V) (getServer : Str → Fin n) (p : Paralg n V)

/-- `paracel_register_update`; the `bool` is always `true`. -/
def paracelRegisterUpdate (func : Symbol) : Paralg n V :=
  { p with
    updateF := some (lib.update func)
    kvm := fun i => Kvclt.registerUpdate lib (p.kvm i) func }

/-- `paracel_read` with `ssp_switch` off. -/
def paracelRead (key : Str) : Option (Option V × Paralg n V) :=
  let indx := getServer key
  (Kvclt.pull lib (p.kvm indx) key).map fun (val, s) => (val, p.setServer indx s)

/-- The loop of `paracel_readall`. -/
def readallFrom : List (Fin n) → Dict Str V → Paralg n V → Option (Dict Str V × Paralg n V)
  | [], d, p => some (d, p)
  | indx :: rest, d, p =>
      (Kvclt.pullall lib (p.kvm indx)).bind fun (tmp, s) =>
        readallFrom rest ((Dict.pairs tmp).foldl (fun d kv => d.insert kv.1 kv.2) d)
          (p.setServer indx s)

/-- `paracel_readall`. -/
def paracelReadall : Option (Dict Str V × Paralg n V) :=
  readallFrom lib (List.finRange n) ∅ p

/-- `paracel_write`. -/
def paracelWrite (key : Str) (val : V) : Option (Bool × Paralg n V) :=
  let indx := getServer key
  let p := p.cache key val
  (Kvclt.push lib (p.kvm indx) key val).map fun (r, s) => (r, p.setServer indx s)

/-- What `paracel_write_multi` does with the group of server `k`. -/
def writeGroup (lst : Fin n → Dict Str V) (k : Fin n) (p : Paralg n V) :
    Option (Bool × Paralg n V) :=
  if (lst k).entries.length ≠ 0 then
    (Kvclt.pushMultiDct lib (p.kvm k) (lst k)).map fun (r, s) => (r, p.setServer k s)
  else some (true, p)

/-- `paracel_write_multi`. -/
def paracelWriteMulti (dct : Dict Str V) : Option (Bool × Paralg n V) :=
  let p := p.cacheAll (Dict.pairs dct)
  forServers (writeGroup lib (dctLst getServer dct)) (List.finRange n) p

/-- `paracel_update` with the function in force. -/
def paracelUpdate (key : Str) (delta : V) : Option (Paralg n V) :=
  let indx := getServer key
  let p' : Option (Paralg n V) :=
    if p.sspSwitch then
      let f := p.updateF.getD (lib.update defaultIncrD)
      (p.cachedPara.lookup key).map fun val =>
        { p with updateF := some f, cachedPara := p.cachedPara.insert key (f val delta) }
    else some p
  p'.map fun p => p.setServer indx (Kvclt.update lib (p.kvm indx) key delta none)

/-- `paracel_update` naming its function. The cached value is computed with
    `update_f` nevertheless, and calling it empty throws. -/
def paracelUpdateBy (key : Str) (delta : V) (func : Symbol) : Option (Paralg n V) :=
  let indx := getServer key
  let p' : Option (Paralg n V) :=
    if p.sspSwitch then
      (p.cachedPara.lookup key).bind fun val =>
        p.updateF.map fun f =>
          { p with cachedPara := p.cachedPara.insert key (f val delta) }
    else some p
  p'.map fun p => p.setServer indx (Kvclt.update lib (p.kvm indx) key delta (some func))

/-- `paracel_bupdate`, with and without a function name. A `val` that was not
    received is default-constructed. -/
def paracelBupdate (key : Str) (delta : V) (func : Option Symbol) :
    Option (Bool × Paralg n V) :=
  let indx := getServer key
  (Kvclt.bupdate lib (p.kvm indx) key delta func).map fun (newVal, s) =>
    (newVal.isSome, (p.setServer indx s).cache key (newVal.getD default))

/-- What `paracel_bupdate_multi` on two lists does with the group of server `k`. -/
def bupdateGroup (func : Symbol) (lst : Fin n → List (Str × V)) (k : Fin n) (p : Paralg n V) :
    Option (Bool × Paralg n V) :=
  let keyLst := (lst k).map Prod.fst
  let deltaLst := (lst k).map Prod.snd
  (Kvclt.bupdateMulti lib (p.kvm k) keyLst deltaLst (some func)).map fun (tmp, s) =>
    (true, (p.setServer k s).cacheAll (keyLst.zip tmp))

/-- `paracel_bupdate_multi` on two lists of the same length; `deltas[i]` is not checked. -/
def paracelBupdateMulti (keys : List Str) (deltas : List V) (func : Symbol) :
    Option (Bool × Paralg n V) :=
  forServers (bupdateGroup lib func (kdLst getServer (keys.zip deltas))) (List.finRange n) p

/-- What `paracel_bupdate_multi` on a dictionary does with the group of server `k`. -/
def bupdateDctGroup (func : Symbol) (lst : Fin n → Dict Str V) (k : Fin n) (p : Paralg n V) :
    Option (Bool × Paralg n V) :=
  if (lst k).entries.length ≠ 0 then
    (Kvclt.bupdateMultiDct lib (p.kvm k) (lst k) (some func)).map fun (tmp, s) =>
      (true, (p.setServer k s).cacheAll (((Dict.pairs (lst k)).map Prod.fst).zip tmp))
  else some (true, p)

/-- `paracel_bupdate_multi` on a dictionary. -/
def paracelBupdateMultiDct (dct : Dict Str V) (func : Symbol) : Option (Bool × Paralg n V) :=
  forServers (bupdateDctGroup lib func (dctLst getServer dct)) (List.finRange n) p

/-- `paracel_contains`. -/
def paracelContains (key : Str) : Option (Bool × Paralg n V) :=
  let indx := getServer key
  (Kvclt.contains lib (p.kvm indx) key).map fun (r, s) => (r, p.setServer indx s)

/-- `paracel_remove`. -/
def paracelRemove (key : Str) : Option (Bool × Paralg n V) :=
  let indx := getServer key
  (Kvclt.remove lib (p.kvm indx) key).map fun (r, s) => (r, p.setServer indx s)

end Calls

@[simp] theorem setServer_kvm (p : Paralg n V) (indx : Fin n) (s : Server V) :
    (p.setServer indx s).kvm = Function.update p.kvm indx s := rfl

@[simp] theorem setServer_sspSwitch (p : Paralg n V) (indx : Fin n) (s : Server V) :
    (p.setServer indx s).sspSwitch = p.sspSwitch := rfl

@[simp] theorem setServer_cachedPara (p : Paralg n V) (indx : Fin n) (s : Server V) :
    (p.setServer indx s).cachedPara = p.cachedPara := rfl

theorem setServer_self (p : Paralg n V) (k : Fin n) : p.setServer k (p.kvm k) = p := by
  simp [setServer]

theorem cache_of_off {p : Paralg n V} (hoff : p.sspSwitch = false) (key : Str) (val : V) :
    p.cache key val = p := by
  simp [cache, hoff]

theorem cacheAll_of_off {p : Paralg n V} (hoff : p.sspSwitch = false) (kvs : List (Str × V)) :
    p.cacheAll kvs = p := by
  induction kvs with
  | nil => rfl
  | cons kv kvs ih =>
      rw [cacheAll, List.foldl_cons, cache_of_off hoff]
      exact ih

/-! ### Grouping by server -/

/-- One entry more: it goes to the group of its server. -/
private theorem lookup_update_insert (getServer : Str → Fin n) (lst : Fin n → Dict Str V)
    (kv : Str × V) (k : Fin n) (key : Str) :
    (Function.update lst (getServer kv.1) ((lst (getServer kv.1)).insert kv.1 kv.2) k).lookup
      key =
    if key = kv.1 ∧ getServer key = k then some kv.2 else (lst k).lookup key := by
  by_cases hk : k = getServer kv.1
  · subst hk
    rw [Function.update_self]
    by_cases hkey : key = kv.1
    · subst hkey
      simp
    · simp [hkey]
  · rw [Function.update_of_ne hk, if_neg]
    rintro ⟨rfl, rfl⟩
    exact hk rfl

/-- The groups, while they are built, against a copy of the whole dictionary. -/
private theorem lookup_foldl_update (getServer : Str → Fin n) (k : Fin n) (key : Str)
    (kvs : List (Str × V)) {lst : Fin n → Dict Str V} {d : Dict Str V}
    (h : (lst k).lookup key = if getServer key = k then d.lookup key else none) :
    (kvs.foldl (fun lst kv => Function.update lst (getServer kv.1)
        ((lst (getServer kv.1)).insert kv.1 kv.2)) lst k).lookup key =
      if getServer key = k then (kvs.foldl (fun d kv => d.insert kv.1 kv.2) d).lookup key
      else none := by
  induction kvs generalizing lst d with
  | nil => exact h
  | cons kv kvs ih =>
      apply ih
      rw [lookup_update_insert, h]
      by_cases hk : getServer key = k
      · by_cases hkey : key = kv.1
        · subst hkey
          simp [hk]
        · simp [hk, hkey]
      · simp [hk]

/-- A key is in the group of its own server only. -/
theorem lookup_dctLst (getServer : Str → Fin n) (dct : Dict Str V) (k : Fin n) (key : Str) :
    (dctLst getServer dct k).lookup key =
      if getServer key = k then dct.lookup key else none := by
  rw [dctLst, lookup_foldl_update getServer k key (Dict.pairs dct) (d := ∅) (by simp),
    Kvs.lookup_foldl_insert, AList.lookup_empty, Option.or_none]

/-- A group has the pairs of its server, in their order. -/
theorem kdLst_eq (getServer : Str → Fin n) (kvs : List (Str × V)) (k : Fin n) :
    kdLst getServer kvs k = kvs.filter fun kv => getServer kv.1 = k := by
  have hfold : ∀ (kvs : List (Str × V)) (lst : Fin n → List (Str × V)),
      kvs.foldl (fun lst kv => Function.update lst (getServer kv.1)
          (lst (getServer kv.1) ++ [kv])) lst k =
        lst k ++ kvs.filter fun kv => getServer kv.1 = k := by
    intro kvs
    induction kvs with
    | nil => simp
    | cons kv kvs ih =>
        intro lst
        rw [List.foldl_cons, ih]
        by_cases hk : getServer kv.1 = k
        · subst hk
          simp
        · simp [hk, Function.update_of_ne (Ne.symm hk)]
  rw [kdLst, hfold, List.nil_append]

end Paralg

end Paracel
