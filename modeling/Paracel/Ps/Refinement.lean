import Mathlib.Data.Finmap
import Paracel.Ps.Paralg

/-!
# Many servers are one dictionary

What the parameter store is for: the calls on `srv_sz` servers return what the
same calls on a single dictionary would. The two are related by placement: the
server that the ring gives for a key holds what the dictionary has for it, and
no other server holds the key at all.
-/

namespace Paracel

open MergeFold

variable {V : Type}

/-- The calls of a worker program that share the store with `ssp_switch` off. -/
inductive Op (V : Type) where
  | write (key : Str) (val : V)
  | writeMulti (dct : Dict Str V)
  | bupdate (key : Str) (delta : V) (func : Symbol)
  | bupdateMulti (keys : List Str) (deltas : List V) (func : Symbol)
  | bupdateMultiDct (dct : Dict Str V) (func : Symbol)
  | remove (key : Str)
  | read (key : Str)
  | contains (key : Str)
  | readall

/-- A dictionary without an order of its entries. -/
abbrev Dictionary (V : Type) := Finmap fun _ : Str => V

/-- What the calls return. -/
inductive Result (V : Type) where
  | bool (b : Bool)
  | val (v : Option V)
  | dct (d : Dictionary V)

/-! ### The dictionary -/

namespace Dictionary

/-- Merges a delta into the value of its key; an absent key gets the delta. -/
def merge (f : V → V → V) (m : Dictionary V) (key : Str) (delta : V) : Dictionary V :=
  m.insert key (((m.lookup key).map (f · delta)).getD delta)

/-- Merges pairs in order. -/
def mergeList (f : V → V → V) (m : Dictionary V) (pairs : List (Str × V)) : Dictionary V :=
  pairs.foldl (fun m p => merge f m p.1 p.2) m

/-- The calls on one dictionary. -/
def perform (lib : Libs V) (m : Dictionary V) : Op V → Result V × Dictionary V
  | .write key val => (.bool true, m.insert key val)
  | .writeMulti dct => (.bool true, dct.toFinmap ∪ m)
  | .bupdate key delta func => (.bool true, merge (lib.update func) m key delta)
  | .bupdateMulti keys deltas func =>
      (.bool true, mergeList (lib.update func) m (keys.zip deltas))
  | .bupdateMultiDct dct func =>
      (.bool true, mergeList (lib.update func) m (Dict.pairs dct))
  | .remove key => (.bool (m.lookup key).isSome, m.erase key)
  | .read key => (.val (m.lookup key), m)
  | .contains key => (.bool (m.lookup key).isSome, m)
  | .readall => (.dct m, m)

/-- A sequence of calls on one dictionary. -/
def performAll (lib : Libs V) (m : Dictionary V) : List (Op V) → List (Result V) × Dictionary V
  | [] => ([], m)
  | op :: ops =>
      let (r, m) := perform lib m op
      let (rs, m) := performAll lib m ops
      (r :: rs, m)

theorem lookup_insert (m : Dictionary V) (key k : Str) (v : V) :
    (m.insert key v).lookup k = if k = key then some v else m.lookup k := by
  by_cases hk : k = key
  · subst hk
    rw [if_pos rfl]
    exact Finmap.lookup_insert m
  · rw [if_neg hk]
    exact Finmap.lookup_insert_of_ne m hk

theorem lookup_erase (m : Dictionary V) (key k : Str) :
    (m.erase key).lookup k = if k = key then none else m.lookup k := by
  by_cases hk : k = key
  · subst hk
    rw [if_pos rfl]
    exact Finmap.lookup_erase k m
  · rw [if_neg hk]
    exact Finmap.lookup_erase_ne hk

theorem lookup_union (dct : Dict Str V) (m : Dictionary V) (k : Str) :
    (dct.toFinmap ∪ m).lookup k = (dct.lookup k).or (m.lookup k) := by
  cases hdct : dct.lookup k with
  | none =>
      rw [Option.none_or]
      exact Finmap.lookup_union_right (Finmap.lookup_eq_none.mp hdct)
  | some v =>
      rw [Option.some_or, ← hdct]
      exact Finmap.lookup_union_left (Finmap.lookup_isSome.mp (by
        rw [show Finmap.lookup k dct.toFinmap = dct.lookup k from rfl, hdct]
        rfl))

theorem lookup_merge (f : V → V → V) (m : Dictionary V) (key k : Str) (delta : V) :
    (merge f m key delta).lookup k =
      if k = key then Option.merge f (m.lookup key) (some delta) else m.lookup k := by
  rw [merge, lookup_insert]
  by_cases hk : k = key
  · simp only [hk, if_true]
    cases m.lookup key <;> rfl
  · simp only [hk, if_false]

theorem lookup_mergeList (f : V → V → V) (m : Dictionary V) (pairs : List (Str × V)) (k : Str) :
    (mergeList f m pairs).lookup k = mergeAll f (m.lookup k) (deltasOf k pairs) := by
  induction pairs generalizing m with
  | nil => rfl
  | cons p pairs ih =>
      rw [mergeList, List.foldl_cons, ← mergeList, ih, lookup_merge, deltasOf_cons]
      by_cases hk : k = p.1
      · subst hk
        rw [if_pos rfl, if_pos rfl, mergeAll_cons]
      · rw [if_neg hk, if_neg (Ne.symm hk)]

end Dictionary

/-! ### The servers -/

variable {n : Nat}

/-- The calls on the servers of `p`. -/
def perform [Inhabited V] (lib : Libs V) (getServer : Str → Fin n) (p : Paralg n V) :
    Op V → Option (Result V × Paralg n V)
  | .write key val =>
      (p.paracelWrite lib getServer key val).map fun (r, p) => (.bool r, p)
  | .writeMulti dct =>
      (p.paracelWriteMulti lib getServer dct).map fun (r, p) => (.bool r, p)
  | .bupdate key delta func =>
      (p.paracelBupdate lib getServer key delta (some func)).map fun (r, p) => (.bool r, p)
  | .bupdateMulti keys deltas func =>
      (p.paracelBupdateMulti lib getServer keys deltas func).map fun (r, p) => (.bool r, p)
  | .bupdateMultiDct dct func =>
      (p.paracelBupdateMultiDct lib getServer dct func).map fun (r, p) => (.bool r, p)
  | .remove key => (p.paracelRemove lib getServer key).map fun (r, p) => (.bool r, p)
  | .read key => (p.paracelRead lib getServer key).map fun (v, p) => (.val v, p)
  | .contains key => (p.paracelContains lib getServer key).map fun (r, p) => (.bool r, p)
  | .readall => (p.paracelReadall lib).map fun (d, p) => (.dct d.toFinmap, p)

/-- A sequence of calls on the servers of `p`. -/
def performAll [Inhabited V] (lib : Libs V) (getServer : Str → Fin n) :
    Paralg n V → List (Op V) → Option (List (Result V) × Paralg n V)
  | p, [] => some ([], p)
  | p, op :: ops =>
      (perform lib getServer p op).bind fun (r, p) =>
        (performAll lib getServer p ops).map fun (rs, p) => (r :: rs, p)

/-- The server of a key holds what the dictionary has for it, the others nothing. -/
def Placed (getServer : Str → Fin n) (kvm : Fin n → Server V) (m : Dictionary V) : Prop :=
  ∀ i key, (kvm i).tblStore.get key = if getServer key = i then m.lookup key else none

section Placement

variable {getServer : Str → Fin n} {kvm : Fin n → Server V} {m m' : Dictionary V}

theorem Placed.get (h : Placed getServer kvm m) (key : Str) :
    (kvm (getServer key)).tblStore.get key = m.lookup key := by
  rw [h, if_pos rfl]

/-- A call on the server of `key` that changes nothing but the value of `key`. -/
theorem Placed.update (h : Placed getServer kvm m) {key : Str} {s : Server V} {v : Option V}
    (hs : ∀ k, s.tblStore.get k =
      if k = key then v else (kvm (getServer key)).tblStore.get k)
    (hm : ∀ k, m'.lookup k = if k = key then v else m.lookup k) :
    Placed getServer (Function.update kvm (getServer key) s) m' := by
  intro i k
  by_cases hi : i = getServer key
  · subst hi
    rw [Function.update_self, hs, hm, h]
    by_cases hk : k = key
    · subst hk
      simp
    · simp [hk]
  · rw [Function.update_of_ne hi, h, hm]
    by_cases hk : k = key
    · subst hk
      simp [Ne.symm hi]
    · simp [hk]

/-- A call that leaves the store of one server as it was. -/
theorem Placed.same (h : Placed getServer kvm m) {i : Fin n} {s : Server V}
    (hs : s.tblStore = (kvm i).tblStore) : Placed getServer (Function.update kvm i s) m := by
  intro j k
  by_cases hj : j = i
  · subst hj
    rw [Function.update_self, hs, h]
  · rw [Function.update_of_ne hj, h]

end Placement

/-! ### The loops over the servers -/

section Loops

variable {getServer : Str → Fin n} {m : Dictionary V}

/-- A loop whose body works on its own server only replaces the servers one by one.
    `kvm` is what the bodies find, whatever was replaced before. -/
theorem forServers_eq {body : Fin n → Paralg n V → Option (Bool × Paralg n V)}
    {after kvm : Fin n → Server V}
    (hbody : ∀ k q, q.sspSwitch = false → q.kvm k = kvm k →
      body k q = some (true, q.setServer k (after k)))
    {ks : List (Fin n)} (hnodup : ks.Nodup) {q : Paralg n V} (hoff : q.sspSwitch = false)
    (hkvm : ∀ k ∈ ks, q.kvm k = kvm k) :
    ∃ p', Paralg.forServers body ks q = some (true, p') ∧ p'.sspSwitch = false ∧
      ∀ i, p'.kvm i = if i ∈ ks then after i else q.kvm i := by
  induction ks generalizing q with
  | nil => exact ⟨q, rfl, hoff, fun i => by simp⟩
  | cons k ks ih =>
      rw [List.nodup_cons] at hnodup
      have hk := hbody k q hoff (hkvm k List.mem_cons_self)
      obtain ⟨p', hp', hoff', hafter⟩ := ih hnodup.2 (q := q.setServer k (after k)) hoff
        fun j hj => by
          have hne : j ≠ k := fun h => hnodup.1 (h ▸ hj)
          rw [Paralg.setServer_kvm, Function.update_of_ne hne]
          exact hkvm j (List.mem_cons_of_mem k hj)
      refine ⟨p', by simp [Paralg.forServers, hk, hp'], hoff', ?_⟩
      intro i
      rw [hafter, Paralg.setServer_kvm]
      by_cases hi : i = k
      · subst hi
        simp [hnodup.1]
      · simp [hi]

/-- The same loop over all servers. -/
theorem forServers_finRange {body : Fin n → Paralg n V → Option (Bool × Paralg n V)}
    (after : Fin n → Server V) {p : Paralg n V} (hoff : p.sspSwitch = false)
    (hbody : ∀ k q, q.sspSwitch = false → q.kvm k = p.kvm k →
      body k q = some (true, q.setServer k (after k))) :
    ∃ p', Paralg.forServers body (List.finRange n) p = some (true, p') ∧
      p'.sspSwitch = false ∧ ∀ i, p'.kvm i = after i := by
  obtain ⟨p', hp', hoff', hafter⟩ :=
    forServers_eq hbody (List.nodup_finRange n) hoff fun _ _ => rfl
  exact ⟨p', hp', hoff', fun i => by rw [hafter, if_pos (List.mem_finRange i)]⟩

/-- An empty group holds no key. -/
theorem lookup_of_length_eq_zero {d : Dict Str V} (h : d.entries.length = 0) (k : Str) :
    d.lookup k = none := by
  have hd : d = ∅ := AList.ext (List.length_eq_zero_iff.mp h)
  rw [hd, AList.lookup_empty]

/-- A key whose server gets no pairs is not in the dictionary that is sent. -/
theorem lookup_of_group_empty {dct : Dict Str V} {i : Fin n} {k : Str}
    (hlen : (Paralg.dctLst getServer dct i).entries.length = 0) (hi : getServer k = i) :
    dct.lookup k = none := by
  have hlookup := Paralg.lookup_dctLst getServer dct i k
  rw [lookup_of_length_eq_zero hlen, if_pos hi] at hlookup
  exact hlookup.symm

theorem deltasOf_pairs (d : Dict Str V) (k : Str) :
    deltasOf k (Dict.pairs d) = (d.lookup k).toList := by
  rw [deltasOf_of_nodup k (Dict.pairs_nodup d), Kvs.find?_pairs]

variable [Inhabited V] (lib : Libs V) {p : Paralg n V}

/-- The loop of `paracel_readall` copies the keys of the servers it visits. -/
theorem readallFrom_spec (ks : List (Fin n)) (d : Dict Str V) {p : Paralg n V}
    (hp : Placed getServer p.kvm m) :
    ∃ d' p', Paralg.readallFrom lib ks d p = some (d', p') ∧ p'.sspSwitch = p.sspSwitch ∧
      Placed getServer p'.kvm m ∧
      ∀ k, d'.lookup k = if getServer k ∈ ks then (m.lookup k).or (d.lookup k) else d.lookup k := by
  induction ks generalizing d p with
  | nil => exact ⟨d, p, rfl, rfl, hp, fun k => by simp⟩
  | cons i ks ih =>
      obtain ⟨d', p', hrest, hssp, hp', hd'⟩ := ih
        ((Dict.pairs (p.kvm i).tblStore.getall).foldl (fun d kv => d.insert kv.1 kv.2) d)
        (p := p.setServer i (serve lib (p.kvm i) .pullall).mem)
        (hp.same (Kvclt.tblStore_pullall lib (p.kvm i)))
      refine ⟨d', p', ?_, hssp, hp', ?_⟩
      · rw [Paralg.readallFrom, Kvclt.pullall_eq]
        exact hrest
      · intro k
        have hget : (p.kvm i).tblStore.getall.lookup k =
            if getServer k = i then m.lookup k else none := hp i k
        rw [hd', Kvs.lookup_foldl_insert, hget]
        by_cases hi : getServer k = i
        · cases m.lookup k <;> simp [hi]
        · simp [hi]

/-! ### The simulation -/

/-- A server after the turn of a loop that leaves out the servers with an empty group. -/
def afterGroup (s : Server V) (group : Dict Str V) (req : Request V) : Server V :=
  if group.entries.length ≠ 0 then (serve lib s req).mem else s

theorem writeGroup_eq (lst : Fin n → Dict Str V) (k : Fin n) (q : Paralg n V) :
    Paralg.writeGroup lib lst k q =
      some (true, q.setServer k (afterGroup lib (q.kvm k) (lst k)
        (.pushMulti ((Dict.pairs (lst k)).map Prod.fst) ((Dict.pairs (lst k)).map Prod.snd)))) := by
  unfold Paralg.writeGroup afterGroup
  by_cases hlen : (lst k).entries.length ≠ 0
  · rw [if_pos hlen, if_pos hlen, Kvclt.pushMultiDct, Kvclt.pushMulti_eq _ _ (by simp)]
    rfl
  · rw [if_neg hlen, if_neg hlen]
    simp [Paralg.setServer]

theorem writeMulti_refines (hoff : p.sspSwitch = false) (hp : Placed getServer p.kvm m)
    (dct : Dict Str V) :
    ∃ p', p.paracelWriteMulti lib getServer dct = some (true, p') ∧ p'.sspSwitch = false ∧
      Placed getServer p'.kvm (dct.toFinmap ∪ m) := by
  let lst := Paralg.dctLst getServer dct
  have hbody : ∀ k (q : Paralg n V), q.sspSwitch = false → q.kvm k = p.kvm k →
      Paralg.writeGroup lib lst k q = some (true, q.setServer k (afterGroup lib (p.kvm k) (lst k)
        (.pushMulti ((Dict.pairs (lst k)).map Prod.fst) ((Dict.pairs (lst k)).map Prod.snd)))) := by
    intro k q _ hk
    rw [writeGroup_eq, hk]
  obtain ⟨p', hp', hoff', hkvm⟩ := forServers_finRange _ hoff hbody
  refine ⟨p', ?_, hoff', ?_⟩
  · rw [Paralg.paracelWriteMulti, Paralg.cacheAll_of_off hoff]
    exact hp'
  · intro i k
    have hlookup := Paralg.lookup_dctLst getServer dct i k
    rw [hkvm, Dictionary.lookup_union, afterGroup]
    by_cases hlen : (lst i).entries.length ≠ 0
    · rw [if_pos hlen, Kvclt.get_pushMultiDct, hlookup, hp]
      by_cases hi : getServer k = i <;> simp [hi]
    · rw [if_neg hlen, hp]
      by_cases hi : getServer k = i
      · simp [hi, lookup_of_group_empty (not_not.mp hlen) hi]
      · simp [hi]

/-- What a server holds after its group of pairs was merged. -/
theorem get_bupdateMulti (hp : Placed getServer p.kvm m) (i : Fin n) (k : Str)
    (pairs : List (Str × V)) (func : Symbol) :
    (serve lib (p.kvm i) (.bupdateMulti (pairs.map Prod.fst) (pairs.map Prod.snd)
      (some func))).mem.tblStore.get k =
    mergeAll (lib.update func) (if getServer k = i then m.lookup k else none)
      (deltasOf k pairs) := by
  have hzip : (pairs.map Prod.fst).zip (pairs.map Prod.snd) = pairs := by
    rw [List.zip_map', List.map_id']
  rw [Kvclt.tblStore_update _ _ (by simp [Request.isUpdate]), get_applyPairs, hp,
    Request.pairs, hzip]
  rfl

theorem bupdateGroup_eq (func : Symbol) (lst : Fin n → List (Str × V)) (k : Fin n)
    {q : Paralg n V} (hq : q.sspSwitch = false) :
    Paralg.bupdateGroup lib func lst k q =
      some (true, q.setServer k (serve lib (q.kvm k) (.bupdateMulti ((lst k).map Prod.fst)
        ((lst k).map Prod.snd) (some func))).mem) := by
  simp only [Paralg.bupdateGroup]
  rw [Kvclt.bupdateMulti_eq _ _ _ (by simp), Option.map_some]
  simp only [Paralg.cacheAll_of_off (p := q.setServer k _) hq]

theorem bupdateMulti_refines (hoff : p.sspSwitch = false) (hp : Placed getServer p.kvm m)
    (keys : List Str) (deltas : List V) (func : Symbol) :
    ∃ p', p.paracelBupdateMulti lib getServer keys deltas func = some (true, p') ∧
      p'.sspSwitch = false ∧ Placed getServer p'.kvm
        (Dictionary.mergeList (lib.update func) m (keys.zip deltas)) := by
  let lst := Paralg.kdLst getServer (keys.zip deltas)
  have hbody : ∀ k (q : Paralg n V), q.sspSwitch = false → q.kvm k = p.kvm k →
      Paralg.bupdateGroup lib func lst k q =
        some (true, q.setServer k (serve lib (p.kvm k) (.bupdateMulti ((lst k).map Prod.fst)
          ((lst k).map Prod.snd) (some func))).mem) := by
    intro k q hq hk
    rw [bupdateGroup_eq lib func lst k hq, hk]
  obtain ⟨p', hp', hoff', hkvm⟩ := forServers_finRange _ hoff hbody
  refine ⟨p', hp', hoff', ?_⟩
  intro i k
  rw [hkvm, get_bupdateMulti lib hp, Dictionary.lookup_mergeList]
  simp only [lst, Paralg.kdLst_eq]
  rw [deltasOf_filter k (fun k => getServer k = i)]
  by_cases hi : getServer k = i <;> simp [hi]

theorem bupdateDctGroup_eq (func : Symbol) (lst : Fin n → Dict Str V) (k : Fin n)
    {q : Paralg n V} (hq : q.sspSwitch = false) :
    Paralg.bupdateDctGroup lib func lst k q =
      some (true, q.setServer k (afterGroup lib (q.kvm k) (lst k)
        (.bupdateMulti ((Dict.pairs (lst k)).map Prod.fst) ((Dict.pairs (lst k)).map Prod.snd)
          (some func)))) := by
  unfold Paralg.bupdateDctGroup afterGroup
  by_cases hlen : (lst k).entries.length ≠ 0
  · rw [if_pos hlen, if_pos hlen, Kvclt.bupdateMultiDct, Kvclt.bupdateMulti_eq _ _ _ (by simp),
      Option.map_some]
    simp only [Paralg.cacheAll_of_off (p := q.setServer k _) hq]
  · rw [if_neg hlen, if_neg hlen]
    simp [Paralg.setServer]

theorem bupdateMultiDct_refines (hoff : p.sspSwitch = false) (hp : Placed getServer p.kvm m)
    (dct : Dict Str V) (func : Symbol) :
    ∃ p', p.paracelBupdateMultiDct lib getServer dct func = some (true, p') ∧
      p'.sspSwitch = false ∧ Placed getServer p'.kvm
        (Dictionary.mergeList (lib.update func) m (Dict.pairs dct)) := by
  let lst := Paralg.dctLst getServer dct
  have hbody : ∀ k (q : Paralg n V), q.sspSwitch = false → q.kvm k = p.kvm k →
      Paralg.bupdateDctGroup lib func lst k q =
        some (true, q.setServer k (afterGroup lib (p.kvm k) (lst k)
          (.bupdateMulti ((Dict.pairs (lst k)).map Prod.fst) ((Dict.pairs (lst k)).map Prod.snd)
            (some func)))) := by
    intro k q hq hk
    rw [bupdateDctGroup_eq lib func lst k hq, hk]
  obtain ⟨p', hp', hoff', hkvm⟩ := forServers_finRange _ hoff hbody
  refine ⟨p', hp', hoff', ?_⟩
  intro i k
  have hlookup := Paralg.lookup_dctLst getServer dct i k
  rw [hkvm, Dictionary.lookup_mergeList, deltasOf_pairs, afterGroup]
  by_cases hlen : (lst i).entries.length ≠ 0
  · rw [if_pos hlen, get_bupdateMulti lib hp, deltasOf_pairs, hlookup]
    by_cases hi : getServer k = i <;> simp [hi]
  · rw [if_neg hlen, hp]
    by_cases hi : getServer k = i
    · simp [hi, lookup_of_group_empty (not_not.mp hlen) hi]
    · simp [hi]

/-- One call returns what it returns on the dictionary and keeps the placement. -/
theorem perform_refines (hoff : p.sspSwitch = false) (hp : Placed getServer p.kvm m) (op : Op V) :
    ∃ p', perform lib getServer p op = some ((Dictionary.perform lib m op).1, p') ∧
      p'.sspSwitch = false ∧ Placed getServer p'.kvm (Dictionary.perform lib m op).2 := by
  cases op with
  | write key val =>
      refine ⟨p.setServer (getServer key)
        (serve lib (p.kvm (getServer key)) (.push key val)).mem, ?_, hoff, ?_⟩
      · simp [perform, Paralg.paracelWrite, Paralg.cache_of_off hoff, Kvclt.push_eq,
          Dictionary.perform]
      · refine hp.update (v := some val) ?_ ?_
        · intro k
          rw [Kvclt.tblStore_push, Kvs.get_set]
        · intro k
          exact Dictionary.lookup_insert m key k val
  | writeMulti dct =>
      obtain ⟨p', hp', hoff', hplaced⟩ := writeMulti_refines lib hoff hp dct
      exact ⟨p', by simp [perform, hp', Dictionary.perform], hoff', hplaced⟩
  | bupdate key delta func =>
      have hget : ∀ k, (serve lib (p.kvm (getServer key))
          (.bupdate key delta (some func))).mem.tblStore.get k =
          if k = key then Option.merge (lib.update func) (m.lookup key) (some delta)
          else (p.kvm (getServer key)).tblStore.get k := by
        intro k
        have hupd : (Request.bupdate key delta (some func)).isUpdate := trivial
        rw [Kvclt.get_update_single lib _ hupd rfl, hp.get]
        rfl
      refine ⟨p.setServer (getServer key)
        (serve lib (p.kvm (getServer key)) (.bupdate key delta (some func))).mem, ?_, hoff, ?_⟩
      · have hsome : (Option.merge (lib.update func) (m.lookup key) (some delta)).isSome := by
          rw [Option.isSome_merge]
          simp
        simp only [perform, Paralg.paracelBupdate, Kvclt.bupdate_eq, Option.map_some, hget,
          if_true, hsome, Paralg.cache_of_off (p := p.setServer (getServer key) _) hoff,
          Dictionary.perform]
      · exact hp.update hget (Dictionary.lookup_merge (lib.update func) m key · delta)
  | bupdateMulti keys deltas func =>
      obtain ⟨p', hp', hoff', hplaced⟩ :=
        bupdateMulti_refines lib hoff hp keys deltas func
      exact ⟨p', by simp [perform, hp', Dictionary.perform], hoff', hplaced⟩
  | bupdateMultiDct dct func =>
      obtain ⟨p', hp', hoff', hplaced⟩ := bupdateMultiDct_refines lib hoff hp dct func
      exact ⟨p', by simp [perform, hp', Dictionary.perform], hoff', hplaced⟩
  | remove key =>
      refine ⟨p.setServer (getServer key)
        (serve lib (p.kvm (getServer key)) (.remove key)).mem, ?_, hoff, ?_⟩
      · simp [perform, Paralg.paracelRemove, Kvclt.remove_eq, Kvs.contains, hp.get,
          Dictionary.perform]
      · refine hp.update (v := none) ?_ fun k => Dictionary.lookup_erase m key k
        intro k
        rw [Kvclt.tblStore_remove, Kvs.get_del]
  | read key =>
      refine ⟨p.setServer (getServer key)
        (serve lib (p.kvm (getServer key)) (.pull key)).mem, ?_, hoff, ?_⟩
      · simp [perform, Paralg.paracelRead, Kvclt.pull_eq, hp.get, Dictionary.perform]
      · exact hp.same (Kvclt.tblStore_pull lib _ key)
  | contains key =>
      refine ⟨p.setServer (getServer key)
        (serve lib (p.kvm (getServer key)) (.contains key)).mem, ?_, hoff, ?_⟩
      · simp [perform, Paralg.paracelContains, Kvclt.contains_eq, Kvs.contains, hp.get,
          Dictionary.perform]
      · exact hp.same (Kvclt.tblStore_contains lib _ key)
  | readall =>
      obtain ⟨d, p', hd, hssp, hplaced, hlookup⟩ :=
        readallFrom_spec lib (List.finRange n) ∅ hp
      have hall : d.toFinmap = m := Finmap.ext_lookup fun k => by
        rw [show Finmap.lookup k d.toFinmap = d.lookup k from rfl, hlookup]
        simp
      refine ⟨p', ?_, hssp.trans hoff, hplaced⟩
      simp [perform, Paralg.paracelReadall, hd, hall, Dictionary.perform]

theorem performAll_refines {p : Paralg n V} (hoff : p.sspSwitch = false)
    (hp : Placed getServer p.kvm m) (ops : List (Op V)) :
    ∃ p', performAll lib getServer p ops = some ((Dictionary.performAll lib m ops).1, p') ∧
      Placed getServer p'.kvm (Dictionary.performAll lib m ops).2 := by
  induction ops generalizing p m with
  | nil => exact ⟨p, rfl, hp⟩
  | cons op ops ih =>
      obtain ⟨p', hop, hoff', hp'⟩ := perform_refines lib hoff hp op
      obtain ⟨p'', hops, hp''⟩ := ih hoff' hp'
      exact ⟨p'', by simp [performAll, Dictionary.performAll, hop, hops], hp''⟩

end Loops

/-- Whatever the ring and the number of servers, every sequence of calls on empty
    servers returns what it returns on one empty dictionary, and in the end every
    key is on its server and nowhere else. -/
theorem paralg_refines_dictionary [Inhabited V] (lib : Libs V) (getServer : Str → Fin n)
    (ops : List (Op V)) :
    ∃ p, performAll lib getServer { sspSwitch := false } ops =
        some ((Dictionary.performAll lib ∅ ops).1, p) ∧
      Placed getServer p.kvm (Dictionary.performAll lib ∅ ops).2 :=
  performAll_refines lib rfl (fun i key => by simp [Kvs.get]) ops

end Paracel
