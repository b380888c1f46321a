import Paracel.Server.NoLostUpdate

/-!
# Servers that store something for each value

The data threads open no value, so what they do is the same for the values
themselves and for anything that stands for them, such as packed values: if the
functions of the shared libraries agree, so do the replies and the stores.
-/

namespace Paracel

namespace Dict

variable {K V W : Type}

/-- A dictionary with a function applied to its values. -/
def mapVal (f : V → W) (d : Dict K V) : Dict K W where
  entries := d.entries.map fun e => ⟨e.1, f e.2⟩
  nodupKeys := by
    have hkeys : (d.entries.map fun e => (⟨e.1, f e.2⟩ : Sigma fun _ : K => W)).keys =
        d.entries.keys := by
      rw [List.keys, List.keys, List.map_map]
      rfl
    rw [List.NodupKeys, hkeys]
    exact d.nodupKeys

@[simp] theorem mapVal_empty (f : V → W) : mapVal f (∅ : Dict K V) = ∅ := rfl

theorem pairs_mapVal (f : V → W) (d : Dict K V) :
    pairs (mapVal f d) = (pairs d).map fun kv => (kv.1, f kv.2) := by
  rw [pairs, mapVal, pairs, List.map_map, List.map_map]
  rfl

variable [DecidableEq K]

@[simp] theorem lookup_mapVal (f : V → W) (d : Dict K V) (k : K) :
    (mapVal f d).lookup k = (d.lookup k).map f := by
  apply Option.ext
  intro w
  rw [← mem_pairs, pairs_mapVal, List.mem_map, Option.map_eq_some_iff]
  constructor
  · intro h
    obtain ⟨⟨k', v⟩, hmem, heq⟩ := h
    cases heq
    exact ⟨v, mem_pairs.mp hmem, rfl⟩
  · intro h
    obtain ⟨v, hv, rfl⟩ := h
    exact ⟨(k, v), mem_pairs.mpr hv, rfl⟩

theorem mapVal_erase (f : V → W) (d : Dict K V) (k : K) :
    mapVal f (d.erase k) = (mapVal f d).erase k := by
  apply AList.ext
  show (List.kerase k d.entries).map _ = List.kerase k (d.entries.map _)
  rw [List.kerase, List.kerase, List.eraseP_map]
  rfl

theorem mapVal_insert (f : V → W) (d : Dict K V) (k : K) (v : V) :
    mapVal f (d.insert k v) = (mapVal f d).insert k (f v) := by
  have herase : (List.kerase k d.entries).map (fun e => (⟨e.1, f e.2⟩ : Sigma fun _ : K => W)) =
      List.kerase k (mapVal f d).entries := congrArg AList.entries (mapVal_erase f d k)
  apply AList.ext
  rw [AList.entries_insert, ← herase]
  rfl

theorem mapVal_foldl_insert (f : V → W) (kvs : List (K × V)) (d : Dict K V) :
    mapVal f (kvs.foldl (fun d kv => d.insert kv.1 kv.2) d) =
      (kvs.map fun kv => (kv.1, f kv.2)).foldl (fun d kv => d.insert kv.1 kv.2) (mapVal f d) := by
  induction kvs generalizing d with
  | nil => rfl
  | cons kv kvs ih => rw [List.foldl_cons, ih, mapVal_insert, List.map_cons, List.foldl_cons]

end Dict

namespace Kvs

variable {K V W : Type} [DecidableEq K]

/-- A store with a function applied to its values. -/
def map (f : V → W) (s : Kvs K V) : Kvs K W := ⟨Dict.mapVal f s.kvdct⟩

@[simp] theorem get_map (f : V → W) (s : Kvs K V) (k : K) :
    (s.map f).get k = (s.get k).map f :=
  Dict.lookup_mapVal f s.kvdct k

@[simp] theorem contains_map (f : V → W) (s : Kvs K V) (k : K) :
    (s.map f).contains k = s.contains k := by
  rw [contains, get_map, Option.isSome_map, contains]

theorem set_map (f : V → W) (s : Kvs K V) (k : K) (v : V) :
    (s.map f).set k (f v) = (s.set k v).map f := by
  rw [map, map, set, set, Dict.mapVal_insert]

theorem del_map (f : V → W) (s : Kvs K V) (k : K) :
    (s.map f).del k = ((s.del k).1, (s.del k).2.map f) := by
  rw [del, del, contains_map]
  by_cases hc : s.contains k = true
  · rw [if_pos hc, if_pos hc, map, map, Dict.mapVal_erase]
  · rw [if_neg hc, if_neg hc]

theorem getMulti_map (f : V → W) (s : Kvs K V) (ks : List K) :
    (s.map f).getMulti ks = (s.getMulti ks).map (List.map f) := by
  induction ks with
  | nil => rfl
  | cons k ks ih =>
      simp only [getMulti, List.mapM_cons, get_map] at ih ⊢
      rw [ih]
      cases s.get k with
      | none => rfl
      | some v => cases ks.mapM s.get <;> rfl

theorem setMulti_map (f : V → W) (s : Kvs K V) (d : Dict K V) :
    (s.map f).setMulti (Dict.mapVal f d) = (s.setMulti d).map f := by
  have hfold : ∀ (kvs : List (K × V)) (s : Kvs K V),
      (kvs.map fun kv => (kv.1, f kv.2)).foldl (fun s kv => s.set kv.1 kv.2) (s.map f) =
        (kvs.foldl (fun s kv => s.set kv.1 kv.2) s).map f := by
    intro kvs
    induction kvs with
    | nil => exact fun _ => rfl
    | cons kv kvs ih =>
        intro s
        rw [List.map_cons, List.foldl_cons, set_map, ih, List.foldl_cons]
  rw [setMulti, Dict.pairs_mapVal, hfold, setMulti]

end Kvs

variable {V W : Type}

/-- A request with a function applied to the values in it. -/
def Request.map (f : V → W) : Request V → Request W
  | .contains key => .contains key
  | .pull key => .pull key
  | .pullMulti keyLst => .pullMulti keyLst
  | .pullall => .pullall
  | .pullallSpecial func => .pullallSpecial func
  | .registerPullallSpecial func => .registerPullallSpecial func
  | .registerRemoveSpecial func => .registerRemoveSpecial func
  | .registerUpdate func => .registerUpdate func
  | .registerBupdate func => .registerBupdate func
  | .push key val => .push key (f val)
  | .pushMulti keyLst valLst => .pushMulti keyLst (valLst.map f)
  | .update key delta func => .update key (f delta) func
  | .bupdate key delta func => .bupdate key (f delta) func
  | .bupdateMulti keyLst vOrDeltaLst func => .bupdateMulti keyLst (vOrDeltaLst.map f) func
  | .remove key => .remove key
  | .removeSpecial func => .removeSpecial func
  | .clear => .clear

/-- A reply with a function applied to the values in it. -/
def Reply.map (f : V → W) : Reply V → Reply W
  | .bool b => .bool b
  | .nokey => .nokey
  | .val v => .val (f v)
  | .vals vs => .vals (vs.map f)
  | .dct d => .dct (Dict.mapVal f d)

@[simp] theorem Request.port_map (f : V → W) (req : Request V) : (req.map f).port = req.port := by
  cases req <;> rfl

/-- The libraries do with what stands for values what others do with the values. -/
structure Libs.Rep (f : V → W) (lib : Libs V) (lib' : Libs W) : Prop where
  update : ∀ func a b, lib'.update func (f a) (f b) = f (lib.update func a b)
  filter : ∀ func key v, lib'.filter func key (f v) = lib.filter func key v

/-- The captured functions agree. -/
structure ThrdEnv.Rep (f : V → W) (env : ThrdEnv V) (env' : ThrdEnv W) : Prop where
  updateF : Option.Rel (fun g g' => ∀ a b, g' (f a) (f b) = f (g a b)) env.updateF env'.updateF
  pullallSpecialF :
    Option.Rel (fun g g' => ∀ key v, g' key (f v) = g key v)
      env.pullallSpecialF env'.pullallSpecialF
  removeSpecialF :
    Option.Rel (fun g g' => ∀ key v, g' key (f v) = g key v)
      env.removeSpecialF env'.removeSpecialF

/-- The memories of two threads agree. -/
structure Mem.Rep (f : V → W) (m : Mem V) (m' : Mem W) : Prop where
  env : m.env.Rep f m'.env
  tblStore : m'.tblStore = m.tblStore.map f

/-- Two turns agree: in what they send, in how they end, and in what they leave. -/
structure Turn.Rep (f : V → W) (t : Turn (Reply V) (Mem V)) (t' : Turn (Reply W) (Mem W)) :
    Prop where
  sent : t'.sent = t.sent.map (Reply.map f)
  thrown : t'.thrown = t.thrown
  mem : t.mem.Rep f t'.mem

section Threads

variable {f : V → W} {lib : Libs V} {lib' : Libs W} {env : ThrdEnv V} {env' : ThrdEnv W}
  {m : Mem V} {m' : Mem W}

theorem ThrdEnv.Rep.empty : ThrdEnv.Rep f {} {} :=
  ⟨.none, .none, .none⟩

theorem ThrdEnv.Rep.dlopenUpdate (hlib : lib.Rep f lib') (h : env.Rep f env') (func : Symbol) :
    (dlopenUpdateLambda lib env func).Rep f (dlopenUpdateLambda lib' env' func) :=
  { h with updateF := .some (hlib.update func) }

theorem ThrdEnv.Rep.dlopenPullall (hlib : lib.Rep f lib') (h : env.Rep f env') (func : Symbol) :
    (dlopenPullallLambda lib env func).Rep f (dlopenPullallLambda lib' env' func) :=
  { h with pullallSpecialF := .some (hlib.filter func) }

theorem ThrdEnv.Rep.dlopenRemove (hlib : lib.Rep f lib') (h : env.Rep f env') (func : Symbol) :
    (dlopenRemoveLambda lib env func).Rep f (dlopenRemoveLambda lib' env' func) :=
  { h with removeSpecialF := .some (hlib.filter func) }

theorem ThrdEnv.Rep.loadUpdate (hlib : lib.Rep f lib') (h : env.Rep f env')
    (func : Option Symbol) :
    (∀ a b, (loadUpdate lib' env' func).1 (f a) (f b) = f ((loadUpdate lib env func).1 a b)) ∧
      (loadUpdate lib env func).2.Rep f (loadUpdate lib' env' func).2 := by
  cases func with
  | some func => exact ⟨hlib.update func, h.dlopenUpdate hlib func⟩
  | none =>
      have hupdate := h.updateF
      unfold Paracel.loadUpdate
      cases hold : env.updateF with
      | none =>
          rw [hold] at hupdate
          cases hold' : env'.updateF with
          | none => exact ⟨hlib.update _, h.dlopenUpdate hlib _⟩
          | some g' =>
              rw [hold'] at hupdate
              cases hupdate
      | some g =>
          rw [hold] at hupdate
          cases hold' : env'.updateF with
          | none =>
              rw [hold'] at hupdate
              cases hupdate
          | some g' =>
              rw [hold'] at hupdate
              cases hupdate with
              | some hg => exact ⟨hg, h⟩

theorem kvUpdate_map {g : V → V → V} {g' : W → W → W}
    (hg : ∀ a b, g' (f a) (f b) = f (g a b)) (store : Kvs Str V) (key : Str) (delta : V) :
    kvUpdate (store.map f) key (f delta) g' =
      (f (kvUpdate store key delta g).1, (kvUpdate store key delta g).2.map f) := by
  simp only [kvUpdate, Kvs.get_map]
  cases store.get key with
  | none => exact Prod.ext rfl (Kvs.set_map f store key delta)
  | some val =>
      refine Prod.ext (hg val delta) ?_
      show (store.map f).set key (g' (f val) (f delta)) = _
      rw [hg, Kvs.set_map]

theorem kvsUpdate_map {g : V → V → V} {g' : W → W → W}
    (hg : ∀ a b, g' (f a) (f b) = f (g a b)) (keyLst : List Str) (deltas : List V)
    (store : Kvs Str V) :
    kvsUpdate g' keyLst (deltas.map f) (store.map f) =
      ((kvsUpdate g keyLst deltas store).1.map f, (kvsUpdate g keyLst deltas store).2.map f) := by
  induction keyLst generalizing deltas store with
  | nil => cases deltas <;> rfl
  | cons key keyLst ih =>
      cases deltas with
      | nil => rfl
      | cons delta deltas =>
          simp only [List.map_cons, kvsUpdate, kvUpdate_map hg, ih]

theorem kvFilter4pullall_map {g : Option (Str → V → Bool)} {g' : Option (Str → W → Bool)}
    (hg : Option.Rel (fun g g' => ∀ key v, g' key (f v) = g key v) g g')
    (kvs : List (Str × V)) (d : Dict Str V) :
    kvFilter4pullall g' (kvs.map fun kv => (kv.1, f kv.2)) (Dict.mapVal f d) =
      ((kvFilter4pullall g kvs d).1, Dict.mapVal f (kvFilter4pullall g kvs d).2) := by
  induction kvs generalizing d with
  | nil => rfl
  | cons kv kvs ih =>
      cases hg with
      | none => rfl
      | some hg' =>
          simp only [List.map_cons, kvFilter4pullall, hg', ← Dict.mapVal_insert]
          rw [← ih]
          split <;> rfl

/-- The filter meets no key that vanished, so the default value does not matter. -/
theorem kvFilter4remove_map [Inhabited V] [Inhabited W] {g : Option (Str → V → Bool)}
    {g' : Option (Str → W → Bool)}
    (hg : Option.Rel (fun g g' => ∀ key v, g' key (f v) = g key v) g g')
    {kvs : List (Str × V)} (hnodup : (kvs.map Prod.fst).Nodup) {store : Kvs Str V}
    (hkeys : ∀ kv ∈ kvs, (store.get kv.1).isSome) :
    kvFilter4remove g' (kvs.map fun kv => (kv.1, f kv.2)) (store.map f) =
      ((kvFilter4remove g kvs store).1, (kvFilter4remove g kvs store).2.map f) := by
  induction kvs generalizing store with
  | nil => rfl
  | cons kv kvs ih =>
      cases hg with
      | none => rfl
      | some hg' =>
          obtain ⟨v, hv⟩ := Option.isSome_iff_exists.mp (hkeys kv List.mem_cons_self)
          rw [List.map_cons, List.nodup_cons] at hnodup
          have hstore : ∀ b : Bool, (if b then ((store.map f).del kv.1).2 else store.map f) =
              (if b then (store.del kv.1).2 else store).map f := by
            intro b
            cases b
            · rfl
            · exact congrArg Prod.snd (Kvs.del_map f store kv.1)
          simp only [List.map_cons, kvFilter4remove, Kvs.get_map, hv, Option.map_some,
            Option.getD_some, hg', hstore]
          apply ih hnodup.2
          intro kv' hkv'
          have hne : kv'.1 ≠ kv.1 := by
            intro heq
            exact hnodup.1 (List.mem_map.mpr ⟨kv', hkv', heq⟩)
          have hold := hkeys kv' (List.mem_cons_of_mem kv hkv')
          split
          · rwa [Kvs.get_del, if_neg hne]
          · exact hold

theorem Turn.Rep.send {env : ThrdEnv V} {env' : ThrdEnv W} {store : Kvs Str V} {r : Reply V}
    (henv : env.Rep f env') :
    Turn.Rep f (Turn.send { mem := ⟨env, store⟩ } r)
      (Turn.send { mem := ⟨env', store.map f⟩ } (r.map f)) :=
  ⟨rfl, rfl, henv, rfl⟩

/-- What `pullall_special` sends. -/
theorem ThrdEnv.Rep.sendPullall (henv : env.Rep f env') (store : Kvs Str V) :
    Turn.Rep f
      (let (exn, newDct) := kvFilter4pullall env.pullallSpecialF (Dict.pairs store.getall) ∅
       Turn.send { mem := ⟨env, store⟩, thrown := exn } (.dct newDct))
      (let (exn, newDct) :=
          kvFilter4pullall env'.pullallSpecialF (Dict.pairs (store.map f).getall) ∅
       Turn.send { mem := ⟨env', store.map f⟩, thrown := exn } (.dct newDct)) := by
  have hpairs : Dict.pairs (store.map f).getall =
      (Dict.pairs store.getall).map fun kv => (kv.1, f kv.2) := Dict.pairs_mapVal f store.kvdct
  rw [hpairs, ← Dict.mapVal_empty f, kvFilter4pullall_map henv.pullallSpecialF]
  simp only [Turn.send]
  split
  · exact ⟨rfl, rfl, henv, rfl⟩
  · exact ⟨rfl, rfl, henv, rfl⟩

/-- What `remove_special` leaves. -/
theorem ThrdEnv.Rep.sendRemove [Inhabited V] [Inhabited W] (henv : env.Rep f env')
    (store : Kvs Str V) :
    Turn.Rep f
      (let (exn, left) := kvFilter4remove env.removeSpecialF (Dict.pairs store.getall) store
       Turn.send { mem := ⟨env, left⟩, thrown := exn } (.bool true))
      (let (exn, left) :=
          kvFilter4remove env'.removeSpecialF (Dict.pairs (store.map f).getall) (store.map f)
       Turn.send { mem := ⟨env', left⟩, thrown := exn } (.bool true)) := by
  have hpairs : Dict.pairs (store.map f).getall =
      (Dict.pairs store.getall).map fun kv => (kv.1, f kv.2) := Dict.pairs_mapVal f store.kvdct
  have hkeys : ∀ kv ∈ Dict.pairs store.getall, (store.get kv.1).isSome := by
    intro kv hkv
    have hlookup : store.get kv.1 = some kv.2 := Dict.mem_pairs.mp hkv
    rw [hlookup]
    rfl
  rw [hpairs, kvFilter4remove_map henv.removeSpecialF (Dict.pairs_nodup _) hkeys]
  simp only [Turn.send]
  split
  · exact ⟨rfl, rfl, henv, rfl⟩
  · exact ⟨rfl, rfl, henv, rfl⟩

/-- A turn of a thread agrees with that of a thread on the values. -/
theorem thrdExec_rep [Inhabited V] [Inhabited W] (hlib : lib.Rep f lib') (h : m.Rep f m')
    (req : Request V) : (thrdExec lib m req).Rep f (thrdExec lib' m' (req.map f)) := by
  obtain ⟨env, store⟩ := m
  obtain ⟨env', store'⟩ := m'
  have henv : env.Rep f env' := h.env
  have hstore : store' = store.map f := h.tblStore
  subst hstore
  cases req with
  | contains key =>
      simp only [thrdExec, Request.map, Kvs.contains_map]
      exact .send henv
  | pull key =>
      simp only [thrdExec, Request.map, Kvs.get_map]
      cases store.get key with
      | none => exact .send henv
      | some v => exact .send henv
  | pullMulti keyLst =>
      simp only [thrdExec, Request.map, Kvs.getMulti_map]
      cases store.getMulti keyLst with
      | none => exact ⟨rfl, rfl, henv, rfl⟩
      | some vs => exact .send henv
  | pullall => exact .send henv
  | pullallSpecial func =>
      cases func with
      | some func =>
          simp only [thrdExec, Request.map]
          exact (henv.dlopenPullall hlib func).sendPullall store
      | none =>
          simp only [thrdExec, Request.map]
          exact henv.sendPullall store
  | registerPullallSpecial func => exact .send (henv.dlopenPullall hlib func)
  | registerRemoveSpecial func => exact .send (henv.dlopenRemove hlib func)
  | registerUpdate func => exact ⟨rfl, rfl, henv.dlopenUpdate hlib func, rfl⟩
  | registerBupdate func => exact .send (henv.dlopenUpdate hlib func)
  | push key val =>
      simp only [thrdExec, Request.map, Kvs.set_map]
      exact .send henv
  | pushMulti keyLst valLst =>
      have hdct : (keyLst.zip (valLst.map f)).foldl
          (fun d kv => d.insert kv.1 kv.2) (∅ : Dict Str W) =
          Dict.mapVal f ((keyLst.zip valLst).foldl (fun d kv => d.insert kv.1 kv.2) ∅) := by
        rw [Dict.mapVal_foldl_insert, List.zip_map_right]
        rfl
      simp only [thrdExec, Request.map, List.length_map, hdct, Kvs.setMulti_map]
      split
      · exact .send henv
      · exact ⟨rfl, rfl, henv, rfl⟩
  | update key delta func =>
      obtain ⟨hg, hnew⟩ := henv.loadUpdate hlib func
      simp only [thrdExec, Request.map, kvUpdate_map hg]
      exact ⟨rfl, rfl, hnew, rfl⟩
  | bupdate key delta func =>
      obtain ⟨hg, hnew⟩ := henv.loadUpdate hlib func
      simp only [thrdExec, Request.map, kvUpdate_map hg]
      exact .send hnew
  | bupdateMulti keyLst deltas func =>
      obtain ⟨hg, hnew⟩ := henv.loadUpdate hlib func
      simp only [thrdExec, Request.map, List.length_map, kvsUpdate_map hg]
      split
      · exact .send hnew
      · exact ⟨rfl, rfl, hnew, rfl⟩
  | remove key =>
      simp only [thrdExec, Request.map, Kvs.del_map]
      exact .send henv
  | removeSpecial func =>
      cases func with
      | some func =>
          simp only [thrdExec, Request.map]
          exact (henv.dlopenRemove hlib func).sendRemove store
      | none =>
          simp only [thrdExec, Request.map]
          exact henv.sendRemove store
  | clear => exact .send henv

/-- Two servers agree. -/
structure Server.Rep (f : V → W) (s : Server V) (s' : Server W) : Prop where
  envs : ∀ i, (s.envs i).Rep f (s'.envs i)
  tblStore : s'.tblStore = s.tblStore.map f

theorem Server.Rep.empty : Server.Rep f {} {} :=
  ⟨fun _ => ThrdEnv.Rep.empty, rfl⟩

/-- So does what they make of a request. -/
theorem serve_rep [Inhabited V] [Inhabited W] (hlib : lib.Rep f lib') {s : Server V}
    {s' : Server W} (h : s.Rep f s') (req : Request V) :
    (serve lib' s' (req.map f)).sent = (serve lib s req).sent.map (Reply.map f) ∧
      (serve lib' s' (req.map f)).thrown = (serve lib s req).thrown ∧
      (serve lib s req).mem.Rep f (serve lib' s' (req.map f)).mem := by
  have hmem : (s.mem req.port).Rep f (s'.mem (req.map f).port) := by
    rw [Request.port_map]
    exact ⟨h.envs req.port, h.tblStore⟩
  have hturn := thrdExec_rep hlib hmem req
  refine ⟨hturn.sent, hturn.thrown, ?_, hturn.mem.tblStore⟩
  intro i
  rw [serve_envs, serve_envs, Request.port_map]
  rw [Request.port_map] at hturn
  by_cases hi : i = req.port
  · subst hi
    rw [Function.update_self, Function.update_self]
    exact hturn.mem.env
  · rw [Function.update_of_ne hi, Function.update_of_ne hi]
    exact h.envs i

end Threads

end Paracel
