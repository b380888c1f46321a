import Paracel.Misc.Segments
import Paracel.Ps.Calls

/-!
# Requests to servers that workers share

The parameter calls of `paralg` as the requests that they send to the servers,
with `ssp_switch` off. A call that goes to all servers is one request to each,
and the requests of other workers can come between these. A request takes effect
when its server handles it.
-/

namespace Paracel

open MergeFold

/-- A request that a client sends to the server `indx`. -/
structure SrvCall (m : Nat) (V : Type) where
  indx : Fin m
  req : Request V

variable {m : Nat} {V : Type}

namespace SrvCall

variable (getServer : Str → Fin m)

/-- `paracel_read`. -/
def paracelRead (key : Str) : SrvCall m V := ⟨getServer key, .pull key⟩

/-- `paracel_write`. -/
def paracelWrite (key : Str) (val : V) : SrvCall m V := ⟨getServer key, .push key val⟩

/-- `paracel_bupdate`, with and without a function name. -/
def paracelBupdate (key : Str) (delta : V) (func : Option Symbol) : SrvCall m V :=
  ⟨getServer key, .bupdate key delta func⟩

end SrvCall

/-- `paracel_register_bupdate`. -/
def paracelRegisterBupdate (m : Nat) (func : Symbol) : List (SrvCall m V) :=
  (List.finRange m).map fun i => ⟨i, .registerBupdate func⟩

/-- `paracel_read_special`. -/
def paracelReadSpecial (m : Nat) (func : Symbol) : List (SrvCall m V) :=
  (List.finRange m).map fun i => ⟨i, .pullallSpecial (some func)⟩

/-- Whether the call returns: on the reply that a key does not exist the `assert(r)` of `pull`
    aborts the worker. -/
def readOk (r : Option (Reply V)) : Bool :=
  match r with
  | some .nokey => false
  | _ => true

/-- The value that `paracel_read` returns, where it does. -/
def readVal [Inhabited V] (r : Option (Reply V)) : V :=
  ((r.bind Reply.toVal).join).getD default

/-- The dictionary in a reply of `pullall_special`. -/
def dctVal (r : Option (Reply V)) : Dict Str V :=
  (r.bind Reply.toDct).getD ∅

namespace Servers

variable [Inhabited V] (lib : Libs V) (servers : Servers m V)

/-- The reply to a request, if one comes, and the servers after it. -/
def handle (c : SrvCall m V) : Option (Reply V) × Servers m V :=
  let t := serve lib (servers c.indx) c.req
  (t.sent.head?, Function.update servers c.indx t.mem)

/-- The function that server `i` applies a bupdate with that names none. -/
def updater (i : Fin m) : V → V → V := inForce lib ((servers i).envs (Fin.last 3))

theorem handle_snd (c : SrvCall m V) : (handle lib servers c).2 =
    Function.update servers c.indx (serve lib (servers c.indx) c.req).mem := rfl

/-- What a request does to the function in force for bupdates. -/
theorem updater_handle (c : SrvCall m V) (i : Fin m) :
    updater lib (handle lib servers c).2 i =
      if i = c.indx ∧ Fin.last 3 = c.req.port then
        chosen lib ((servers i).envs (Fin.last 3)) c.req.loads
      else updater lib servers i := by
  rw [updater, updater, handle_snd]
  by_cases hi : i = c.indx
  · subst hi
    rw [Function.update_self, inForce_serve]
    by_cases hport : Fin.last 3 = c.req.port <;> simp [hport]
  · rw [Function.update_of_ne hi, if_neg fun h => hi h.1]

variable {lib servers} {getServer : Str → Fin m}

/-- A request that leaves the store of its server alone changes no value. -/
theorem value_handle_of_tblStore {c : SrvCall m V}
    (h : (serve lib (servers c.indx) c.req).mem.tblStore = (servers c.indx).tblStore)
    (key : Str) : (handle lib servers c).2.value getServer key = servers.value getServer key := by
  rw [value, value, handle_snd]
  by_cases hi : getServer key = c.indx
  · rw [hi, Function.update_self, h]
  · rw [Function.update_of_ne hi]

/-- A request that touches one key on its server touches one value. -/
theorem value_handle_single {c : SrvCall m V} {key : Str} {v : Option V}
    (hindx : c.indx = getServer key)
    (h : ∀ k, (serve lib (servers c.indx) c.req).mem.tblStore.get k =
      if k = key then v else (servers c.indx).tblStore.get k) (k : Str) :
    (handle lib servers c).2.value getServer k =
      if k = key then v else servers.value getServer k := by
  rw [value, value, handle_snd]
  by_cases hi : getServer k = c.indx
  · rw [hi, Function.update_self, h]
  · have hk : k ≠ key := by
      intro heq
      rw [heq] at hi
      exact hi hindx.symm
    rw [Function.update_of_ne hi, if_neg hk]

/-! ### The calls -/

/-- A read leaves the servers as they are. -/
@[simp] theorem handle_read_snd (key : Str) :
    (handle lib servers (.paracelRead getServer key)).2 = servers := by
  have hserver : (serve lib (servers (getServer key)) (.pull key)).mem =
      servers (getServer key) := by
    apply serve_mem_eq_self
    simp only [thrdExec]
    cases ((servers (getServer key)).mem _).tblStore.get key <;> rfl
  rw [handle_snd]
  exact Function.update_eq_self_iff.mpr hserver

@[simp] theorem readVal_read (key : Str) :
    readVal (handle lib servers (.paracelRead getServer key)).1 =
      (servers.value getServer key).getD default := by
  simp only [readVal, handle, SrvCall.paracelRead, serve_sent, thrdExec, Server.mem, value]
  cases (servers (getServer key)).tblStore.get key <;> rfl

@[simp] theorem readOk_read (key : Str) :
    readOk (handle lib servers (.paracelRead getServer key)).1 =
      (servers.value getServer key).isSome := by
  simp only [handle, SrvCall.paracelRead, serve_sent, thrdExec, Server.mem, value]
  cases (servers (getServer key)).tblStore.get key <;> rfl

/-- Only a `pull` asks for a key that may not exist. -/
theorem readOk_handle {c : SrvCall m V} (h : ∀ key, c.req ≠ .pull key) :
    readOk (handle lib servers c).1 := by
  have hsent : ∀ mem : Mem V, readOk (thrdExec lib mem c.req).sent.head? := by
    intro mem
    cases hreq : c.req with
    | pull key => exact absurd hreq (h key)
    | pullMulti keyLst =>
        simp only [thrdExec]
        cases mem.tblStore.getMulti keyLst <;> rfl
    | pushMulti | bupdateMulti | pullallSpecial | removeSpecial =>
        simp only [thrdExec, Turn.send]
        split_ifs <;> rfl
    | _ => rfl
  rw [handle, serve_sent]
  exact hsent _

@[simp] theorem value_write (key : Str) (val : V) (k : Str) :
    (handle lib servers (.paracelWrite getServer key val)).2.value getServer k =
      if k = key then some val else servers.value getServer k := by
  apply value_handle_single rfl
  intro k
  exact Kvs.get_set (servers (getServer key)).tblStore key k val

/-- A write keeps a value that it does not contradict. -/
theorem value_write_of_agree {key key' : Str} {val val' : V} (hagree : key' = key → val' = val)
    (h : servers.value getServer key' = some val' ∨ key' = key) :
    (handle lib servers (.paracelWrite getServer key val)).2.value getServer key' = some val' := by
  rw [value_write]
  split
  · rename_i hkey
    rw [hagree hkey]
  · rename_i hkey
    exact h.resolve_right hkey

/-- A worker writes the next of its entries: all workers have entries that they sent, which the
    servers keep, and entries to come. -/
theorem exists_sent_write {n : Nat} {L B : Type} {loc : Fin n → L} {load : List B → L}
    {key : B → Str} {val : B → V} {all : Fin n → List B}
    (h : ∀ w, ∃ sent todo, loc w = load todo ∧ sent ++ todo = all w ∧
      ∀ b ∈ sent, servers.value getServer (key b) = some (val b))
    {w : Fin n} {b : B} {sent todo : List B} (hsplit : sent ++ b :: todo = all w)
    (hsent : ∀ b ∈ sent, servers.value getServer (key b) = some (val b))
    (hagree : ∀ v, ∀ b' ∈ all v, key b' = key b → val b' = val b) (v : Fin n) :
    ∃ sent todo', Function.update loc w (load todo) v = load todo' ∧ sent ++ todo' = all v ∧
      ∀ b' ∈ sent, (handle lib servers (.paracelWrite getServer (key b) (val b))).2.value
        getServer (key b') = some (val b') := by
  by_cases hv : v = w
  · subst hv
    refine ⟨sent ++ [b], todo, Function.update_self .., ?_, ?_⟩
    · rwa [List.append_assoc]
    · intro b' hb'
      have hmem : b' ∈ all v := by
        rw [← hsplit, List.append_cons]
        exact List.mem_append_left todo hb'
      apply value_write_of_agree (hagree v b' hmem)
      rcases List.mem_append.mp hb' with hold | hnew
      · exact .inl (hsent b' hold)
      · exact .inr (congrArg key (List.mem_singleton.mp hnew))
  · obtain ⟨sent', todo', hloc, hsplit', hsent'⟩ := h v
    refine ⟨sent', todo', (Function.update_of_ne hv ..).trans hloc, hsplit', ?_⟩
    intro b' hb'
    exact value_write_of_agree (hagree v b' (hsplit' ▸ List.mem_append_left todo' hb'))
      (.inl (hsent' b' hb'))

@[simp] theorem updater_write (key : Str) (val : V) :
    updater lib (handle lib servers (.paracelWrite getServer key val)).2 =
      updater lib servers := by
  funext i
  have hport : ¬(i = getServer key ∧ Fin.last 3 = 1) := by simp
  rw [updater_handle]
  exact if_neg hport

@[simp] theorem value_paracelBupdate (key : Str) (delta : V) (func : Option Symbol) (k : Str) :
    (handle lib servers (.paracelBupdate getServer key delta func)).2.value getServer k =
      if k = key then Option.merge (chosen lib ((servers (getServer key)).envs 3) func)
        (servers.value getServer key) (some delta)
      else servers.value getServer k := by
  have hupd : (Request.bupdate key delta func).isUpdate := trivial
  exact value_handle_single rfl (fun k => Kvclt.get_update_single lib _ hupd rfl k) k

/-- A bupdate that names no function leaves the one in force. -/
@[simp] theorem updater_bupdate (key : Str) (delta : V) :
    updater lib (handle lib servers (.paracelBupdate getServer key delta none)).2 =
      updater lib servers := by
  funext i
  rw [updater_handle]
  split <;> rfl

@[simp] theorem value_register (i : Fin m) (func : Symbol) (k : Str) :
    (handle lib servers ⟨i, .registerBupdate func⟩).2.value getServer k =
      servers.value getServer k :=
  value_handle_of_tblStore rfl k

theorem updater_register (i j : Fin m) (func : Symbol) :
    updater lib (handle lib servers ⟨i, .registerBupdate func⟩).2 j =
      if j = i then lib.update func else updater lib servers j := by
  have hport : Fin.last 3 = (Request.registerBupdate func : Request V).port := rfl
  rw [updater_handle]
  simp only [hport, and_true]
  rfl

end Servers

/-! ### Sequences of requests -/

/-- The requests that leave the values as they are. -/
def Request.quiet : Request V → Bool
  | .contains _ | .pull _ | .pullMulti _ | .pullall | .pullallSpecial _
  | .registerPullallSpecial _ | .registerRemoveSpecial _ | .registerUpdate _
  | .registerBupdate _ => true
  | _ => false

theorem Request.pairs_of_quiet {req : Request V} (h : req.quiet) : req.pairs = [] := by
  cases req <;> first | rfl | cases h

/-- The request gives the key a value. -/
def Request.Sets (key : Str) : Request V → Prop
  | .push k _ | .bupdate k _ _ => k = key
  | _ => False

theorem Request.not_sets_of_quiet {req : Request V} (h : req.quiet) (key : Str) :
    ¬req.Sets key := by
  cases req <;> first | exact id | cases h

/-- The request is on the server of its keys, and merges its deltas with `f` if it is an
    update; else it is quiet, and loads no updater. -/
structure SrvCall.Merges (lib : Libs V) (f : V → V → V) (getServer : Str → Fin m)
    (servers : Servers m V) (c : SrvCall m V) : Prop where
  placed : ∀ p ∈ c.req.pairs, getServer p.1 = c.indx
  applied : ∀ i, c.req.isUpdate → chosen lib ((servers i).envs c.req.port) c.req.loads = f
  quiet : c.req.isUpdate ∨ c.req.quiet ∧ c.req.loads = none

/-- A bupdate that names no function, where `f` is in force. -/
theorem merges_bupdate {lib : Libs V} {f : V → V → V} {getServer : Str → Fin m}
    {servers : Servers m V} (h : ∀ i, Servers.updater lib servers i = f) (key : Str) (delta : V) :
    (SrvCall.paracelBupdate getServer key delta none).Merges lib f getServer servers where
  placed := by
    intro p hp
    rw [List.mem_singleton.mp hp]
    rfl
  applied := fun i _ => h i
  quiet := .inl trivial

theorem merges_read {lib : Libs V} {f : V → V → V} {getServer : Str → Fin m}
    {servers : Servers m V} (key : Str) :
    (SrvCall.paracelRead getServer key : SrvCall m V).Merges lib f getServer servers where
  placed := by simp [SrvCall.paracelRead, Request.pairs]
  applied := by simp [SrvCall.paracelRead, Request.isUpdate]
  quiet := .inr ⟨rfl, rfl⟩

section Sequences

variable [Inhabited V] {lib : Libs V} {f : V → V → V} {getServer : Str → Fin m}
  {servers : Servers m V}

theorem tblStore_thrdExec_quiet {mem : Mem V} {req : Request V} (h : req.quiet) :
    (thrdExec lib mem req).mem.tblStore = mem.tblStore := by
  cases req with
  | contains | pullall | registerPullallSpecial | registerRemoveSpecial | registerUpdate
  | registerBupdate => rfl
  | pull key =>
      simp only [thrdExec]
      cases mem.tblStore.get key <;> rfl
  | pullMulti keyLst =>
      simp only [thrdExec]
      cases mem.tblStore.getMulti keyLst <;> rfl
  | pullallSpecial func =>
      simp only [thrdExec, Turn.send]
      split_ifs <;> rfl
  | _ => cases h

/-- Quiet requests leave every value. -/
theorem Servers.value_replay_quiet {cs : List (SrvCall m V)} (h : ∀ c ∈ cs, c.req.quiet)
    (key : Str) : (Spmd.replay (handle lib) servers cs).value getServer key =
      servers.value getServer key := by
  apply Segments.replay_invariant
    (P := fun s : Servers m V => s.value getServer key = servers.value getServer key) _ rfl
  intro c hc s hs
  have hquiet : (serve lib (s c.indx) c.req).mem.tblStore = (s c.indx).tblStore :=
    tblStore_thrdExec_quiet (h c hc)
  rw [value_handle_of_tblStore hquiet, hs]

/-- Such a request does not change how others are applied. -/
theorem SrvCall.Merges.handle {c c' : SrvCall m V} (h : c.Merges lib f getServer servers)
    (h' : c'.Merges lib f getServer servers) :
    c'.Merges lib f getServer (Servers.handle lib servers c).2 where
  placed := h'.placed
  quiet := h'.quiet
  applied := by
    intro i hupd
    have hold := h'.applied i hupd
    cases hloads : c'.req.loads with
    | some func =>
        rw [hloads] at hold
        exact hold
    | none =>
        rw [hloads] at hold
        rw [Servers.handle_snd]
        by_cases hi : i = c.indx
        · subst hi
          rw [Function.update_self, chosen, inForce_serve]
          by_cases hport : c'.req.port = c.req.port
          · rw [if_pos hport]
            rcases h.quiet with hc | ⟨-, hnone⟩
            · rw [hport]
              exact h.applied c.indx hc
            · rw [hnone]
              exact hold
          · rw [if_neg hport]
            exact hold
        · rw [Function.update_of_ne hi]
          exact hold

/-- What one of them does to a value. -/
theorem SrvCall.Merges.value {c : SrvCall m V} (h : c.Merges lib f getServer servers)
    (key : Str) : (Servers.handle lib servers c).2.value getServer key =
      mergeAll f (servers.value getServer key) (deltasOf key c.req.pairs) := by
  rcases h.quiet with hupd | ⟨hquiet, -⟩
  · rw [Servers.value, Servers.value, Servers.handle_snd]
    by_cases hi : getServer key = c.indx
    · rw [hi, Function.update_self, Kvclt.tblStore_update lib _ hupd, get_applyPairs,
        show appliedWith lib _ c.req = f from h.applied c.indx hupd]
    · have hnone : deltasOf key c.req.pairs = [] := by
        apply List.filterMap_eq_nil_iff.mpr
        intro p hp
        apply if_neg
        intro heq
        rw [← heq] at hi
        exact hi (h.placed p hp)
      rw [Function.update_of_ne hi, hnone]
      rfl
  · rw [Request.pairs_of_quiet hquiet]
    exact Servers.value_handle_of_tblStore (tblStore_thrdExec_quiet hquiet) key

/-- After such requests every key holds the merge of its value and its deltas. -/
theorem Servers.value_replay_merges {cs : List (SrvCall m V)}
    (h : ∀ c ∈ cs, c.Merges lib f getServer servers) (key : Str) :
    (Spmd.replay (handle lib) servers cs).value getServer key =
      mergeAll f (servers.value getServer key)
        (deltasOf key (cs.flatMap fun c => c.req.pairs)) := by
  induction cs generalizing servers with
  | nil => rfl
  | cons c cs ih =>
      have hc := h c List.mem_cons_self
      rw [Spmd.replay_cons, ih fun c' hc' => hc.handle (h c' (List.mem_cons_of_mem c hc')),
        hc.value, List.flatMap_cons, deltasOf_append, mergeAll_append]

/-- Requests on other keys leave a value. -/
theorem Servers.value_replay_other {cs : List (SrvCall m V)} {key : Str}
    (h : ∀ c ∈ cs, c.Merges lib f getServer servers)
    (hkey : ∀ c ∈ cs, ∀ p ∈ c.req.pairs, p.1 ≠ key) :
    (Spmd.replay (handle lib) servers cs).value getServer key = servers.value getServer key := by
  have hnone : deltasOf key (cs.flatMap fun c => c.req.pairs) = [] := by
    apply List.filterMap_eq_nil_iff.mpr
    intro p hp
    obtain ⟨c, hc, hp⟩ := List.mem_flatMap.mp hp
    exact if_neg (hkey c hc p hp)
  rw [value_replay_merges h, hnone, mergeAll_nil]

/-! ### Filters -/

omit [Inhabited V] in
theorem kvFilter4pullall_eq (f : Str → V → Bool) (kvs : List (Str × V)) (d : Dict Str V) :
    kvFilter4pullall (some f) kvs d =
      (none, (kvs.filter fun kv => f kv.1 kv.2).foldl (fun d kv => d.insert kv.1 kv.2) d) := by
  induction kvs generalizing d with
  | nil => rfl
  | cons kv kvs ih =>
      rw [kvFilter4pullall, ih, List.filter_cons]
      cases f kv.1 kv.2 <;> rfl

/-- What a server replies to `pullall_special`: the pairs that pass the filter. -/
theorem Servers.mem_dctVal {i : Fin m} {func : Symbol} {kv : Str × V} :
    kv ∈ Dict.pairs (dctVal (handle lib servers ⟨i, .pullallSpecial (some func)⟩).1) ↔
      (servers i).tblStore.get kv.1 = some kv.2 ∧ lib.filter func kv.1 kv.2 := by
  have hreply : dctVal (handle lib servers ⟨i, .pullallSpecial (some func)⟩).1 =
      ((Dict.pairs (servers i).tblStore.getall).filter fun kv =>
        lib.filter func kv.1 kv.2).foldl (fun d kv => d.insert kv.1 kv.2) ∅ := by
    simp only [handle, serve_sent, thrdExec, dlopenPullallLambda, kvFilter4pullall_eq]
    rfl
  have hnodup : (((Dict.pairs (servers i).tblStore.getall).filter fun kv =>
      lib.filter func kv.1 kv.2).map Prod.fst).Nodup :=
    (Dict.pairs_nodup _).sublist (List.filter_sublist.map _)
  rw [hreply, (Kvs.pairs_foldl_insert_perm hnodup).mem_iff, List.mem_filter]
  exact and_congr_left' Dict.mem_pairs

/-- The reply to a read or a `pullall_special` is a matter of the store. -/
theorem Servers.handle_fst_congr {servers' : Servers m V} {c : SrvCall m V}
    (hc : (∃ key, c = .paracelRead getServer key) ∨
      ∃ i func, c = ⟨i, .pullallSpecial (some func)⟩)
    (h : ∀ i, (servers i).tblStore = (servers' i).tblStore) :
    (handle lib servers c).1 = (handle lib servers' c).1 := by
  rcases hc with ⟨key, rfl⟩ | ⟨i, func, rfl⟩
  · simp only [handle, SrvCall.paracelRead, serve_sent, thrdExec, Server.mem, h]
    cases (servers' (getServer key)).tblStore.get key <;> rfl
  · simp only [handle, serve_sent, thrdExec, dlopenPullallLambda, kvFilter4pullall_eq,
      Server.mem, h]
    rfl

/-! ### Single keys -/

/-- Every key is on the server that the ring picks for it. -/
def Servers.Placed (getServer : Str → Fin m) (servers : Servers m V) : Prop :=
  ∀ i key, ((servers i).tblStore.get key).isSome → getServer key = i

/-- The requests that write or merge into one key, and those that leave the stores alone. -/
inductive SrvCall.Plain (getServer : Str → Fin m) : SrvCall m V → Prop where
  | quiet (c : SrvCall m V) (h : c.req.quiet) : Plain getServer c
  | write (key : Str) (val : V) : Plain getServer (.paracelWrite getServer key val)
  | bupdate (key : Str) (delta : V) (func : Option Symbol) :
      Plain getServer (.paracelBupdate getServer key delta func)

omit [Inhabited V] in
theorem Servers.placed_empty : Servers.Placed getServer (fun _ => {} : Servers m V) := by
  intro i key h
  cases h

theorem Servers.Placed.handle {c : SrvCall m V} (h : Servers.Placed getServer servers)
    (hc : c.Plain getServer) : Servers.Placed getServer (Servers.handle lib servers c).2 := by
  intro i key hsome
  rw [Servers.handle_snd] at hsome
  by_cases hi : i = c.indx
  · subst hi
    rw [Function.update_self] at hsome
    by_cases hold : ((servers c.indx).tblStore.get key).isSome
    · exact h _ key hold
    · cases hc with
      | quiet _ hquiet =>
          rw [show (serve lib (servers c.indx) c.req).mem.tblStore = _ from
            tblStore_thrdExec_quiet hquiet] at hsome
          exact absurd hsome hold
      | write key' val =>
          have hget := Kvs.get_set (servers (getServer key')).tblStore key' key val
          by_cases hkey : key = key'
          · rw [hkey]
            rfl
          · rw [if_neg hkey] at hget
            exact absurd (hget ▸ hsome) hold
      | bupdate key' delta func =>
          have hupd : (Request.bupdate key' delta func).isUpdate := trivial
          have hget := Kvclt.get_update_single lib (servers (getServer key')) hupd rfl key
          by_cases hkey : key = key'
          · rw [hkey]
            rfl
          · rw [if_neg hkey] at hget
            exact absurd (hget ▸ hsome) hold
  · rw [Function.update_of_ne hi] at hsome
    exact h i key hsome

theorem Servers.Placed.replay {cs : List (SrvCall m V)} (h : Servers.Placed getServer servers)
    (hcs : ∀ c ∈ cs, c.Plain getServer) :
    Servers.Placed getServer (Spmd.replay (Servers.handle lib) servers cs) :=
  Segments.replay_invariant (fun c hc _ hs => hs.handle (hcs c hc)) h

/-- A key that has a value keeps one. -/
theorem SrvCall.Plain.isSome_value {c : SrvCall m V} (h : c.Plain getServer) {key : Str}
    (hkey : c.req.Sets key ∨ (servers.value getServer key).isSome) :
    ((Servers.handle lib servers c).2.value getServer key).isSome := by
  cases h with
  | quiet _ hquiet =>
      rw [Servers.value_handle_of_tblStore (tblStore_thrdExec_quiet hquiet)]
      exact hkey.resolve_left (Request.not_sets_of_quiet hquiet key)
  | write key' val =>
      rw [Servers.value_write]
      split
      · rfl
      · rename_i hne
        exact hkey.resolve_left fun hsets => hne (Eq.symm hsets)
  | bupdate key' delta func =>
      rw [Servers.value_paracelBupdate]
      split
      · cases servers.value getServer key' <;> rfl
      · rename_i hne
        exact hkey.resolve_left fun hsets => hne (Eq.symm hsets)

theorem Servers.isSome_replay {cs : List (SrvCall m V)} {key : Str}
    (hcs : ∀ c ∈ cs, c.Plain getServer)
    (hkey : (∃ c ∈ cs, c.req.Sets key) ∨ (servers.value getServer key).isSome) :
    ((Spmd.replay (Servers.handle lib) servers cs).value getServer key).isSome := by
  have hkeep : ∀ c ∈ cs, ∀ s : Servers m V, (s.value getServer key).isSome →
      ((Servers.handle lib s c).2.value getServer key).isSome :=
    fun c hc s hs => (hcs c hc).isSome_value (.inr hs)
  rcases hkey with ⟨c, hc, hsets⟩ | hsome
  · exact Segments.replay_of_mem (P := fun s : Servers m V => (s.value getServer key).isSome) hc
      (fun s => (hcs c hc).isSome_value (.inl hsets)) hkeep
  · exact Segments.replay_invariant (P := fun s : Servers m V => (s.value getServer key).isSome)
      hkeep hsome

/-- The call is no `pull`, or one of a key of some kind. -/
def SrvCall.Asks (getServer : Str → Fin m) (p : Str → Prop) (c : SrvCall m V) : Prop :=
  (∀ key, c.req ≠ .pull key) ∨ ∃ key, c = .paracelRead getServer key ∧ p key

/-- What all writes of a key write is there after them. -/
theorem Servers.value_of_write {cs : List (SrvCall m V)} {key : Str} {val : V}
    (hmem : .paracelWrite getServer key val ∈ cs)
    (hcs : ∀ c ∈ cs, ∃ k v, c = .paracelWrite getServer k v ∧ (k = key → v = val)) :
    (Spmd.replay (handle lib) servers cs).value getServer key = some val := by
  apply Segments.replay_of_mem hmem
    (P := fun s : Servers m V => s.value getServer key = some val)
  · intro s
    rw [value_write, if_pos rfl]
  · intro c hc s hs
    obtain ⟨k, v, rfl, hv⟩ := hcs c hc
    rw [value_write]
    split
    · rename_i hkey
      rw [hv hkey.symm]
    · exact hs

/-- Writes to other keys leave a value. -/
theorem Servers.value_of_writes_ne {cs : List (SrvCall m V)} {key : Str}
    (hcs : ∀ c ∈ cs, ∃ k v, c = .paracelWrite getServer k v ∧ k ≠ key) :
    (Spmd.replay (handle lib) servers cs).value getServer key = servers.value getServer key := by
  apply Segments.replay_invariant
    (P := fun s : Servers m V => s.value getServer key = servers.value getServer key) _ rfl
  intro c hc s hs
  obtain ⟨k, v, rfl, hk⟩ := hcs c hc
  rw [value_write, if_neg hk.symm, hs]

section Segment

variable {n : Nat} {L C : Type} {log : List (Fin n × SrvCall m V)}
  {prog : Segments.Program n L (SrvCall m V) (Option (Reply V)) C}
  {cfg : Segments.Config n L (Servers m V)}

/-- A segment of reads leaves the servers as they are, and every worker reads what is there. -/
theorem Servers.of_reads (lib : Libs V) (hlogs : cfg.Logs prog log)
    (hreads : ∀ w, ∀ c ∈ prog.calls w (cfg.loc w), ∃ key, c = .paracelRead getServer key) :
    cfg.after (handle lib) log = cfg.store ∧
      ∀ w, Segments.repliesOf (handle lib) w cfg.store log =
        (prog.calls w (cfg.loc w)).map fun c => (handle lib cfg.store c).1 := by
  have hkeep : ∀ e ∈ log, ∀ s : Servers m V, s = cfg.store → (handle lib s e.2).2 = cfg.store := by
    intro e he s hs
    obtain ⟨key, hkey⟩ := hreads e.1 e.2 (hlogs.mem he)
    rw [hkey, handle_read_snd, hs]
  constructor
  · apply Segments.replay_invariant (P := fun s : Servers m V => s = cfg.store) _ rfl
    intro c hc
    obtain ⟨e, he, rfl⟩ := List.mem_map.mp hc
    exact hkeep e he
  · intro w
    rw [← hlogs w]
    apply Segments.repliesOf_eq_map (P := fun s : Servers m V => s = cfg.store) hkeep _ rfl
    intro e he hw s hs
    rw [hs]

/-- A segment of bupdates and reads merges the deltas of all workers, in some order. -/
theorem Servers.of_merges (lib : Libs V) {f : V → V → V} (hlogs : cfg.Logs prog log)
    (hmerges : ∀ w, ∀ c ∈ prog.calls w (cfg.loc w), c.Merges lib f getServer cfg.store)
    (key : Str) :
    ∃ ds, ds.Perm ((List.finRange n).flatMap fun w =>
        deltasOf key ((prog.calls w (cfg.loc w)).flatMap fun c => c.req.pairs)) ∧
      (cfg.after (handle lib) log).value getServer key =
        mergeAll f (cfg.store.value getServer key) ds := by
  refine ⟨deltasOf key ((log.map Prod.snd).flatMap fun c => c.req.pairs), ?_, ?_⟩
  · have hall := deltasOf_perm key (hlogs.perm.flatMap_right fun c => c.req.pairs)
    rwa [List.flatMap_assoc, deltasOf_flatMap key fun w =>
      (prog.calls w (cfg.loc w)).flatMap fun c => c.req.pairs] at hall
  · apply value_replay_merges
    intro c hc
    obtain ⟨e, he, rfl⟩ := List.mem_map.mp hc
    exact hmerges e.1 e.2 (hlogs.mem he)

/-- A call returns after calls that have given the key that it pulls a value. -/
theorem Servers.readOk_after (lib : Libs V) (getServer : Str → Fin m) {cs : List (SrvCall m V)}
    {c : SrvCall m V}
    (hcs : ∀ c' ∈ cs, c'.Plain getServer)
    (hasks : c.Asks getServer fun key =>
      (∃ c' ∈ cs, c'.req.Sets key) ∨ (servers.value getServer key).isSome) :
    readOk (handle lib (Spmd.replay (handle lib) servers cs) c).1 := by
  rcases hasks with hno | ⟨key, rfl, hkey⟩
  · exact readOk_handle hno
  · rw [readOk_read]
    exact isSome_replay hcs hkey

/-- Every call of a segment returns if a worker pulls only keys that have a value when it starts,
    or that the worker has given one by then. -/
theorem Servers.replies_ok (lib : Libs V) (getServer : Str → Fin m) (hlogs : cfg.Logs prog log)
    (hplain : ∀ w, ∀ c ∈ prog.calls w (cfg.loc w), c.Plain getServer)
    (hasks : ∀ w, ∃ own asked, prog.calls w (cfg.loc w) = own ++ asked ∧
      (∀ c ∈ own, c.Asks getServer fun key => (cfg.store.value getServer key).isSome) ∧
      ∀ c ∈ asked, c.Asks getServer fun key =>
        (∃ c' ∈ own, c'.req.Sets key) ∨ (cfg.store.value getServer key).isSome)
    (w : Fin n) : ∀ r ∈ Segments.repliesOf (handle lib) w cfg.store log, readOk r := by
  intro r hr
  obtain ⟨pre, c, post, hlog, rfl⟩ := Segments.exists_of_mem_repliesOf hr
  obtain ⟨own, asked, hsplit, hown, hasked⟩ := hasks w
  have hcalls : Spmd.callsOf w log = own ++ asked := (hlogs w).trans hsplit
  have hmem : c ∈ own ++ asked := by
    rw [← hsplit]
    exact hlogs.mem (e := (w, c)) (hlog ▸ List.mem_append_right _ List.mem_cons_self)
  apply readOk_after lib getServer
  · intro c' hc'
    obtain ⟨e, he, rfl⟩ := List.mem_map.mp hc'
    exact hplain e.1 e.2 (hlogs.mem (hlog ▸ List.mem_append_left _ he))
  · by_cases hc : c ∈ own
    · exact (hown c hc).imp_right fun ⟨key, hkey, hsome⟩ => ⟨key, hkey, .inr hsome⟩
    · refine (hasked c ((List.mem_append.mp hmem).resolve_left hc)).imp_right ?_
      rintro ⟨key, hkey, hset⟩
      -- what the worker calls before is among the calls that took effect
      refine ⟨key, hkey, hset.imp_left fun ⟨c', hc', hsets⟩ => ⟨c', ?_, hsets⟩⟩
      exact List.mem_map.mpr
        ⟨(w, c'), Segments.mem_callsOf_of_before hlog hcalls hc hc', rfl⟩

/-- Also if the workers pull only keys that have a value when it starts. -/
theorem Servers.replies_ok_of_present (lib : Libs V) (getServer : Str → Fin m)
    (hlogs : cfg.Logs prog log)
    (hcalls : ∀ w, ∀ c ∈ prog.calls w (cfg.loc w), c.Plain getServer ∧
      c.Asks getServer fun key => (cfg.store.value getServer key).isSome) (w : Fin n) :
    ∀ r ∈ Segments.repliesOf (handle lib) w cfg.store log, readOk r := by
  apply replies_ok lib getServer hlogs fun w c hc => (hcalls w c hc).1
  intro w
  exact ⟨_, [], (List.append_nil _).symm, fun c hc => (hcalls w c hc).2, nofun⟩

end Segment

end Sequences

end Paracel
