import Paracel.Ps.ReadMulti
import Paracel.Ssp.Worker

/-!
# Reads that find no cached value

`paracel_read`, `paracel_read_multi`, `paracel_write` and `iter_commit` of one
worker in SSP mode (`include/ps.hpp`), with `cached_para`. Whether a read goes to
the servers or to the cache is decided by the clocks alone. The other workers
appear only in what a call sees: the answers to its polls, and the servers as
they are when its requests reach them.
-/

namespace Paracel.Ssp.Reads

open StepSystem

variable {n : Nat} {V : Type}

/-- The calls of the worker program. -/
inductive Call (V : Type) where
  | read (key : Str)
  | readMulti (keys : List Str)
  | write (key : Str) (val : V)
  | commit

/-- A call, what `pull_int` answers while it polls, and the servers it meets. -/
structure Event (n : Nat) (V : Type) where
  call : Call V
  polls : List Int := []
  kvm : Fin n → Server V

/-- The fields of the worker. `known` is not in the source: what the worker has pulled or
    written, the latest first. -/
structure State (V : Type) where
  clock : Nat := 0
  staleCache : Int := 0
  cachedPara : Dict Str V := ∅
  known : List (Str × V) := []

/-- What a call comes to: it returns, it throws `bad_any_cast`, a server does not answer, or
    it still polls. -/
inductive Outcome (α : Type) where
  | returned (a : α)
  | thrown
  | noReply
  | waiting

/-- `while(stale_cache + limit_s < clock)` on the answers that come. -/
def pollLoop (limitS clock : Nat) : Int → List Int → Option Int
  | staleCache, [] => if mustPoll limitS clock staleCache then none else some staleCache
  | staleCache, n :: polls =>
      if mustPoll limitS clock staleCache then pollLoop limitS clock n polls else some staleCache

/-- The parameter calls of the worker on the servers of an event. -/
def State.paralg (st : State V) (kvm : Fin n → Server V) : Paralg n V :=
  { sspSwitch := true, cachedPara := st.cachedPara, kvm := kvm }

/-- The branches that pull: `pull` gets the values and caches them. -/
def fetch (st : State V) (kvm : Fin n → Server V) (keys : List Str)
    (pull : Paralg n V → Option (List V × Paralg n V)) : Outcome (List V × State V) :=
  match pull (st.paralg kvm) with
  | some (vals, p) =>
      .returned (vals,
        { st with cachedPara := p.cachedPara, known := (keys.zip vals).reverse ++ st.known })
  | none => .noReply

/-- The three branches that both overloads of `paracel_read` and `paracel_read_multi` have. -/
def readWith (limitS totalIters : Nat) (st : State V) (ev : Event n V) (keys : List Str)
    (pull : Paralg n V → Option (List V × Paralg n V)) : Outcome (List V × State V) :=
  match readBranch limitS totalIters st.clock st.staleCache with
  | .pull => fetch st ev.kvm keys pull
  | .hit =>
      match keys.mapM st.cachedPara.lookup with
      | some vals => .returned (vals, st)
      | none => .thrown
  | .miss =>
      match pollLoop limitS st.clock st.staleCache ev.polls with
      | some staleCache => fetch { st with staleCache := staleCache } ev.kvm keys pull
      | none => .waiting

section Perform

variable [Inhabited V] (lib : Libs V) (getServer : Str → Fin n)

/-- `cached_para[key] = kvm[..].pull(key)`, and the value. -/
def pullOne (key : Str) (p : Paralg n V) : Option (List V × Paralg n V) :=
  let indx := getServer key
  (Kvclt.pull lib (p.kvm indx) key).bind fun (val, s) =>
    val.map fun v => ([v], (p.setServer indx s).cache key v)

/-- The pulls of `paracel_read_multi` and the loop that caches their values. -/
def pullMany (keys : List Str) (p : Paralg n V) : Option (List V × Paralg n V) :=
  (Paralg.paracelReadMulti lib getServer p keys).map fun (vals, p) =>
    (vals, p.cacheAll (keys.zip vals))

/-- What a call comes to; a read that returns brings its values. -/
def perform (limitS totalIters : Nat) (st : State V) (ev : Event n V) :
    Outcome (List V × State V) :=
  match ev.call with
  | .read key => readWith limitS totalIters st ev [key] (pullOne lib getServer key)
  | .readMulti keys => readWith limitS totalIters st ev keys (pullMany lib getServer keys)
  | .write key val =>
      match Paralg.paracelWrite lib getServer (st.paralg ev.kvm) key val with
      | some (_, p) =>
          .returned ([], { st with cachedPara := p.cachedPara, known := (key, val) :: st.known })
      | none => .noReply
  | .commit => .returned ([], { st with clock := st.clock + 1 })

/-- The worker goes on when the call has returned. -/
def step (limitS totalIters : Nat) (st : State V) (ev : Event n V) : Option (State V) :=
  match perform lib getServer limitS totalIters st ev with
  | .returned (_, st) => some st
  | _ => none

end Perform

/-- The keys of a read. -/
def Call.keys : Call V → List Str
  | .read key => [key]
  | .readMulti keys => keys
  | .write _ _ => []
  | .commit => []

/-- What the worker has last pulled or written under a key. -/
def State.lastKnown (st : State V) (key : Str) : Option V :=
  (st.known.find? fun kv => kv.1 = key).map Prod.snd

section Reading

variable [Inhabited V] (lib : Libs V) (getServer : Str → Fin n) (limitS totalIters : Nat)
  (st : State V) (ev : Event n V)

/-- The servers have all keys of the read. -/
def Present : Prop :=
  ∀ key ∈ ev.call.keys, (Servers.value getServer ev.kvm key).isSome

/-- The values in the order of the keys: from the servers, or from the cache what the worker
    knows. -/
def Answers (vals : List V) : Prop :=
  vals.length = ev.call.keys.length ∧ ∀ (i : Nat) key, ev.call.keys[i]? = some key →
    vals[i]? =
      if readBranch limitS totalIters st.clock st.staleCache = .hit then st.lastKnown key
      else Servers.value getServer ev.kvm key

/-- A call returns what it is to return, unless it still polls. -/
def Succeeds : Prop :=
  Present getServer ev → perform lib getServer limitS totalIters st ev = .waiting ∨
    ∃ vals st', perform lib getServer limitS totalIters st ev = .returned (vals, st') ∧
      Answers getServer limitS totalIters st ev vals

/-- A read at which the cache is used is of keys that the worker has pulled or written; a read
    that pulls after its polls requests a key repeatedly only if it has the default value. -/
def Covered : Prop :=
  Present getServer ev →
    (readBranch limitS totalIters st.clock st.staleCache = .hit →
      ∀ key ∈ ev.call.keys, key ∈ st.known.map Prod.fst) ∧
    (readBranch limitS totalIters st.clock st.staleCache = .pull ∨
        readBranch limitS totalIters st.clock st.staleCache = .miss ∧
          (∃ n ∈ st.staleCache :: ev.polls, (st.clock : Int) ≤ n + limitS) →
      ∀ (i j : Nat) key, i < j → ev.call.keys[i]? = some key → ev.call.keys[j]? = some key →
        Servers.value getServer ev.kvm key = some default)

end Reading

/-! ### Polling -/

theorem isSome_pollLoop {limitS clock : Nat} {staleCache : Int} {polls : List Int} :
    (pollLoop limitS clock staleCache polls).isSome ↔
      ∃ n ∈ staleCache :: polls, (clock : Int) ≤ n + limitS := by
  induction polls generalizing staleCache with
  | nil =>
      rw [pollLoop, mustPoll]
      by_cases h : staleCache + limitS < clock
      · simp [h]
      · simp [h, Int.not_lt.mp h]
  | cons n polls ih =>
      rw [pollLoop, mustPoll, List.exists_mem_cons_iff, ← ih]
      by_cases h : staleCache + limitS < clock
      · simp [h, Int.not_le.mpr h]
      · simp [h, Int.not_lt.mp h]

/-! ### What is cached is what is known -/

section Known

variable {st : State V} {p : Paralg n V}

theorem lookup_cache (hon : p.sspSwitch = true) (key k : Str) (val : V) :
    (p.cache key val).cachedPara.lookup k =
      if k = key then some val else p.cachedPara.lookup k := by
  rw [Paralg.cache, if_pos hon]
  by_cases hk : k = key
  · subst hk
    simp
  · simp [hk]

theorem lookup_cacheAll (hon : p.sspSwitch = true) (kvs : List (Str × V)) (k : Str) :
    (p.cacheAll kvs).cachedPara.lookup k =
      ((kvs.reverse.find? fun kv => kv.1 = k).map Prod.snd).or (p.cachedPara.lookup k) := by
  induction kvs generalizing p with
  | nil => rfl
  | cons kv kvs ih =>
      have hon' : (p.cache kv.1 kv.2).sspSwitch = true := by
        rw [Paralg.cache, if_pos hon]
        exact hon
      rw [Paralg.cacheAll, List.foldl_cons, ← Paralg.cacheAll, ih hon', lookup_cache hon,
        List.reverse_cons, List.find?_append, List.find?_singleton, Option.map_or, Option.or_assoc]
      congr 1
      by_cases hk : k = kv.1
      · simp [hk]
      · simp [hk, Ne.symm hk]

/-- The cache holds what the worker knows, and nothing else. -/
def Agrees (st : State V) : Prop :=
  ∀ k, st.cachedPara.lookup k = st.lastKnown k

theorem lastKnown_append (st : State V) (kvs : List (Str × V)) (c : Dict Str V) (k : Str) :
    State.lastKnown { st with cachedPara := c, known := kvs ++ st.known } k =
      ((kvs.find? fun kv => kv.1 = k).map Prod.snd).or (st.lastKnown k) := by
  rw [State.lastKnown, List.find?_append, Option.map_or]
  rfl

theorem isSome_lastKnown {k : Str} : (st.lastKnown k).isSome ↔ k ∈ st.known.map Prod.fst := by
  simp [State.lastKnown]

end Known

/-! ### What the pulls bring -/

section Pulls

variable [Inhabited V] {lib : Libs V} {getServer : Str → Fin n}

/-- `pull` gets the values of the keys, and caches what it returns. -/
structure Pulls (getServer : Str → Fin n) (keys : List Str)
    (pull : Paralg n V → Option (List V × Paralg n V)) : Prop where
  caches : ∀ p vals p', pull p = some (vals, p') →
    p'.cachedPara = (p.cacheAll (keys.zip vals)).cachedPara
  answers : ∀ p : Paralg n V, (∀ key ∈ keys, (p.stored getServer key).isSome) →
    ∃ vals p', pull p = some (vals, p') ∧ vals.length = keys.length ∧
      ∀ (i : Nat) key, keys[i]? = some key →
        vals[i]? = if key ∈ keys.drop (i + 1) then some default else p.stored getServer key

variable (lib) in
theorem pulls_pullOne (key : Str) : Pulls getServer [key] (pullOne lib getServer key) where
  caches := by
    intro p vals p' h
    rw [pullOne] at h
    rcases Option.bind_eq_some_iff.mp h with ⟨⟨val, s⟩, -, hval⟩
    rcases Option.map_eq_some_iff.mp hval with ⟨v, -, heq⟩
    cases heq
    show ((p.setServer (getServer key) s).cache key v).cachedPara = (p.cache key v).cachedPara
    rw [Paralg.cache, Paralg.cache, Paralg.setServer_sspSwitch]
    by_cases hon : p.sspSwitch = true
    · rw [if_pos hon, if_pos hon]
      rfl
    · rw [if_neg hon, if_neg hon]
      rfl
  answers := by
    intro p hpresent
    rcases Option.isSome_iff_exists.mp (hpresent key List.mem_cons_self) with ⟨v, hv⟩
    have hget : (p.kvm (getServer key)).tblStore.get key = some v := hv
    simp only [pullOne, Kvclt.pull_eq, hget, Option.bind_some, Option.map_some]
    refine ⟨[v], _, rfl, rfl, ?_⟩
    intro i key' hi
    cases i with
    | zero =>
        cases hi
        rw [hv]
        rfl
    | succ i => cases hi

variable (lib) in
theorem pulls_pullMany (keys : List Str) :
    Pulls getServer keys (pullMany lib getServer keys) where
  caches := by
    intro p vals p' h
    rcases Option.map_eq_some_iff.mp h with ⟨⟨vals', p₁⟩, hmulti, heq⟩
    cases heq
    rw [Paralg.eq_of_pullGroups hmulti]
  answers := by
    intro p hpresent
    have hval : ∀ key ∈ keys, p.stored getServer key =
        some ((p.stored getServer key).getD default) := by
      intro key hkey
      rcases Option.isSome_iff_exists.mp (hpresent key hkey) with ⟨v, hv⟩
      simp [hv]
    rcases Paralg.paracelReadMulti_eq lib hval with ⟨vals, hmulti, hlen, hvals⟩
    exact ⟨vals, _, by rw [pullMany, hmulti]; rfl, hlen, hvals⟩

end Pulls

/-! ### The branches of a read -/

section Branches

variable [Inhabited V] {getServer : Str → Fin n} {limitS totalIters : Nat} {st : State V}
  {ev : Event n V} {keys : List Str} {pull : Paralg n V → Option (List V × Paralg n V)}

/-- A pull keeps the cache in agreement with what is known. -/
theorem Agrees.fetch (h : Agrees st) (hpull : Pulls getServer keys pull)
    {kvm : Fin n → Server V} {vals : List V} {st' : State V}
    (hfetch : Reads.fetch st kvm keys pull = .returned (vals, st')) : Agrees st' := by
  unfold Reads.fetch at hfetch
  split at hfetch
  · rename_i vals' p hp
    simp only [Outcome.returned.injEq, Prod.mk.injEq] at hfetch
    rcases hfetch with ⟨rfl, rfl⟩
    intro k
    rw [lastKnown_append, ← h k]
    show p.cachedPara.lookup k = _
    rw [hpull.caches _ _ _ hp, lookup_cacheAll rfl]
    rfl
  · cases hfetch

theorem Agrees.readWith (h : Agrees st) (hpull : Pulls getServer keys pull) {vals : List V}
    {st' : State V}
    (hread : Reads.readWith limitS totalIters st ev keys pull = .returned (vals, st')) :
    Agrees st' := by
  unfold Reads.readWith at hread
  split at hread
  · exact h.fetch hpull hread
  · split at hread
    · cases hread
      exact h
    · cases hread
  · split at hread
    · rename_i staleCache _
      have hst : Agrees { st with staleCache := staleCache } := h
      exact hst.fetch hpull hread
    · cases hread

/-- A pull of stored keys returns their values in order, but for repeated keys. -/
theorem fetch_answers_iff (hpull : Pulls getServer keys pull) {kvm : Fin n → Server V}
    (hpresent : ∀ key ∈ keys, (Servers.value getServer kvm key).isSome) (st : State V) :
    (∃ vals st', fetch st kvm keys pull = .returned (vals, st') ∧ vals.length = keys.length ∧
        ∀ (i : Nat) key, keys[i]? = some key → vals[i]? = Servers.value getServer kvm key) ↔
      ∀ (i j : Nat) key, i < j → keys[i]? = some key → keys[j]? = some key →
        Servers.value getServer kvm key = some default := by
  rcases hpull.answers (st.paralg kvm) hpresent with ⟨vals, p, hp, hlen, hvals⟩
  refine Iff.trans ?_ (Paralg.inOrder_iff hvals)
  rw [fetch, hp]
  constructor
  · rintro ⟨vals', st', heq, -, horder⟩
    cases heq
    exact horder
  · intro horder
    exact ⟨vals, _, rfl, hlen, horder⟩

/-- The cache serves exactly the keys that are known. -/
theorem mapM_lookup_eq (h : Agrees st) (hknown : ∀ key ∈ keys, key ∈ st.known.map Prod.fst) :
    ∃ vals, keys.mapM st.cachedPara.lookup = some vals ∧ vals.length = keys.length ∧
      ∀ (i : Nat) key, keys[i]? = some key → vals[i]? = st.lastKnown key := by
  have hsome : ∀ key ∈ keys, st.lastKnown key = some ((st.lastKnown key).getD default) := by
    intro key hkey
    rcases Option.isSome_iff_exists.mp (isSome_lastKnown.mpr (hknown key hkey)) with ⟨v, hv⟩
    simp [hv]
  refine ⟨_, mapM_eq_some fun key hkey => (h key).trans (hsome key hkey), by simp, ?_⟩
  intro i key hi
  rw [List.getElem?_map, hi, hsome key (List.mem_of_getElem? hi)]
  simp

omit [Inhabited V] in
theorem mapM_lookup_eq_none (h : Agrees st) {key : Str} (hkey : key ∈ keys)
    (hnot : key ∉ st.known.map Prod.fst) : keys.mapM st.cachedPara.lookup = none := by
  have hnone : st.cachedPara.lookup key = none := by
    rw [h key, ← Option.not_isSome_iff_eq_none, isSome_lastKnown]
    exact hnot
  exact (Kvs.getMulti_eq_none (s := ⟨st.cachedPara⟩)).mpr ⟨key, hkey, hnone⟩

variable (limitS totalIters) in
/-- A read of stored keys succeeds exactly when it is covered. -/
theorem readWith_succeeds_iff (h : Agrees st) (hpull : Pulls getServer keys pull)
    (hkeys : ev.call.keys = keys) (hpresent : Present getServer ev) :
    (readWith limitS totalIters st ev keys pull = .waiting ∨
      ∃ vals st', readWith limitS totalIters st ev keys pull = .returned (vals, st') ∧
        Answers getServer limitS totalIters st ev vals) ↔
    Covered getServer limitS totalIters st ev := by
  subst hkeys
  rw [Covered, forall_prop_of_true hpresent]
  unfold readWith Answers
  cases hbranch : readBranch limitS totalIters st.clock st.staleCache with
  | pull =>
      have hfetch := fetch_answers_iff hpull hpresent st
      have hwait : fetch st ev.kvm ev.call.keys pull ≠ .waiting := by
        unfold fetch
        split <;> simp
      simpa [hwait] using hfetch
  | hit =>
      simp only [reduceCtorEq, false_and, or_self, false_implies, and_true, if_true, true_implies]
      constructor
      · rintro hreturn key hkey
        by_contra hnot
        rw [mapM_lookup_eq_none h hkey hnot] at hreturn
        rcases hreturn with hw | ⟨vals, st', hr, -⟩
        · cases hw
        · cases hr
      · intro hknown
        rcases mapM_lookup_eq h hknown with ⟨vals, hvals, hlen, horder⟩
        rw [hvals]
        exact .inr ⟨vals, st, rfl, hlen, horder⟩
  | miss =>
      simp only [reduceCtorEq, true_and, false_or, if_false, false_implies, ← isSome_pollLoop]
      cases hpoll : pollLoop limitS st.clock st.staleCache ev.polls with
      | none => simp
      | some staleCache =>
          have hfetch := fetch_answers_iff hpull hpresent { st with staleCache := staleCache }
          have hwait : fetch { st with staleCache := staleCache } ev.kvm ev.call.keys pull ≠
              .waiting := by
            unfold fetch
            split <;> simp
          simpa [hwait] using hfetch

end Branches

/-! ### Whole runs -/

section Runs

variable [Inhabited V] (lib : Libs V) (getServer : Str → Fin n) (limitS totalIters : Nat)

theorem agrees_step {st st' : State V} {ev : Event n V} (h : Agrees st)
    (hstep : step lib getServer limitS totalIters st ev = some st') : Agrees st' := by
  unfold step perform at hstep
  cases hcall : ev.call with
  | read key =>
      simp only [hcall] at hstep
      split at hstep
      · rename_i vals st₁ hread
        cases hstep
        exact h.readWith (pulls_pullOne lib key) hread
      · cases hstep
  | readMulti keys =>
      simp only [hcall] at hstep
      split at hstep
      · rename_i vals st₁ hread
        cases hstep
        exact h.readWith (pulls_pullMany lib keys) hread
      · cases hstep
  | write key val =>
      simp only [hcall, Paralg.paracelWrite, Kvclt.push_eq, Option.map_some,
        Option.some.injEq] at hstep
      subst hstep
      intro k
      show ((st.paralg ev.kvm).cache key val).cachedPara.lookup k = _
      rw [lookup_cache rfl, State.lastKnown, List.find?_cons]
      by_cases hk : k = key
      · simp [hk]
      · rw [if_neg hk, decide_eq_false (Ne.symm hk)]
        exact h k
  | commit =>
      simp only [hcall, Option.some.injEq] at hstep
      subst hstep
      exact h

/-- Whether a call succeeds. -/
theorem succeeds_iff_covered {st : State V} (h : Agrees st) (ev : Event n V) :
    Succeeds lib getServer limitS totalIters st ev ↔
      Covered getServer limitS totalIters st ev := by
  by_cases hpresent : Present getServer ev
  · rw [Succeeds, forall_prop_of_true hpresent]
    cases hcall : ev.call with
    | read key =>
        have hread := readWith_succeeds_iff limitS totalIters h (pulls_pullOne lib key)
          (by rw [hcall]; rfl) hpresent
        simpa only [perform, hcall] using hread
    | readMulti keys =>
        have hread := readWith_succeeds_iff limitS totalIters h (pulls_pullMany lib keys)
          (by rw [hcall]; rfl) hpresent
        simpa only [perform, hcall] using hread
    | write key val =>
        simp [perform, hcall, Paralg.paracelWrite, Kvclt.push_eq, Answers, Covered, Call.keys]
    | commit => simp [perform, hcall, Answers, Covered, Call.keys]
  · simp [Succeeds, Covered, hpresent]

/-- In every run of a worker, whatever it sees of the servers, each read of stored keys returns
    their values exactly when each one is covered. -/
theorem ssp_reads_succeed_iff (evs : List (Event n V)) :
    EachStep (step lib getServer limitS totalIters) {} evs
        (Succeeds lib getServer limitS totalIters) ↔
      EachStep (step lib getServer limitS totalIters) {} evs
        (Covered getServer limitS totalIters) := by
  have hagrees : ∀ pre st, run (step lib getServer limitS totalIters) {} pre = some st →
      Agrees st := by
    intro pre st hrun
    have hinit : Agrees ({} : State V) := fun k => AList.lookup_empty k
    exact run_invariant (fun st ev st' h hstep => agrees_step lib getServer limitS totalIters h
      hstep) hinit hrun
  constructor
  · intro hall pre ev st hpre hrun
    exact (succeeds_iff_covered lib getServer limitS totalIters (hagrees pre st hrun) ev).mp
      (hall pre ev st hpre hrun)
  · intro hall pre ev st hpre hrun
    exact (succeeds_iff_covered lib getServer limitS totalIters (hagrees pre st hrun) ev).mpr
      (hall pre ev st hpre hrun)

end Runs

/-- A call that meets one server with two keys. -/
def meets (call : Call Int) : Event 1 Int :=
  { call := call, kvm := fun _ => { tblStore := (Kvs.set {} (lit "a") 1).set (lit "b") 2 } }

/-- At clock 1 the cache is used, but the second key was not read at clock 0. -/
theorem not_succeeds_uncached :
    ¬∀ evs : List (Event 1 Int), EachStep (step addMulLib (fun _ => 0) 2 3) {} evs
      (Succeeds addMulLib (fun _ => 0) 2 3) := by
  intro hall
  have hrun : ∃ st, run (step addMulLib (fun _ => 0) 2 3) {}
        [meets (.read (lit "a")), meets .commit] = some st ∧
      perform addMulLib (fun _ => 0) 2 3 st (meets (.read (lit "b"))) = .thrown :=
    ⟨_, rfl, rfl⟩
  rcases hrun with ⟨st, hrun, hthrown⟩
  have hpresent : Present (fun _ => 0) (meets (.read (lit "b"))) := by
    show ∀ key ∈ [lit "b"], _
    decide
  have hsucceeds := hall [meets (.read (lit "a")), meets .commit, meets (.read (lit "b"))]
    [meets (.read (lit "a")), meets .commit] _ st (List.prefix_refl _) hrun hpresent
  rw [hthrown] at hsucceeds
  rcases hsucceeds with hw | ⟨vals, st', hr, -⟩
  · cases hw
  · cases hr

end Paracel.Ssp.Reads
