import Paracel.Ssp.Worker

/-!
# How old a cached value can be

The value side of `paracel_read` in SSP mode, for one worker. One field
`stale_cache` says how far the worker has seen the server clock, for all keys
together, while each key has a value of its own in `cached_para`. Every cached
value carries the server clock of the moment it was pulled; the code does not
store that number, the property is about it. The other workers appear only as
what they do to the server: the clock never goes down, the stored values change.
-/

namespace Paracel.Ssp.Cache

open StepSystem

/-- A value pulled from the server and the server clock at that moment. -/
structure Fetched (V : Type) where
  val : V
  seen : Int

/-- What the worker program calls. -/
inductive Call where
  | read (key : Str)
  | commit
deriving DecidableEq

/-- A `paracel_read` that returned: its key, the clock it was called at, its value. -/
structure Returned (V : Type) where
  key : Str
  clock : Nat
  fetched : Fetched V

/-- The worker, the calls it still makes, and what it can see of the server.
    `polling` is the key of a read that missed. -/
structure State (V : Type) where
  clock : Nat := 0
  staleCache : Int := 0
  cachedPara : Dict Str (Fetched V) := ∅
  polling : Option Str := none
  todo : List Call
  serverClock : Int := 0
  tblStore : Str → V
  returned : List (Returned V) := []

/-- What can happen next: something at the server, or the next request of the worker. -/
inductive Act (V : Type) where
  | server (serverClock : Int) (tblStore : Str → V)
  | worker

variable {V : Type} {limitS totalIters : Nat}

/-- Pulls `key`, caches the value and returns it. -/
def State.fetch (st : State V) (key : Str) : State V :=
  let fetched : Fetched V := ⟨st.tblStore key, st.serverClock⟩
  { st with
    polling := none
    cachedPara := st.cachedPara.insert key fetched
    returned := ⟨key, st.clock, fetched⟩ :: st.returned }

/-- One step. `none` for a hit stands for the `bad_any_cast` of an uncached key. -/
def step (limitS totalIters : Nat) (st : State V) : Act V → Option (State V)
  | .server n tblStore =>
      if st.serverClock ≤ n then some { st with serverClock := n, tblStore := tblStore }
      else none
  | .worker =>
      match st.polling with
      | some key =>
          if mustPoll limitS st.clock st.staleCache then
            some { st with staleCache := st.serverClock }
          else some (st.fetch key)
      | none =>
          match st.todo with
          | [] => none
          | .commit :: todo => some { st with clock := st.clock + 1, todo := todo }
          | .read key :: todo =>
              match readBranch limitS totalIters st.clock st.staleCache with
              | .pull => some ({ st with todo := todo }.fetch key)
              | .hit =>
                  (st.cachedPara.lookup key).map fun fetched =>
                    { st with
                      todo := todo
                      returned := ⟨key, st.clock, fetched⟩ :: st.returned }
              | .miss => some { st with todo := todo, polling := some key }

/-- The worker before its first call, with `server_clock` 0. -/
def init (calls : List Call) (tblStore : Str → V) : State V :=
  { todo := calls, tblStore := tblStore }

/-- Between the first and the last clock, every value returned was pulled when the
    server clock was at most `limit_s` behind. -/
def Fresh (limitS totalIters : Nat) (st : State V) : Prop :=
  ∀ r ∈ st.returned, 0 < r.clock → r.clock < totalIters →
    (r.clock : Int) - limitS ≤ r.fetched.seen

/-- Every key was read at clock 0, before the first commit. -/
def WarmStart (calls : List Call) : Prop :=
  ∀ call ∈ calls, call ≠ .commit → call ∈ calls.takeWhile (· ≠ .commit)

instance (calls : List Call) : Decidable (WarmStart calls) :=
  inferInstanceAs (Decidable (∀ call ∈ calls, _))

/-- The keys read at the clocks at which a read can depend on `server_clock`. -/
def windowReads (limitS totalIters : Nat) : Nat → List Call → List Str
  | _, [] => []
  | clock, .commit :: calls => windowReads limitS totalIters (clock + 1) calls
  | clock, .read key :: calls =>
      if limitS < clock ∧ clock < totalIters then
        key :: windowReads limitS totalIters clock calls
      else windowReads limitS totalIters clock calls

theorem windowReads_eq_nil {clock : Nat} (h : totalIters ≤ clock) (calls : List Call) :
    windowReads limitS totalIters clock calls = [] := by
  induction calls generalizing clock with
  | nil => rfl
  | cons call calls ih =>
      cases call with
      | read key =>
          rw [windowReads, if_neg (by omega)]
          exact ih h
      | commit => exact ih (by omega)

/-! ### Reads of one key -/

/-- The invariant when `key` is the only key read inside the window: once
    `stale_cache` has moved, the value of `key` is as new as it says. -/
structure Inv (limitS totalIters : Nat) (key : Str) (st : State V) : Prop where
  stale_nonneg : 0 ≤ st.staleCache
  stale_le : st.staleCache ≤ st.serverClock
  seen_nonneg : ∀ k f, st.cachedPara.lookup k = some f → 0 ≤ f.seen
  tracked : st.clock < totalIters → 0 < st.staleCache → st.polling ≠ some key →
    ∀ f, st.cachedPara.lookup key = some f → st.staleCache ≤ f.seen
  polled : ∀ k, st.polling = some k → limitS < st.clock → st.clock < totalIters → k = key
  ahead : ∀ k ∈ windowReads limitS totalIters st.clock st.todo, k = key
  fresh : Fresh limitS totalIters st

section OneKey

variable {key : Str} {st st' : State V}

theorem Inv.fetch (hi : Inv limitS totalIters key st) {k : Str}
    (hpass : st.clock = 0 ∨ totalIters ≤ st.clock ∨ (st.clock : Int) ≤ st.staleCache + limitS)
    (htracked : k ≠ key → st.polling ≠ some key) :
    Inv limitS totalIters key (st.fetch k) where
  stale_nonneg := hi.stale_nonneg
  stale_le := hi.stale_le
  seen_nonneg k' f hf := by
    by_cases hk : k' = k
    · subst hk
      rw [State.fetch, AList.lookup_insert] at hf
      cases hf
      exact hi.stale_nonneg.trans hi.stale_le
    · rw [State.fetch, AList.lookup_insert_ne hk] at hf
      exact hi.seen_nonneg k' f hf
  tracked hlt hpos _ f hf := by
    by_cases hk : key = k
    · subst hk
      rw [State.fetch, AList.lookup_insert] at hf
      cases hf
      exact hi.stale_le
    · rw [State.fetch, AList.lookup_insert_ne hk] at hf
      exact hi.tracked hlt hpos (htracked (Ne.symm hk)) f hf
  polled k' hk' := by cases hk'
  ahead := hi.ahead
  fresh r hr h0 hT := by
    have hle := hi.stale_le
    rcases List.mem_cons.mp hr with rfl | hr
    · simp only at h0 hT ⊢
      omega
    · exact hi.fresh r hr h0 hT

theorem Inv.server (hi : Inv limitS totalIters key st) {n : Int} (hn : st.serverClock ≤ n)
    (tblStore : Str → V) :
    Inv limitS totalIters key { st with serverClock := n, tblStore := tblStore } :=
  { hi with stale_le := hi.stale_le.trans hn }

theorem Inv.poll (hi : Inv limitS totalIters key st) {k : Str} (hk : st.polling = some k)
    (hpoll : mustPoll limitS st.clock st.staleCache) :
    Inv limitS totalIters key { st with staleCache := st.serverClock } :=
  { hi with
    stale_nonneg := hi.stale_nonneg.trans hi.stale_le
    stale_le := le_refl _
    tracked := fun hlt _ hne => by
      -- a poll goes on at a window clock only, and there `key` is being read
      have hnonneg := hi.stale_nonneg
      simp only [mustPoll, decide_eq_true_eq] at hpoll
      refine absurd ?_ hne
      rw [hk, hi.polled k hk (by omega) hlt] }

/-- Taking a read off the list leaves the later window reads. -/
theorem ahead_of_read {k : Str} {clock : Nat} {todo : List Call}
    (h : ∀ k' ∈ windowReads limitS totalIters clock (.read k :: todo), k' = key) :
    (∀ k' ∈ windowReads limitS totalIters clock todo, k' = key) ∧
      (limitS < clock → clock < totalIters → k = key) := by
  rw [windowReads] at h
  by_cases hw : limitS < clock ∧ clock < totalIters
  · rw [if_pos hw] at h
    exact ⟨fun k' hk' => h k' (List.mem_cons_of_mem _ hk'), fun _ _ => h k List.mem_cons_self⟩
  · rw [if_neg hw] at h
    exact ⟨h, fun h1 h2 => absurd ⟨h1, h2⟩ hw⟩

theorem Inv.read (hi : Inv limitS totalIters key st) {k : Str} {todo : List Call}
    (hidle : st.polling = none) (htodo : st.todo = .read k :: todo)
    (hstep : step limitS totalIters st .worker = some st') :
    Inv limitS totalIters key st' := by
  have hahead := hi.ahead
  rw [htodo] at hahead
  obtain ⟨hrest, hk⟩ := ahead_of_read hahead
  have hi' : Inv limitS totalIters key { st with todo := todo } := { hi with ahead := hrest }
  simp only [step, hidle, htodo] at hstep
  cases hbranch : readBranch limitS totalIters st.clock st.staleCache with
  | pull =>
      simp only [hbranch, Option.some.injEq] at hstep
      subst hstep
      refine hi'.fetch ?_ fun _ => by simp [hidle]
      unfold readBranch at hbranch
      split at hbranch
      · simp only
        omega
      · split at hbranch <;> cases hbranch
  | hit =>
      simp only [hbranch, Option.map_eq_some_iff] at hstep
      rcases hstep with ⟨f, hf, rfl⟩
      refine
        { hi' with
          tracked := fun hlt hpos _ => hi.tracked hlt hpos (by simp [hidle])
          polled := fun k' hk' => by cases hk'
          fresh := fun r hr h0 hT => ?_ }
      rcases List.mem_cons.mp hr with rfl | hr
      · simp only at h0 hT ⊢
        have hnonneg := hi.seen_nonneg k f hf
        have hhit : st.staleCache + limitS > st.clock := by
          unfold readBranch at hbranch
          split at hbranch
          · cases hbranch
          · split at hbranch
            · assumption
            · cases hbranch
        by_cases hwin : limitS < st.clock
        · obtain rfl := hk hwin hT
          have htracked := hi.tracked hT (by omega) (by simp [hidle]) f hf
          omega
        · omega
      · exact hi.fresh r hr h0 hT
  | miss =>
      simp only [hbranch, Option.some.injEq] at hstep
      subst hstep
      exact
        { hi' with
          tracked := fun hlt hpos _ => hi.tracked hlt hpos (by simp [hidle])
          polled := fun k' hk' h1 h2 => by
            cases hk'
            exact hk h1 h2 }

theorem Inv.step (hi : Inv limitS totalIters key st) {a : Act V}
    (hstep : step limitS totalIters st a = some st') : Inv limitS totalIters key st' := by
  cases a with
  | server n tblStore =>
      simp only [Cache.step] at hstep
      split at hstep
      · rename_i hn
        cases hstep
        exact hi.server hn tblStore
      · cases hstep
  | worker =>
      cases hpolling : st.polling with
      | some k =>
          simp only [Cache.step, hpolling] at hstep
          split at hstep
          · rename_i hpoll
            cases hstep
            simpa only [hpolling] using hi.poll hpolling hpoll
          · rename_i hpass
            cases hstep
            simp only [mustPoll, decide_eq_true_eq, not_lt] at hpass
            apply hi.fetch (.inr (.inr hpass))
            intro hne
            rw [hpolling]
            simpa using hne
      | none =>
          cases htodo : st.todo with
          | nil => simp [Cache.step, hpolling, htodo] at hstep
          | cons call todo =>
              cases call with
              | read k => exact hi.read hpolling htodo hstep
              | commit =>
                  simp only [Cache.step, hpolling, htodo, Option.some.injEq] at hstep
                  subst hstep
                  have hahead := hi.ahead
                  rw [htodo] at hahead
                  exact
                    { hi with
                      ahead := hahead
                      tracked := fun hlt hpos _ =>
                        hi.tracked (by simp only at hlt; omega) hpos (by simp [hpolling])
                      polled := fun k hk => by cases hk }

theorem inv_init {calls : List Call}
    (hone : ∀ k ∈ windowReads limitS totalIters 0 calls, k = key) (tblStore : Str → V) :
    Inv limitS totalIters key (init calls tblStore) where
  stale_nonneg := le_refl _
  stale_le := le_refl _
  seen_nonneg k f hf := by simp [init] at hf
  tracked _ hpos := absurd hpos (by simp [init])
  polled k hk := by cases hk
  ahead := hone
  fresh r hr := by cases hr

end OneKey

/-! ### Reads of two keys -/

section TwoKeys

variable {st : State V} {key k : Str} {todo : List Call}

theorem step_commit (hidle : st.polling = none) (htodo : st.todo = .commit :: todo) :
    step limitS totalIters st .worker =
      some { st with clock := st.clock + 1, todo := todo } := by
  simp [step, hidle, htodo]

theorem step_pull (hidle : st.polling = none) (htodo : st.todo = .read key :: todo)
    (h0 : st.clock = 0) :
    step limitS totalIters st .worker = some ({ st with todo := todo }.fetch key) := by
  simp [step, hidle, htodo, readBranch, h0]

theorem step_hit (limitS : Nat) (hidle : st.polling = none) (htodo : st.todo = .read key :: todo)
    (h0 : 0 < st.clock) (hT : st.clock < totalIters)
    (hhit : (st.clock : Int) < st.staleCache + limitS)
    {f : Fetched V} (hf : st.cachedPara.lookup key = some f) :
    step limitS totalIters st .worker =
      some { st with todo := todo, returned := ⟨key, st.clock, f⟩ :: st.returned } := by
  have hbranch : readBranch limitS totalIters st.clock st.staleCache = .hit := by
    rw [readBranch, if_neg (by omega), if_pos hhit]
  simp [step, hidle, htodo, hbranch, hf]

/-- A read that misses at the clock the server allows, or after a poll that showed
    the clock `n` of the server, pulls the key. -/
theorem reachable_miss (limitS : Nat) (hidle : st.polling = none)
    (htodo : st.todo = .read key :: todo) (h0 : 0 < st.clock) (hT : st.clock < totalIters)
    (hmiss : st.staleCache + limitS ≤ st.clock) {n : Int} (hn : st.serverClock ≤ n)
    (hreach : (st.clock : Int) ≤ n + limitS) :
    ∃ stale, (stale = st.staleCache ∧ st.clock = st.staleCache + limitS ∨ stale = n) ∧
      Reachable (step limitS totalIters) st
        ({ st with todo := todo, serverClock := n, staleCache := stale }.fetch key) := by
  have hbranch : readBranch limitS totalIters st.clock st.staleCache = .miss := by
    rw [readBranch, if_neg (by omega), if_neg (by omega)]
  have hwait : Reachable (step limitS totalIters) st
      { st with todo := todo, polling := some key, serverClock := n } := by
    refine (Reachable.single (a := .worker) ?_).tail (a := .server n st.tblStore)
      (s := { st with todo := todo, polling := some key }) ?_
    · simp [step, hidle, htodo, hbranch]
    · simp [step, hn]
  by_cases hpoll : st.staleCache + limitS < st.clock
  · have hpolled : Reachable (step limitS totalIters) st
        { st with todo := todo, polling := some key, serverClock := n, staleCache := n } := by
      apply hwait.tail (a := .worker)
      simp [step, mustPoll, hpoll]
    have hpass : ¬n + limitS < st.clock := by omega
    refine ⟨n, .inr rfl, hpolled.tail (a := .worker) ?_⟩
    simp [step, mustPoll, hpass, State.fetch]
  · refine ⟨st.staleCache, .inl ⟨rfl, by omega⟩, hwait.tail (a := .worker) ?_⟩
    simp [step, mustPoll, hpoll, State.fetch]

/-- `stale_cache` is beyond every clock still to come and the value of `key` is old. -/
structure Hot (totalIters : Nat) (key : Str) (st : State V) : Prop where
  idle : st.polling = none
  pos : 0 < st.clock
  high : (totalIters : Int) ≤ st.staleCache
  cached : ∀ k, .read k ∈ st.todo → (st.cachedPara.lookup k).isSome
  old : ∀ f, st.cachedPara.lookup key = some f → f.seen ≤ 0

theorem exists_not_fresh_of_hot (hhot : Hot totalIters key st)
    (hkey : key ∈ windowReads limitS totalIters st.clock st.todo) :
    ∃ t, Reachable (step limitS totalIters) st t ∧ ¬Fresh limitS totalIters t := by
  induction htodo : st.todo generalizing st with
  | nil => simp [htodo, windowReads] at hkey
  | cons call todo ih =>
      rw [htodo] at hkey
      have hpos := hhot.pos
      have hmem : ∀ k, .read k ∈ todo → (st.cachedPara.lookup k).isSome := fun k hk =>
        hhot.cached k (by rw [htodo]; exact List.mem_cons_of_mem _ hk)
      cases call with
      | commit =>
          have hnext : Hot totalIters key { st with clock := st.clock + 1, todo := todo } :=
            { hhot with pos := Nat.succ_pos _, cached := hmem }
          obtain ⟨t, ht, hbad⟩ := ih hnext hkey rfl
          exact ⟨t, (Reachable.single (step_commit hhot.idle htodo)).trans ht, hbad⟩
      | read k =>
          have hT : st.clock < totalIters := by
            by_contra hge
            rw [windowReads_eq_nil (by omega)] at hkey
            cases hkey
          have hhigh := hhot.high
          obtain ⟨f, hf⟩ := Option.isSome_iff_exists.mp
            (hhot.cached k (by rw [htodo]; exact List.mem_cons_self))
          have hstep := step_hit limitS hhot.idle htodo hpos hT (by omega) hf
          rw [windowReads] at hkey
          by_cases hold : limitS < st.clock ∧ k = key
          · rcases hold with ⟨hwin, rfl⟩
            refine ⟨_, .single hstep, ?_⟩
            intro hfresh
            have hle := hfresh _ List.mem_cons_self hpos hT
            have hseen := hhot.old f hf
            simp only at hle
            omega
          · have hrest : key ∈ windowReads limitS totalIters st.clock todo := by
              split at hkey
              · rename_i hwin
                refine (List.mem_cons.mp hkey).resolve_left fun h => hold ⟨hwin.1, h.symm⟩
              · exact hkey
            have hnext : Hot totalIters key
                { st with todo := todo, returned := ⟨k, st.clock, f⟩ :: st.returned } :=
              { hhot with cached := hmem }
            obtain ⟨t, ht, hbad⟩ := ih hnext hrest rfl
            exact ⟨t, (Reachable.single hstep).trans ht, hbad⟩

/-- The server clock still shows 0 and every key the worker reads after clock 0 is cached. -/
structure Cold (st : State V) : Prop where
  idle : st.polling = none
  stale : st.staleCache = 0
  server : st.serverClock = 0
  old : ∀ k f, st.cachedPara.lookup k = some f → f.seen ≤ 0
  warm : ∀ k, .read k ∈ st.todo → (st.cachedPara.lookup k).isSome ∨
    st.clock = 0 ∧ .read k ∈ st.todo.takeWhile (· ≠ .commit)

theorem isSome_lookup_insert (d : Dict Str (Fetched V)) (f : Fetched V) :
    ((d.insert key f).lookup k).isSome ↔ k = key ∨ (d.lookup k).isSome := by
  by_cases hk : k = key
  · subst hk
    simp
  · simp [hk]

/-- Pulling a key keeps the start cold, as long as the server clock shows 0. -/
theorem Cold.fetch (hcold : Cold st) (htodo : st.todo = .read key :: todo) :
    Cold ({ st with todo := todo }.fetch key) where
  idle := rfl
  stale := hcold.stale
  server := hcold.server
  old k f hf := by
    by_cases hk : k = key
    · subst hk
      rw [State.fetch, AList.lookup_insert] at hf
      cases hf
      exact hcold.server.le
    · rw [State.fetch, AList.lookup_insert_ne hk] at hf
      exact hcold.old k f hf
  warm k hk := by
    simp only [State.fetch, isSome_lookup_insert]
    have hwarm := hcold.warm k (by rw [htodo]; exact List.mem_cons_of_mem _ hk)
    rw [htodo] at hwarm
    rcases hwarm with hsome | ⟨h0, hmem⟩
    · exact .inl (.inr hsome)
    · rw [List.takeWhile_cons_of_pos (by simp)] at hmem
      rcases List.mem_cons.mp hmem with heq | hmem
      · cases heq
        exact .inl (.inl rfl)
      · exact .inr ⟨h0, hmem⟩

theorem Cold.commit (hcold : Cold st) (htodo : st.todo = .commit :: todo) :
    Cold { st with clock := st.clock + 1, todo := todo } :=
  { hcold with
    warm := fun k hk => by
      refine .inl ((hcold.warm k ?_).resolve_right ?_)
      · rw [htodo]
        exact List.mem_cons_of_mem _ hk
      · simp [htodo] }

/-- After clock 0 every key still to be read is cached. -/
theorem Cold.cached (hcold : Cold st) (hpos : 0 < st.clock) {k : Str} (hk : .read k ∈ st.todo) :
    (st.cachedPara.lookup k).isSome :=
  (hcold.warm k hk).resolve_right fun h => by omega

theorem Cold.hit (hcold : Cold st) (htodo : st.todo = .read key :: todo) (hpos : 0 < st.clock)
    (r : Returned V) : Cold { st with todo := todo, returned := r :: st.returned } :=
  { hcold with
    warm := fun k hk =>
      .inl (hcold.cached hpos (by rw [htodo]; exact List.mem_cons_of_mem _ hk)) }

/-- A first poll that shows a server clock of `total_iters` makes every other key hot. -/
theorem Cold.hot (hcold : Cold st) (htodo : st.todo = .read key :: todo) (hpos : 0 < st.clock)
    (hk : k ≠ key) :
    Hot totalIters k ({ st with todo := todo, serverClock := totalIters, staleCache := totalIters
      }.fetch key) where
  idle := rfl
  pos := hpos
  high := le_refl _
  cached k' hk' := by
    simp only [State.fetch, isSome_lookup_insert]
    exact .inr (hcold.cached hpos (by rw [htodo]; exact List.mem_cons_of_mem _ hk'))
  old f hf := by
    rw [State.fetch, AList.lookup_insert_ne hk] at hf
    exact hcold.old k f hf

theorem exists_not_fresh_of_cold (hcold : Cold st) {k₁ k₂ : Str} (hne : k₁ ≠ k₂)
    (h₁ : k₁ ∈ windowReads limitS totalIters st.clock st.todo)
    (h₂ : k₂ ∈ windowReads limitS totalIters st.clock st.todo) :
    ∃ t, Reachable (step limitS totalIters) st t ∧ ¬Fresh limitS totalIters t := by
  induction htodo : st.todo generalizing st with
  | nil => simp [htodo, windowReads] at h₁
  | cons call todo ih =>
      rw [htodo] at h₁ h₂
      have hT : st.clock < totalIters ∨ call = .commit := by
        by_contra! h
        rw [windowReads_eq_nil h.1] at h₁
        cases h₁
      cases call with
      | commit =>
          obtain ⟨t, ht, hbad⟩ := ih (hcold.commit htodo) h₁ h₂ rfl
          exact ⟨t, (Reachable.single (step_commit hcold.idle htodo)).trans ht, hbad⟩
      | read k =>
          have hlt : st.clock < totalIters := hT.resolve_right (by simp)
          have hstale := hcold.stale
          have hserver := hcold.server
          rw [windowReads] at h₁ h₂
          by_cases hwin : limitS < st.clock
          · -- the first read that depends on the server: let its clock run far ahead
            rw [if_pos ⟨hwin, hlt⟩] at h₁ h₂
            obtain ⟨stale, hor, hr⟩ := reachable_miss limitS hcold.idle htodo
              (by omega) hlt (by omega) (n := totalIters) (by omega) (by omega)
            obtain rfl : stale = totalIters := hor.resolve_left (by omega)
            obtain ⟨k', hk', hmem⟩ :
                ∃ k' ≠ k, k' ∈ windowReads limitS totalIters st.clock todo := by
              by_cases hk : k₁ = k
              · subst hk
                exact ⟨k₂, hne.symm, (List.mem_cons.mp h₂).resolve_left hne.symm⟩
              · exact ⟨k₁, hk, (List.mem_cons.mp h₁).resolve_left hk⟩
            obtain ⟨t, ht, hbad⟩ := exists_not_fresh_of_hot (hcold.hot htodo (by omega) hk') hmem
            exact ⟨t, hr.trans ht, hbad⟩
          · rw [if_neg fun h => hwin h.1] at h₁ h₂
            by_cases h0 : st.clock = 0
            · obtain ⟨t, ht, hbad⟩ := ih (hcold.fetch htodo) h₁ h₂ rfl
              exact ⟨t, (Reachable.single (step_pull hcold.idle htodo h0)).trans ht, hbad⟩
            · by_cases hhit : st.clock < limitS
              · have hpos : 0 < st.clock := Nat.pos_of_ne_zero h0
                obtain ⟨f, hf⟩ := Option.isSome_iff_exists.mp
                  (hcold.cached hpos (by rw [htodo]; exact List.mem_cons_self))
                have hstep := step_hit limitS hcold.idle htodo hpos hlt (by omega) hf
                obtain ⟨t, ht, hbad⟩ := ih (hcold.hit htodo hpos ⟨k, st.clock, f⟩) h₁ h₂ rfl
                exact ⟨t, (Reachable.single hstep).trans ht, hbad⟩
              · obtain ⟨stale, hor, hr⟩ := reachable_miss limitS hcold.idle htodo
                  (by omega) hlt (by omega) (n := 0) (by omega) (by omega)
                obtain rfl : stale = st.staleCache := by omega
                rw [← hserver] at hr
                obtain ⟨t, ht, hbad⟩ := ih (hcold.fetch htodo) h₁ h₂ rfl
                exact ⟨t, hr.trans ht, hbad⟩

end TwoKeys

/-- For keys that were all read at clock 0, every read between the first and the last
    clock returns a value at most `limit_s` clocks old, whatever the server does,
    exactly when all reads at clocks beyond `limit_s` are of one key. -/
theorem fresh_iff_one_key {calls : List Call} (hwarm : WarmStart calls) (tblStore : Str → V) :
    (∀ t, Reachable (step limitS totalIters) (init calls tblStore) t →
      Fresh limitS totalIters t) ↔
    ∀ k ∈ windowReads limitS totalIters 0 calls, ∀ k' ∈ windowReads limitS totalIters 0 calls,
      k = k' := by
  constructor
  · intro hall k₁ h₁ k₂ h₂
    by_contra hne
    have hcold : Cold (init calls tblStore) :=
      { idle := rfl
        stale := rfl
        server := rfl
        old := fun k f hf => by simp [init] at hf
        warm := fun k hk => .inr ⟨rfl, hwarm _ hk (by simp)⟩ }
    obtain ⟨t, ht, hbad⟩ := exists_not_fresh_of_cold hcold hne h₁ h₂
    exact hbad (hall t ht)
  · intro hone t ht
    obtain ⟨key, hkey⟩ : ∃ key, ∀ k ∈ windowReads limitS totalIters 0 calls, k = key := by
      cases hw : windowReads limitS totalIters 0 calls with
      | nil => exact ⟨[], fun k hk => by cases hk⟩
      | cons key rest =>
          refine ⟨key, ?_⟩
          intro k hk
          rw [← hw] at hk
          exact hone k hk key (by rw [hw]; exact List.mem_cons_self)
    have hinv : Inv limitS totalIters key t :=
      ht.invariant (inv_init hkey tblStore) fun _ _ _ hi hstep => hi.step hstep
    exact hinv.fresh

/-- One iteration that reads two keys, after both were read at clock 0. -/
def twoKeys : List Call :=
  [.read (lit "a"), .read (lit "b"), .commit, .read (lit "a"), .read (lit "b")]

/-- Both keys are read at clock 0, and only the first later. -/
def oneKeyLater : List Call :=
  [.read (lit "a"), .read (lit "b"), .commit, .read (lit "a"), .commit, .read (lit "a")]

theorem fresh_iff_one_key_twoKeys :
    windowReads 0 3 0 oneKeyLater = [lit "a", lit "a"] ∧
      (∀ t, Reachable (step 0 3) (init oneKeyLater fun _ => 0) t → Fresh 0 3 t) ∧
      windowReads 0 3 0 twoKeys = [lit "a", lit "b"] ∧
      ∃ t, Reachable (step 0 3) (init twoKeys fun _ => 0) t ∧ ¬Fresh 0 3 t := by
  have hlater : windowReads 0 3 0 oneKeyLater = [lit "a", lit "a"] := by decide
  have htwo : windowReads 0 3 0 twoKeys = [lit "a", lit "b"] := by decide
  refine ⟨hlater, ?_, htwo, ?_⟩
  · apply (fresh_iff_one_key (by decide) fun _ => 0).mpr
    rw [hlater]
    decide
  · by_contra hnone
    have hone := (fresh_iff_one_key (by decide) fun _ => 0).mp fun t ht =>
      not_not.mp fun hbad => hnone ⟨t, ht, hbad⟩
    rw [htwo] at hone
    exact absurd (hone (lit "a") (by decide) (lit "b") (by decide)) (by decide)

/-- The miss on the first key makes the second a hit, on a value from clock 0. -/
theorem not_fresh_twoKeys :
    ¬∀ t, Reachable (step 0 3) (init twoKeys fun _ => 0) t → Fresh 0 3 t := by
  intro hfresh
  have hrun : ∃ t, run (step 0 3) (init twoKeys fun _ => 0)
        [.worker, .worker, .worker, .worker, .server 2 fun _ => 1, .worker, .worker, .worker] =
          some t ∧
      t.returned.head?.map (fun r => (r.key, r.clock, r.fetched.seen)) = some (lit "b", 1, 0) :=
    ⟨_, rfl, by decide⟩
  rcases hrun with ⟨t, ht, hhead⟩
  obtain ⟨r, hr, hval⟩ := Option.map_eq_some_iff.mp hhead
  have hle := hfresh t ⟨_, ht⟩ r (List.mem_of_mem_head? hr)
  simp only [Prod.mk.injEq] at hval
  rcases hval with ⟨-, hclock, hseen⟩
  rw [hclock, hseen] at hle
  exact absurd (hle (by decide) (by decide)) (by decide)

end Paracel.Ssp.Cache
