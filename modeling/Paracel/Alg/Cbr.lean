import Mathlib.Data.List.FinRange
import Paracel.Ps.Shared

/-!
# Content based recommendation

`alg/cbr/cbr.hpp`: worker 0 writes the factors of all items to the servers; behind a
barrier every worker goes through the ratings of its own users, and fetches the
factor of an item when it meets one that is not in `ifactor`, which is emptied
whenever it has become too large. So what is fetched, and how often, depends on
what was fetched before. `iter_commit` is never called, so the clock stays 0 and
every read goes to a server. `sync()` is taken as `paracel_sync()`. Vectors have
`fac_dim` entries. Of the arithmetic on `double` no law is used.
-/

namespace Paracel.Cbr

open StepSystem

/-- `vector<double>` of `fac_dim` entries. -/
abbrev Vec (K : Type) (d : Nat) := Fin d → K

/-- A rating that a user gave an item. -/
structure Rating (K : Type) where
  uid : Str
  iid : Str
  wgt : K

/-- The members that the learning only reads, and what `init` fills in for each worker:
    `usrRatingLst` in the order of its iteration, the factors and the biases of its users. -/
structure Job (K : Type) (d n : Nat) where
  rounds : Nat
  alpha : K
  beta : K
  miu : K
  ibias : Str → K
  itemFactors : List (Str × Vec K d)
  usrRatingLst : Fin n → List (Str × List (Str × K))
  ufactor : Fin n → Str → Vec K d
  ubias : Fin n → Str → K

/-- The members that the learning changes. -/
structure Learner (K : Type) (d : Nat) where
  ufactor : Str → Vec K d
  ubias : Str → K
  ifactor : Dict Str (Vec K d)

/-- The key of the factor of an item. -/
def ifactorKey (iid : Str) : Str := iid ++ lit "_ifactor"

/-- Where a worker is: among the writes of `init`, in front of the barrier behind it, at a rating
    of an item that is not in `ifactor`, through, or ended by the assertion of a `pull`. -/
inductive Loc (K : Type) (d : Nat) where
  | load (todo : List (Str × Vec K d))
  | init
  | learn (s : Learner K d) (todo : List (Rating K))
  | done (s : Learner K d)
  | aborted

section Program

variable {K : Type} [Zero K] [Add K] [Sub K] [Mul K] [Inhabited K] {d n m : Nat} (job : Job K d n)
  (getServer : Str → Fin m)

/-- `dot_product`. -/
def dotProduct (a b : Vec K d) : K :=
  (List.finRange d).foldl (fun acc k => acc + a k * b k) 0

/-- What a rating does to the factor and the bias of its user, with the factor `f` of the item. -/
def rate (r : Rating K) (f : Vec K d) (u : Vec K d × K) : Vec K d × K :=
  let e := r.wgt - job.miu - job.ibias r.iid - u.2 - dotProduct u.1 f
  (fun k => u.1 k + job.alpha * (e * f k - job.beta * u.1 k),
    u.2 + job.alpha * (e - job.beta * u.2))

/-- The body of the loop over the ratings behind the read. -/
def Learner.learn (s : Learner K d) (r : Rating K) (f : Vec K d) : Learner K d where
  ufactor := Function.update s.ufactor r.uid (rate job r f (s.ufactor r.uid, s.ubias r.uid)).1
  ubias := Function.update s.ubias r.uid (rate job r f (s.ufactor r.uid, s.ubias r.uid)).2
  ifactor := if 10000 < s.ifactor.entries.length then ∅ else s.ifactor

/-- The loop over the ratings up to the next read. -/
def settle (s : Learner K d) : List (Rating K) → Loc K d
  | [] => .done s
  | r :: todo =>
      match s.ifactor.lookup r.iid with
      | some f => settle (s.learn job r f) todo
      | none => .learn s (r :: todo)

/-- The ratings of one round. -/
def roundRatings (w : Fin n) : List (Rating K) :=
  (job.usrRatingLst w).flatMap fun usr => usr.2.map fun kv => ⟨usr.1, kv.1, kv.2⟩

/-- The ratings of all rounds. -/
def ratings (w : Fin n) : List (Rating K) :=
  (List.replicate job.rounds (roundRatings job w)).flatten

/-- The factors that a worker writes. -/
def writes (w : Fin n) : List (Str × Vec K d) :=
  if w.val = 0 then job.itemFactors else []

/-- The members behind `init`; `ifactor` has been cleared. -/
def Learner.start (w : Fin n) : Learner K d :=
  { ufactor := job.ufactor w, ubias := job.ubias w, ifactor := ∅ }

/-- `solve`, which is `learning_1d`. -/
def solve (w : Fin n) :
    Loc K d → Spmd.Action (Loc K d) (SrvCall m (Vec K d)) (Option (Reply (Vec K d)))
  | .load (kv :: todo) =>
      .call (.paracelWrite getServer (ifactorKey kv.1) kv.2) fun _ => .load todo
  | .load [] => .sync .init
  | .init => .sync (settle job (Learner.start job w) (ratings job w))
  | .learn s (r :: todo) =>
      .call (.paracelRead getServer (ifactorKey r.iid)) fun reply =>
        if readOk reply then
          let s := { s with ifactor := s.ifactor.insert r.iid (readVal reply) }
          settle job (s.learn job r (readVal reply)) todo
        else .aborted
  | .learn _ [] | .done _ | .aborted => .halt

/-- All workers before `init`. -/
def atStart (servers : Servers m (Vec K d)) :
    Spmd.State n (Loc K d) (SrvCall m (Vec K d)) (Servers m (Vec K d)) :=
  { loc := fun w => .load (writes job w), store := servers }

end Program

/-! ### One worker -/

section Local

variable {K : Type} [Zero K] [Add K] [Sub K] [Mul K] [Inhabited K] {d n m : Nat} (job : Job K d n)

/-- The factor of an item in the file. -/
def factor (iid : Str) : Vec K d :=
  ((job.itemFactors.find? fun kv => kv.1 = iid).map Prod.snd).getD default

/-- Stochastic gradient descent over ratings of one user, with the factors of the file. -/
def descend (rs : List (Rating K)) (u : Vec K d × K) : Vec K d × K :=
  rs.foldl (fun u r => rate job r (factor job r.iid) u) u

/-- What a worker has after the ratings `past`: for every user the result of its own ratings, and
    in `ifactor` factors of the file. -/
structure Learned (w : Fin n) (past : List (Rating K)) (s : Learner K d) : Prop where
  users : ∀ uid, (s.ufactor uid, s.ubias uid) =
    descend job (past.filter fun r => r.uid = uid) (job.ufactor w uid, job.ubias w uid)
  cache : ∀ iid f, s.ifactor.lookup iid = some f → f = factor job iid

/-- A worker in its loop, with `past` behind it. -/
inductive Learning (w : Fin n) : Loc K d → Prop where
  | learn (s : Learner K d) (past todo : List (Rating K)) (r : Rating K)
      (hsplit : past ++ r :: todo = ratings job w) (h : Learned job w past s) :
      Learning w (.learn s (r :: todo))
  | done (s : Learner K d) (h : Learned job w (ratings job w) s) : Learning w (.done s)

variable {job} {w : Fin n} {s : Learner K d} {past todo : List (Rating K)}

theorem descend_append (rs rs' : List (Rating K)) (u : Vec K d × K) :
    descend job (rs ++ rs') u = descend job rs' (descend job rs u) :=
  List.foldl_append

theorem learned_start (job : Job K d n) (w : Fin n) :
    Learned job w [] (Learner.start job w) := by
  refine ⟨fun uid => rfl, ?_⟩
  intro iid f h
  rw [Learner.start, AList.lookup_empty] at h
  cases h

/-- One more rating, with the factor of the file. -/
theorem Learned.learn (h : Learned job w past s) (r : Rating K) :
    Learned job w (past ++ [r]) (s.learn job r (factor job r.iid)) := by
  constructor
  · intro uid
    have husers := h.users uid
    rw [List.filter_append]
    by_cases huid : r.uid = uid
    · subst huid
      rw [List.filter_cons_of_pos (by simp), List.filter_nil, descend_append, ← husers,
        Learner.learn]
      simp only [Function.update_self, descend, List.foldl_cons, List.foldl_nil]
    · rw [List.filter_cons_of_neg (by simpa using huid), List.filter_nil, List.append_nil,
        ← husers, Learner.learn]
      simp only [Function.update_of_ne (Ne.symm huid)]
  · intro iid f hlookup
    rw [Learner.learn] at hlookup
    dsimp only at hlookup
    split at hlookup
    · rw [AList.lookup_empty] at hlookup
      cases hlookup
    · exact h.cache iid f hlookup

/-- The loop goes on to the next read, or to its end. -/
theorem Learned.settle (h : Learned job w past s) (hsplit : past ++ todo = ratings job w) :
    Learning job w (settle job s todo) := by
  induction todo generalizing past s with
  | nil =>
      rw [List.append_nil] at hsplit
      subst hsplit
      exact .done s h
  | cons r todo ih =>
      rw [Cbr.settle]
      cases hlookup : s.ifactor.lookup r.iid with
      | some f =>
          rw [h.cache r.iid f hlookup]
          apply ih (h.learn r)
          rw [List.append_assoc]
          exact hsplit
      | none => exact .learn s past todo r hsplit h

/-- A factor is put into `ifactor`. -/
theorem Learned.insert (h : Learned job w past s) (iid : Str) : Learned job w past
    { s with ifactor := s.ifactor.insert iid (factor job iid) } := by
  refine ⟨h.users, ?_⟩
  intro iid' f hlookup
  by_cases hid : iid' = iid
  · subst hid
    rw [AList.lookup_insert] at hlookup
    exact (Option.some.inj hlookup).symm
  · rw [AList.lookup_insert_ne hid] at hlookup
    exact h.cache iid' f hlookup

end Local

/-! ### All workers -/

section Runs

variable {K : Type} [Zero K] [Add K] [Sub K] [Mul K] [Inhabited K] {d n m : Nat} {job : Job K d n}
  {getServer : Str → Fin m}
  {lib : Libs (Vec K d)} {servers : Servers m (Vec K d)} {w : Fin n}
  {st st' : Spmd.State n (Loc K d) (SrvCall m (Vec K d)) (Servers m (Vec K d))}

/-- Every item is in the file once. -/
structure Complete (job : Job K d n) : Prop where
  nodup : (job.itemFactors.map Prod.fst).Nodup
  rated : ∀ w, ∀ r ∈ ratings job w, r.iid ∈ job.itemFactors.map Prod.fst

/-- The servers have all factors. -/
def Written (job : Job K d n) (getServer : Str → Fin m) (servers : Servers m (Vec K d)) : Prop :=
  ∀ kv ∈ job.itemFactors, servers.value getServer (ifactorKey kv.1) = some kv.2

/-- Where the workers are, and what the servers then hold. -/
inductive Stage (job : Job K d n) (getServer : Str → Fin m)
    (st : Spmd.State n (Loc K d) (SrvCall m (Vec K d)) (Servers m (Vec K d))) : Prop where
  | load (h : ∀ w, ∃ sent todo, st.loc w = .load todo ∧ sent ++ todo = writes job w ∧
      ∀ kv ∈ sent, st.store.value getServer (ifactorKey kv.1) = some kv.2)
  | init (hstore : Written job getServer st.store) (h : ∀ w, st.loc w = .init)
  | learn (hstore : Written job getServer st.store) (h : ∀ w, Learning job w (st.loc w))

/-- A bound on the steps that a worker has ahead of it. -/
def ahead (job : Job K d n) (w : Fin n) : Loc K d → Nat
  | .load todo => todo.length + (ratings job w).length + 3
  | .init => (ratings job w).length + 2
  | .learn _ todo => todo.length + 1
  | .done _ | .aborted => 0

omit [Inhabited K] in
theorem ahead_settle (job : Job K d n) (w : Fin n) (s : Learner K d) (todo : List (Rating K)) :
    ahead job w (settle job s todo) ≤ todo.length + 1 := by
  induction todo generalizing s with
  | nil => exact Nat.zero_le _
  | cons r todo ih =>
      rw [settle]
      split
      · exact (ih _).trans (by simp)
      · exact Nat.le_refl _

theorem ifactorKey_inj {iid iid' : Str} : ifactorKey iid = ifactorKey iid' ↔ iid = iid' :=
  List.append_left_inj (lit "_ifactor")

omit [Zero K] [Add K] [Sub K] [Mul K] in
theorem Complete.factor_eq (hjob : Complete job) {kv : Str × Vec K d}
    (h : kv ∈ job.itemFactors) : factor job kv.1 = kv.2 := by
  rw [factor, Kvs.find?_of_nodup hjob.nodup h]
  rfl

omit [Zero K] [Add K] [Sub K] [Mul K] [Inhabited K] in
theorem mem_writes {kv : Str × Vec K d} (h : kv ∈ writes job w) : kv ∈ job.itemFactors := by
  rw [writes] at h
  split at h
  · exact h
  · cases h

/-- A write. -/
theorem Stage.write (hjob : Complete job) {kv : Str × Vec K d} {todo : List (Str × Vec K d)}
    (h : ∀ w, ∃ sent todo, st.loc w = .load todo ∧ sent ++ todo = writes job w ∧
      ∀ kv ∈ sent, st.store.value getServer (ifactorKey kv.1) = some kv.2)
    (hloc : st.loc w = .load (kv :: todo)) (log : List (Fin n × SrvCall m (Vec K d))) :
    Stage job getServer {
      loc := Function.update st.loc w (.load todo)
      store := (Servers.handle lib st.store
        (.paracelWrite getServer (ifactorKey kv.1) kv.2)).2
      log := log } := by
  obtain ⟨sent, todo', hloc', hsplit, hsent⟩ := h w
  rw [hloc] at hloc'
  cases hloc'
  have hkv : kv ∈ job.itemFactors :=
    mem_writes (hsplit ▸ List.mem_append_right sent List.mem_cons_self)
  apply Stage.load
  apply Servers.exists_sent_write h hsplit hsent
  intro v kv' hkv' hkey
  rw [List.inj_on_of_nodup_map hjob.nodup (mem_writes hkv') hkv (ifactorKey_inj.mp hkey)]

omit [Zero K] [Add K] [Sub K] [Mul K] in
/-- What is read for a rating. -/
theorem Complete.value_read (hjob : Complete job) {servers : Servers m (Vec K d)}
    (hstore : Written job getServer servers) {r : Rating K} (h : r ∈ ratings job w) :
    servers.value getServer (ifactorKey r.iid) = some (factor job r.iid) := by
  obtain ⟨kv, hkv, hid⟩ := List.mem_map.mp (hjob.rated w r h)
  rw [← hid, hstore kv hkv, hjob.factor_eq hkv]

/-- A write, or a read. -/
theorem Stage.call (lib : Libs (Vec K d)) (hjob : Complete job) (h : Stage job getServer st)
    {op : SrvCall m (Vec K d)} {next : Option (Reply (Vec K d)) → Loc K d}
    (hact : solve job getServer w (st.loc w) = .call op next) :
    Stage job getServer {
        loc := Function.update st.loc w (next (Servers.handle lib st.store op).1)
        store := (Servers.handle lib st.store op).2
        log := st.log ++ [(w, op)] } ∧
      ahead job w (next (Servers.handle lib st.store op).1) < ahead job w (st.loc w) := by
  cases h with
  | load h =>
      obtain ⟨sent, todo, hloc, -⟩ := h w
      rw [hloc] at hact
      cases todo with
      | nil =>
          rw [solve] at hact
          cases hact
      | cons kv todo =>
          rw [solve] at hact
          cases hact
          refine ⟨Stage.write hjob h hloc _, ?_⟩
          rw [hloc, ahead, ahead, List.length_cons]
          omega
  | init hstore h =>
      rw [h w, solve] at hact
      cases hact
  | learn hstore h =>
      have hlearning := h w
      generalize hloc : st.loc w = l at hact hlearning
      cases hlearning with
      | done s hlearned =>
          rw [solve] at hact
          cases hact
      | learn s past todo r hsplit hlearned =>
          rw [solve] at hact
          cases hact
          have hr : r ∈ ratings job w := hsplit ▸ List.mem_append_right past List.mem_cons_self
          have hvalue := hjob.value_read hstore hr
          simp only [Servers.readOk_read, hvalue, Option.isSome_some, if_true,
            Servers.readVal_read, Option.getD_some, Servers.handle_read_snd]
          constructor
          · refine .learn hstore fun v => ?_
            dsimp only
            by_cases hv : v = w
            · subst hv
              rw [Function.update_self]
              apply ((hlearned.insert r.iid).learn r).settle
              rw [List.append_assoc]
              exact hsplit
            · rw [Function.update_of_ne hv]
              exact h v
          · have hle := ahead_settle job w
            rw [ahead]
            exact (hle _ todo).trans_lt (Nat.lt_succ_self _)

/-- A barrier. -/
theorem Stage.sync (hn : 0 < n) (h : Stage job getServer st) {loc : Fin n → Loc K d}
    (hact : ∀ w, solve job getServer w (st.loc w) = .sync (loc w)) :
    Stage job getServer { st with loc := loc } ∧
      ∀ v, ahead job v (loc v) < ahead job v (st.loc v) := by
  cases h with
  | load h =>
      have hnext : ∀ w, st.loc w = .load [] ∧ loc w = .init ∧
          ∀ kv ∈ writes job w, st.store.value getServer (ifactorKey kv.1) = some kv.2 := by
        intro w
        obtain ⟨sent, todo, hloc, hsplit, hsent⟩ := h w
        have hact := hact w
        rw [hloc] at hact
        cases todo with
        | nil =>
            rw [solve] at hact
            rw [List.append_nil] at hsplit
            exact ⟨hloc, (Spmd.Action.sync.inj hact).symm, hsplit ▸ hsent⟩
        | cons kv todo =>
            rw [solve] at hact
            cases hact
      refine ⟨.init ?_ fun w => (hnext w).2.1, fun w => ?_⟩
      · intro kv hkv
        exact (hnext ⟨0, hn⟩).2.2 kv hkv
      · rw [(hnext w).1, (hnext w).2.1, ahead, ahead]
        omega
  | init hstore h =>
      have hnext : ∀ w, loc w = settle job (Learner.start job w) (ratings job w) := by
        intro w
        have hact := hact w
        rw [h w, solve] at hact
        exact (Spmd.Action.sync.inj hact).symm
      refine ⟨.learn hstore fun w => ?_, fun w => ?_⟩
      · dsimp only
        rw [hnext w]
        exact (learned_start job w).settle (List.nil_append _)
      · rw [h w, hnext w, ahead]
        exact (ahead_settle job w _ _).trans_lt (Nat.lt_succ_self _)
  | learn hstore h =>
      have hact := hact ⟨0, hn⟩
      have hlearning := h ⟨0, hn⟩
      generalize st.loc ⟨0, hn⟩ = l at hact hlearning
      cases hlearning with
      | learn | done =>
          rw [solve] at hact
          cases hact

theorem solve_ne_allreduce {l : Loc K d} {v : Int} {next : Int → Loc K d} :
    solve job getServer w l ≠ .allreduce v next := by
  intro h
  cases l with
  | load todo => cases todo <;> cases h
  | learn s todo => cases todo <;> cases h
  | init | done | aborted => cases h

/-- One step. -/
theorem Stage.step (hn : 0 < n) (hjob : Complete job) {l : Spmd.Label n}
    (h : Stage job getServer st)
    (hstep : Spmd.step (solve job getServer) (Servers.handle lib) st l = some st') :
    Stage job getServer st' ∧
      ∑ v, ahead job v (st'.loc v) < ∑ v, ahead job v (st.loc v) := by
  cases Spmd.step_cases hstep with
  | call w op next hact =>
      obtain ⟨hstage, hfall⟩ := h.call lib hjob hact
      exact ⟨hstage, Spmd.sum_update_lt (ahead job) hfall⟩
  | sync loc hact =>
      obtain ⟨hstage, hfall⟩ := h.sync hn hact
      exact ⟨hstage, Finset.sum_lt_sum_of_nonempty ⟨⟨0, hn⟩, Finset.mem_univ _⟩
        fun w _ => hfall w⟩
  | allreduce v next hact => exact absurd (hact ⟨0, hn⟩) solve_ne_allreduce

/-- Where no worker can go on, all are through. -/
theorem Stage.done (h : Stage job getServer st)
    (hstuck : Stuck (Spmd.step (solve job getServer) (Servers.handle lib)) st) :
    ∀ w, ∃ s, st.loc w = .done s := by
  have hnot : ¬∀ w, (∃ op next, solve job getServer w (st.loc w) = .call op next) ∨
      ∃ l, solve job getServer w (st.loc w) = .sync l :=
    fun hall => Spmd.not_stuck_of_call_or_sync hall hstuck
  cases h with
  | load h =>
      refine absurd (fun w => ?_) hnot
      obtain ⟨sent, todo, hloc, -⟩ := h w
      rw [hloc]
      cases todo with
      | nil => exact .inr ⟨_, rfl⟩
      | cons kv todo => exact .inl ⟨_, _, rfl⟩
  | init hstore h =>
      refine absurd (fun w => ?_) hnot
      rw [h w]
      exact .inr ⟨_, rfl⟩
  | learn hstore h =>
      intro w
      have hlearning := h w
      generalize hloc : st.loc w = l at hlearning
      cases hlearning with
      | done s => exact ⟨s, rfl⟩
      | learn s past todo r =>
          have hnone := hstuck (.call w)
          rw [Spmd.step_of_call (by rw [hloc]; rfl)] at hnone
          cases hnone

/-- In every interleaving each user ends with the factor and the bias that stochastic gradient
    descent over its own ratings finds, in their order and `rounds` times, whatever was in
    `ifactor` meanwhile; and every run can be continued to that end. -/
theorem learning_descends (hn : 0 < n) (hjob : Complete job)
    (h : Reachable (Spmd.step (solve job getServer) (Servers.handle lib))
      (atStart job servers) st) :
    (∀ w s, st.loc w = .done s → ∀ uid, (s.ufactor uid, s.ubias uid) =
      descend job ((ratings job w).filter fun r => r.uid = uid)
        (job.ufactor w uid, job.ubias w uid)) ∧
    ∃ t, Reachable (Spmd.step (solve job getServer) (Servers.handle lib)) st t ∧
      ∀ w, ∃ s, t.loc w = .done s := by
  have hstage : Stage job getServer st := by
    apply h.invariant
    · apply Stage.load
      intro w
      exact ⟨[], writes job w, rfl, rfl, by simp⟩
    · intro s l s' hs hstep
      exact (hs.step hn hjob hstep).1
  constructor
  · intro w s hloc
    cases hstage with
    | load h =>
        obtain ⟨sent, todo, hloc', -⟩ := h w
        rw [hloc] at hloc'
        cases hloc'
    | init hstore h =>
        rw [h w] at hloc
        cases hloc
    | learn hstore h =>
        have hlearning := h w
        rw [hloc] at hlearning
        cases hlearning with
        | done _ hlearned => exact hlearned.users
  · obtain ⟨ls, t, hrun, ht, hstuck⟩ := exists_stuck
      (fun s : Spmd.State n (Loc K d) (SrvCall m (Vec K d)) _ => ∑ v, ahead job v (s.loc v))
      (fun s l s' hs hstep => Stage.step hn hjob hs hstep) hstage
    exact ⟨t, ⟨ls, hrun⟩, ht.done hstuck⟩

end Runs

/-! ### Two workers -/

/-- One user of the first worker and two of the second have rated two items, for two rounds. -/
def twoItems : Job Int 2 2 where
  rounds := 2
  alpha := 1
  beta := 1
  miu := 3
  ibias := fun _ => 0
  itemFactors := [(lit "i", fun k => k.val), (lit "j", fun _ => 1)]
  usrRatingLst := fun w =>
    if w.val = 0 then [(lit "a", [(lit "i", 4), (lit "j", 2)])]
    else [(lit "b", [(lit "j", 5)]), (lit "c", [(lit "i", 3), (lit "j", 1)])]
  ufactor := fun _ _ _ => 1
  ubias := fun _ _ => 0

/-- A library without functions of any use. -/
def noLib : Libs (Vec Int 2) :=
  { update := fun _ a _ => a, filter := fun _ _ _ => true }

theorem complete_twoItems : Complete twoItems where
  nodup := by decide
  rated := by
    have hall : ∀ w, ∀ iid ∈ (ratings twoItems w).map Rating.iid,
        iid ∈ twoItems.itemFactors.map Prod.fst := by
      decide
    exact fun w r hr => hall w _ (List.mem_map.mpr ⟨r, hr, rfl⟩)

theorem learning_descends_two : ∃ t s s',
    Reachable (Spmd.step (solve twoItems fun _ => (0 : Fin 1)) (Servers.handle noLib))
      (atStart twoItems fun _ => {}) t ∧ t.loc 0 = .done s ∧ t.loc 1 = .done s' ∧
      s.ubias (lit "a") = -7 ∧ s'.ubias (lit "b") = 2 ∧ s'.ubias (lit "c") = -2 := by
  have hstart : Reachable (Spmd.step (solve twoItems fun _ => (0 : Fin 1))
      (Servers.handle noLib)) (atStart twoItems fun _ => {}) _ := .refl _
  obtain ⟨-, t, ht, hdone⟩ := learning_descends (by decide) complete_twoItems hstart
  obtain ⟨s, hloc⟩ := hdone 0
  obtain ⟨s', hloc'⟩ := hdone 1
  obtain ⟨husers, -⟩ := learning_descends (by decide) complete_twoItems ht
  refine ⟨t, s, s', ht, hloc, hloc', ?_, ?_, ?_⟩
  · exact (congrArg Prod.snd (husers 0 s hloc (lit "a"))).trans (by decide)
  · exact (congrArg Prod.snd (husers 1 s' hloc' (lit "b"))).trans (by decide)
  · exact (congrArg Prod.snd (husers 1 s' hloc' (lit "c"))).trans (by decide)

end Paracel.Cbr
