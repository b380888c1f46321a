import Mathlib.Algebra.BigOperators.Group.Finset.Basic
import Mathlib.Algebra.Order.BigOperators.Group.Finset
import Mathlib.Algebra.Order.Ring.Int
import Mathlib.Data.Fintype.BigOperators
import Paracel.Misc.Run

/-!
# Workers with collective operations and a shared store

Each of `n` workers runs a deterministic program of its own. By its local state
a worker stops, calls the shared store and waits for the answer, or enters a
collective operation, which all workers leave together: a barrier, or the sum of
one number from each. A call takes effect in one step. What a worker does after
a collective operation begins with its next step, so a worker that is slow to
return from a barrier is one that has not taken that step yet.
-/

namespace Spmd

open StepSystem

/-- What a worker does next. -/
inductive Action (L O R : Type) where
  | halt
  | call (op : O) (next : R → L)
  | sync (next : L)
  | allreduce (v : Int) (next : Int → L)

/-- The local states, the store, and the calls in the order in which they took effect. -/
structure State (n : Nat) (L O S : Type) where
  loc : Fin n → L
  store : S
  log : List (Fin n × O) := []

/-- A worker performs its call, or all workers leave a collective operation. -/
inductive Label (n : Nat) where
  | call (w : Fin n)
  | sync
  | allreduce
deriving DecidableEq

variable {n : Nat} {L O R S : Type}

/-- Where the action goes on after a barrier. -/
def Action.afterSync : Action L O R → Option L
  | .sync next => some next
  | _ => none

/-- What the action adds to a sum, and where it goes on with the sum. -/
def Action.afterAllreduce : Action L O R → Option (Int × (Int → L))
  | .allreduce v next => some (v, next)
  | _ => none

/-- All the values, if every worker has one. -/
def gather {α : Type} (f : Fin n → Option α) : Option (Fin n → α) :=
  if h : ∀ w, (f w).isSome then some fun w => (f w).get (h w) else none

theorem gather_eq_some {α : Type} {f : Fin n → Option α} {g : Fin n → α} :
    gather f = some g ↔ ∀ w, f w = some (g w) := by
  unfold gather
  constructor
  · intro h
    split at h
    · cases h
      intro w
      exact (Option.some_get _).symm
    · cases h
  · intro h
    rw [dif_pos fun w => by rw [h w]; rfl]
    congr
    funext w
    exact Option.get_of_eq_some _ (h w)

/-- The step of a label; `sem` is what a call does to the store. -/
def step (act : Fin n → L → Action L O R) (sem : S → O → R × S) (st : State n L O S) :
    Label n → Option (State n L O S)
  | .call w =>
      match act w (st.loc w) with
      | .call op next =>
          let (r, store) := sem st.store op
          some {
            loc := Function.update st.loc w (next r)
            store := store
            log := st.log ++ [(w, op)] }
      | _ => none
  | .sync =>
      (gather fun w => (act w (st.loc w)).afterSync).map fun loc => { st with loc := loc }
  | .allreduce =>
      (gather fun w => (act w (st.loc w)).afterAllreduce).map fun next =>
        { st with loc := fun w => (next w).2 (∑ w, (next w).1) }

/-- What a step does, by the action of the workers. -/
inductive Change (act : Fin n → L → Action L O R) (sem : S → O → R × S) (st : State n L O S) :
    State n L O S → Prop where
  | call (w : Fin n) (op : O) (next : R → L) (hact : act w (st.loc w) = .call op next) :
      Change act sem st {
        loc := Function.update st.loc w (next (sem st.store op).1)
        store := (sem st.store op).2
        log := st.log ++ [(w, op)] }
  | sync (loc : Fin n → L) (hact : ∀ w, act w (st.loc w) = .sync (loc w)) :
      Change act sem st { st with loc := loc }
  | allreduce (v : Fin n → Int) (next : Fin n → Int → L)
      (hact : ∀ w, act w (st.loc w) = .allreduce (v w) (next w)) :
      Change act sem st { st with loc := fun w => next w (∑ w, v w) }

variable {act : Fin n → L → Action L O R} {sem : S → O → R × S} {st st' : State n L O S}

theorem step_cases {l : Label n} (h : step act sem st l = some st') : Change act sem st st' := by
  cases l with
  | call w =>
      cases hact : act w (st.loc w) with
      | call op next =>
          simp only [step, hact, Option.some.injEq] at h
          subst h
          exact .call w op next hact
      | halt | sync | allreduce => simp [step, hact] at h
  | sync =>
      rcases Option.map_eq_some_iff.mp h with ⟨loc, hloc, rfl⟩
      apply Change.sync
      intro w
      have hw := gather_eq_some.mp hloc w
      cases hact : act w (st.loc w) with
      | sync next =>
          rw [hact] at hw
          cases hw
          rfl
      | halt | call | allreduce => simp [hact, Action.afterSync] at hw
  | allreduce =>
      rcases Option.map_eq_some_iff.mp h with ⟨next, hnext, rfl⟩
      apply Change.allreduce (fun w => (next w).1) (fun w => (next w).2)
      intro w
      have hw := gather_eq_some.mp hnext w
      cases hact : act w (st.loc w) with
      | allreduce v f =>
          rw [hact] at hw
          simp only [Action.afterAllreduce, Option.some.injEq] at hw
          rw [← hw]
      | halt | call | sync => simp [hact, Action.afterAllreduce] at hw

theorem step_of_call {w : Fin n} {op : O} {next : R → L}
    (h : act w (st.loc w) = .call op next) : step act sem st (.call w) = some {
      loc := Function.update st.loc w (next (sem st.store op).1)
      store := (sem st.store op).2
      log := st.log ++ [(w, op)] } := by
  simp only [step, h]

theorem step_of_sync {loc : Fin n → L} (h : ∀ w, act w (st.loc w) = .sync (loc w)) :
    step act sem st .sync = some { st with loc := loc } := by
  have hgather : (gather fun w => (act w (st.loc w)).afterSync) = some loc :=
    gather_eq_some.mpr fun w => by rw [h w, Action.afterSync]
  rw [step, hgather, Option.map_some]

theorem step_of_allreduce {v : Fin n → Int} {next : Fin n → Int → L}
    (h : ∀ w, act w (st.loc w) = .allreduce (v w) (next w)) :
    step act sem st .allreduce = some { st with loc := fun w => next w (∑ w, v w) } := by
  have hgather : (gather fun w => (act w (st.loc w)).afterAllreduce) =
      some fun w => (v w, next w) :=
    gather_eq_some.mpr fun w => by rw [h w, Action.afterAllreduce]
  rw [step, hgather, Option.map_some]

theorem stuck_of_halt (hn : 0 < n) (h : ∀ w, act w (st.loc w) = .halt) :
    Stuck (step act sem) st := by
  intro l
  cases l with
  | call w => simp only [step, h w]
  | sync =>
      have hgather : (gather fun w => (act w (st.loc w)).afterSync) = none := by
        rw [gather, dif_neg fun hall => by simpa [h, Action.afterSync] using hall ⟨0, hn⟩]
      rw [step, hgather, Option.map_none]
  | allreduce =>
      have hgather : (gather fun w => (act w (st.loc w)).afterAllreduce) = none := by
        rw [gather, dif_neg fun hall => by simpa [h, Action.afterAllreduce] using hall ⟨0, hn⟩]
      rw [step, hgather, Option.map_none]

/-- Workers that all make calls or wait at a barrier can go on. -/
theorem not_stuck_of_call_or_sync (h : ∀ w, (∃ op next, act w (st.loc w) = .call op next) ∨
    ∃ l, act w (st.loc w) = .sync l) : ¬Stuck (step act sem) st := by
  intro hstuck
  by_cases hcall : ∃ w op next, act w (st.loc w) = .call op next
  · obtain ⟨w, op, next, hact⟩ := hcall
    have hnone := hstuck (.call w)
    rw [step_of_call hact] at hnone
    cases hnone
  · have hsync : ∀ w, ∃ l, act w (st.loc w) = .sync l := by
      intro w
      rcases h w with ⟨op, next, hact⟩ | hact
      · exact absurd ⟨w, op, next, hact⟩ hcall
      · exact hact
    choose loc hloc using hsync
    have hnone := hstuck .sync
    rw [step_of_sync hloc] at hnone
    cases hnone

/-- Flags that add up to the number of workers are all 1. -/
theorem flags_of_sum {f : Fin n → Int} (h : ∀ w, f w = 0 ∨ f w = 1) (hsum : ∑ w, f w = n) :
    ∀ w, f w = 1 := by
  by_contra hnot
  rw [not_forall] at hnot
  rcases hnot with ⟨w, hw⟩
  have hlt : ∑ w, f w < ∑ _w : Fin n, (1 : Int) := by
    apply Finset.sum_lt_sum
    · intro x _
      rcases h x with hx | hx <;> omega
    · refine ⟨w, Finset.mem_univ w, ?_⟩
      rcases h w with hx | hx <;> omega
  rw [hsum, Finset.sum_const, Finset.card_fin, nsmul_one] at hlt
  exact absurd hlt (lt_irrefl _)

/-! ### What a run does to the store -/

/-- The store after the calls, one after another. -/
def replay (sem : S → O → R × S) (store : S) (ops : List O) : S :=
  ops.foldl (fun store op => (sem store op).2) store

@[simp] theorem replay_nil (store : S) : replay sem store [] = store := rfl

@[simp] theorem replay_append (store : S) (ops ops' : List O) :
    replay sem store (ops ++ ops') = replay sem (replay sem store ops) ops' :=
  List.foldl_append

@[simp] theorem replay_cons (store : S) (op : O) (ops : List O) :
    replay sem store (op :: ops) = replay sem (sem store op).2 ops := rfl

/-- The calls of worker `w` in a log. -/
def callsOf (w : Fin n) (log : List (Fin n × O)) : List O :=
  (log.filter fun e => e.1 = w).map Prod.snd

@[simp] theorem callsOf_nil (w : Fin n) : callsOf w ([] : List (Fin n × O)) = [] := rfl

theorem callsOf_cons (w w' : Fin n) (op : O) (log : List (Fin n × O)) :
    callsOf w ((w', op) :: log) = if w' = w then op :: callsOf w log else callsOf w log := by
  unfold callsOf
  by_cases h : w' = w <;> simp [h]

theorem callsOf_concat (w w' : Fin n) (op : O) (log : List (Fin n × O)) :
    callsOf w (log ++ [(w', op)]) = if w' = w then callsOf w log ++ [op] else callsOf w log := by
  unfold callsOf
  by_cases h : w' = w <;> simp [List.filter_append, h]

/-- The log has the calls of the workers, in some order. -/
theorem log_perm (log : List (Fin n × O)) :
    (log.map Prod.snd).Perm ((List.finRange n).flatMap fun w => callsOf w log) := by
  induction log with
  | nil => simp
  | cons e log ih =>
      rcases e with ⟨w, op⟩
      have hmove : ∀ ws : List (Fin n), ws.Nodup → w ∈ ws →
          (ws.flatMap fun w' => callsOf w' ((w, op) :: log)).Perm
            (op :: ws.flatMap fun w' => callsOf w' log) := by
        intro ws hws hmem
        induction ws with
        | nil => cases hmem
        | cons x ws ih =>
            rw [List.nodup_cons] at hws
            rw [List.flatMap_cons, List.flatMap_cons]
            by_cases hx : x = w
            · subst hx
              have hrest : (ws.flatMap fun w' => callsOf w' ((x, op) :: log)) =
                  ws.flatMap fun w' => callsOf w' log := by
                apply List.flatMap_congr
                intro y hy
                rw [callsOf_cons, if_neg fun h : x = y => hws.1 (h ▸ hy)]
              rw [hrest, callsOf_cons, if_pos rfl]
              rfl
            · have htail := ih hws.2 ((List.mem_cons.mp hmem).resolve_left (Ne.symm hx))
              rw [callsOf_cons, if_neg (Ne.symm hx)]
              exact (htail.append_left _).trans List.perm_middle
      rw [List.map_cons]
      exact (ih.cons op).trans (hmove _ (List.nodup_finRange n) (List.mem_finRange w)).symm

/-- The store is what the calls in the log make of the first one. -/
theorem store_eq_replay {init : State n L O S} (hlog : init.log = [])
    (h : Reachable (step act sem) init st) :
    st.store = replay sem init.store (st.log.map Prod.snd) := by
  apply h.invariant (P := fun st => st.store = replay sem init.store (st.log.map Prod.snd))
  · rw [hlog]
    rfl
  · intro s l s' ih hstep
    cases step_cases hstep with
    | call w op next hact => simp [← ih]
    | sync loc hact => exact ih
    | allreduce v next hact => exact ih

/-! ### Induction rules -/

/-- What every action of a worker keeps of its local state and its own calls. -/
theorem local_invariant {init : State n L O S} (hlog : init.log = [])
    {P : Fin n → L → List O → Prop} (hinit : ∀ w, P w (init.loc w) [])
    (hcall : ∀ w l ops op next r, P w l ops → act w l = .call op next → P w (next r) (ops ++ [op]))
    (hsync : ∀ w l ops next, P w l ops → act w l = .sync next → P w next ops)
    (hreduce : ∀ w l ops v next sum, P w l ops → act w l = .allreduce v next → P w (next sum) ops)
    (h : Reachable (step act sem) init st) : ∀ w, P w (st.loc w) (callsOf w st.log) := by
  apply h.invariant (P := fun st => ∀ w, P w (st.loc w) (callsOf w st.log))
  · intro w
    rw [hlog]
    exact hinit w
  · intro s l s' ih hstep w
    cases step_cases hstep with
    | call w' op next hact =>
        simp only [callsOf_concat]
        by_cases hw : w' = w
        · subst hw
          rw [Function.update_self, if_pos rfl]
          exact hcall w' _ _ op next _ (ih w') hact
        · rw [Function.update_of_ne (Ne.symm hw), if_neg hw]
          exact ih w
    | sync loc hact => exact hsync w _ _ _ (ih w) (hact w)
    | allreduce v next hact => exact hreduce w _ _ _ _ _ (ih w) (hact w)

/-- What only collective operations change, and change in one way, is the same on all workers. -/
theorem agree {K : Type} (kind : L → K) {init : State n L O S}
    (hinit : ∀ w w', kind (init.loc w) = kind (init.loc w'))
    (hcall : ∀ w l op next r, act w l = .call op next → kind (next r) = kind l)
    (hsync : ∀ w w' l l' next next', kind l = kind l' → act w l = .sync next →
      act w' l' = .sync next' → kind next = kind next')
    (hreduce : ∀ w w' l l' v v' next next' sum, kind l = kind l' → act w l = .allreduce v next →
      act w' l' = .allreduce v' next' → kind (next sum) = kind (next' sum))
    (h : Reachable (step act sem) init st) : ∀ w w', kind (st.loc w) = kind (st.loc w') := by
  apply h.invariant (P := fun st => ∀ w w', kind (st.loc w) = kind (st.loc w')) hinit
  intro s l s' ih hstep w w'
  cases step_cases hstep with
  | call x op next hact =>
      have hkeep : ∀ y, kind (Function.update s.loc x (next (sem s.store op).1) y) =
          kind (s.loc y) := by
        intro y
        by_cases hy : y = x
        · subst hy
          rw [Function.update_self]
          exact hcall y _ op next _ hact
        · rw [Function.update_of_ne hy]
      show kind (Function.update s.loc x _ w) = kind (Function.update s.loc x _ w')
      rw [hkeep, hkeep]
      exact ih w w'
  | sync loc hact => exact hsync w w' _ _ _ _ (ih w w') (hact w) (hact w')
  | allreduce v next hact => exact hreduce w w' _ _ _ _ _ _ _ (ih w w') (hact w) (hact w')

/-! ### Straight-line programs -/

/-- A program of calls in segments, with a barrier after each segment but the last. -/
def straight : List (List O) → Action (List (List O)) O R
  | (op :: ops) :: segs => .call op fun _ => ops :: segs
  | [] :: seg :: segs => .sync (seg :: segs)
  | [[]] | [] => .halt

theorem straight_call {l : List (List O)} {op : O} {next : R → List (List O)}
    (h : straight l = .call op next) :
    ∃ ops segs, l = (op :: ops) :: segs ∧ next = fun _ => ops :: segs := by
  rcases l with - | ⟨- | ⟨op', ops⟩, - | ⟨seg, segs⟩⟩ <;> cases h <;> exact ⟨_, _, rfl, rfl⟩

theorem straight_sync {l next : List (List O)} (h : straight (R := R) l = .sync next) :
    l = [] :: next := by
  rcases l with - | ⟨- | ⟨op, ops⟩, - | ⟨seg, segs⟩⟩ <;> cases h
  rfl

theorem straight_ne_allreduce {l : List (List O)} {v : Int} {next : Int → List (List O)} :
    straight (R := R) l ≠ .allreduce v next := by
  intro h
  rcases l with - | ⟨- | ⟨op, ops⟩, - | ⟨seg, segs⟩⟩ <;> cases h

variable {prog : Fin n → List (List O)} {store : S}

/-- The workers have gone through equally many barriers. -/
theorem straight_agree {st : State n (List (List O)) O S}
    (hlen : ∀ w w', (prog w).length = (prog w').length)
    (h : Reachable (step (fun _ => straight) sem) { loc := prog, store := store } st) :
    ∀ w w', (st.loc w).length = (st.loc w').length := by
  apply agree List.length hlen (h := h)
  · intro w l op next r hact
    rcases straight_call hact with ⟨ops, segs, rfl, rfl⟩
    rfl
  · intro w w' l l' next next' hl hact hact'
    rw [straight_sync hact, straight_sync hact'] at hl
    simpa using hl
  · intro w w' l l' v v' next next' sum hl hact
    exact absurd hact straight_ne_allreduce

/-- The workers have gone through equally many barriers, also where their programs do not have
    equally many. -/
theorem straight_passed_agree {st : State n (List (List O)) O S}
    (h : Reachable (step (fun _ => straight) sem) { loc := prog, store := store } st) :
    ∀ w w', (st.loc w).length + (prog w').length = (st.loc w').length + (prog w).length := by
  apply h.invariant (P := fun st => ∀ w w',
    (st.loc w).length + (prog w').length = (st.loc w').length + (prog w).length)
  · intro w w'
    exact Nat.add_comm _ _
  · intro s l s' ih hstep w w'
    cases step_cases hstep with
    | call x op next hact =>
        obtain ⟨ops, segs, hl, rfl⟩ := straight_call hact
        have hkeep : ∀ y, (Function.update s.loc x (ops :: segs) y).length =
            (s.loc y).length := by
          intro y
          by_cases hy : y = x
          · subst hy
            rw [Function.update_self, hl]
            rfl
          · rw [Function.update_of_ne hy]
        show (Function.update s.loc x _ w).length + _ = (Function.update s.loc x _ w').length + _
        rw [hkeep, hkeep]
        exact ih w w'
    | sync loc hact =>
        have hw := ih w w'
        rw [straight_sync (hact w), straight_sync (hact w'), List.length_cons,
          List.length_cons] at hw
        show (loc w).length + _ = (loc w').length + _
        omega
    | allreduce v next hact => exact absurd (hact w) straight_ne_allreduce

/-- The last segment of a program stays. -/
theorem straight_ne_nil {st : State n (List (List O)) O S} (hne : ∀ w, prog w ≠ [])
    (h : Reachable (step (fun _ => straight) sem) { loc := prog, store := store } st) :
    ∀ w, st.loc w ≠ [] := by
  apply local_invariant (P := fun _ l _ => l ≠ []) (h := h) rfl hne
  · intro w l ops op next r _ hact
    obtain ⟨ops', segs, -, rfl⟩ := straight_call hact
    exact List.cons_ne_nil _ _
  · intro w l ops next _ hact
    rcases l with - | ⟨- | ⟨op, ops'⟩, - | ⟨seg, segs⟩⟩ <;> cases hact
    exact List.cons_ne_nil _ _
  · intro w l ops v next sum _ hact
    exact absurd hact straight_ne_allreduce

/-- What can be left of a program that ends with `k` segments without calls. -/
def Trailing (k : Nat) (l : List (List O)) : Prop :=
  (∃ p, p ≠ [] ∧ l = p ++ List.replicate k []) ∨ ∃ j, l = List.replicate j []

theorem Trailing.of_append (k : Nat) (pre : List (List O)) :
    Trailing k (pre ++ List.replicate k []) := by
  by_cases hpre : pre = []
  · exact .inr ⟨k, by rw [hpre, List.nil_append]⟩
  · exact .inl ⟨pre, hpre, rfl⟩

theorem Trailing.call {k : Nat} {op : O} {ops : List O} {segs : List (List O)}
    (h : Trailing k ((op :: ops) :: segs)) : Trailing k (ops :: segs) := by
  rcases h with ⟨p, hp, hl⟩ | ⟨j, hl⟩
  · cases p with
    | nil => exact absurd rfl hp
    | cons seg p =>
        rw [List.cons_append, List.cons.injEq] at hl
        exact .inl ⟨ops :: p, List.cons_ne_nil _ _, by rw [hl.2]; rfl⟩
  · cases j <;> cases hl

theorem Trailing.sync {k : Nat} {seg : List O} {segs : List (List O)}
    (h : Trailing k (seg :: segs)) : Trailing k segs := by
  rcases h with ⟨p, hp, hl⟩ | ⟨j, hl⟩
  · cases p with
    | nil => exact absurd rfl hp
    | cons seg' p =>
        rw [List.cons_append, List.cons.injEq] at hl
        exact hl.2 ▸ Trailing.of_append k p
  · cases j with
    | zero => cases hl
    | succ j =>
        rw [List.replicate_succ, List.cons.injEq] at hl
        exact .inr ⟨j, hl.2⟩

theorem Trailing.flatten_nil {k : Nat} {l : List (List O)} (h : Trailing k l)
    (hshort : l.length ≤ k) : l.flatten = [] := by
  rcases h with ⟨p, hp, hl⟩ | ⟨j, hl⟩
  · have hpos := List.length_pos_of_ne_nil hp
    rw [hl, List.length_append, List.length_replicate] at hshort
    omega
  · rw [hl, List.flatten_replicate_nil]

/-- Past a barrier that no calls follow, every worker has made all its calls. -/
theorem straight_passed {st : State n (List (List O)) O S} {pre : Fin n → List (List O)}
    {k : Nat} (hprog : ∀ w, prog w = pre w ++ List.replicate k [])
    (hlen : ∀ w w', (pre w).length = (pre w').length)
    (h : Reachable (step (fun _ => straight) sem) { loc := prog, store := store } st)
    (hpast : ∃ w, (st.loc w).length ≤ k) : ∀ w, callsOf w st.log = (prog w).flatten := by
  have hagree := straight_agree (fun w w' => by simp [hprog, hlen w w']) h
  -- what is left, with what was called, is the program; empty segments stay last
  have hlocal := local_invariant (h := h) rfl
    (P := fun w l ops => ops ++ l.flatten = (prog w).flatten ∧ Trailing k l)
    (by
      intro w
      refine ⟨rfl, ?_⟩
      show Trailing k (prog w)
      rw [hprog w]
      exact Trailing.of_append k (pre w))
    (by
      intro w l ops op next r hP hact
      rcases straight_call hact with ⟨ops', segs, rfl, rfl⟩
      exact ⟨by simpa using hP.1, hP.2.call⟩)
    (by
      intro w l ops next hP hact
      have hl := straight_sync hact
      subst hl
      exact ⟨by simpa using hP.1, hP.2.sync⟩)
    (by
      intro w l ops v next sum hP hact
      exact absurd hact straight_ne_allreduce)
  intro w
  rcases hpast with ⟨x, hx⟩
  have hshort : (st.loc w).length ≤ k := by rwa [hagree w x]
  have hall := (hlocal w).1
  rwa [(hlocal w).2.flatten_nil hshort, List.append_nil] at hall

/-- A worker that cannot go on has made all its calls, or waits for the others. -/
theorem straight_stuck {st : State n (List (List O)) O S}
    (hagree : ∀ w w', (st.loc w).length = (st.loc w').length)
    (hstuck : Stuck (step (fun _ => straight) sem) st) (w : Fin n) :
    (st.loc w).flatten = [] ∧ (st.loc w).length ≤ 1 := by
  have hcall : ∀ w, (∃ segs, st.loc w = [] :: segs) ∨ st.loc w = [] := by
    intro w
    rcases hl : st.loc w with - | ⟨- | ⟨op, ops⟩, segs⟩
    · exact .inr rfl
    · exact .inl ⟨segs, rfl⟩
    · have hact : straight (R := R) (st.loc w) = .call op fun _ => ops :: segs := by
        rw [hl, straight]
      have hnone := hstuck (.call w)
      rw [step_of_call hact] at hnone
      cases hnone
  have hlast : (st.loc w).length ≤ 1 := by
    by_contra hlong
    have hsync : ∀ x, straight (R := R) (st.loc x) = .sync (st.loc x).tail := by
      intro x
      have hx : 1 < (st.loc x).length := by
        rw [hagree x w]
        omega
      rcases hcall x with ⟨- | ⟨seg, segs⟩, hl⟩ | hl <;> rw [hl] at hx ⊢
      · exact absurd hx (by simp)
      · rfl
      · exact absurd hx (by simp)
    have hnone := hstuck .sync
    rw [step_of_sync hsync] at hnone
    cases hnone
  refine ⟨?_, hlast⟩
  rcases hcall w with ⟨segs, hl⟩ | hl
  · rw [hl] at hlast ⊢
    cases segs with
    | nil => rfl
    | cons seg segs => simp at hlast
  · rw [hl]
    rfl

/-- A sum over the workers falls with the summand of one of them. -/
theorem sum_update_lt {L : Type} (f : Fin n → L → Nat) {loc : Fin n → L} {w : Fin n} {l : L}
    (h : f w l < f w (loc w)) :
    ∑ x, f x (Function.update loc w l x) < ∑ x, f x (loc x) := by
  apply Finset.sum_lt_sum
  · intro x _
    by_cases hx : x = w
    · subst hx
      rw [Function.update_self]
      exact h.le
    · rw [Function.update_of_ne hx]
  · exact ⟨w, Finset.mem_univ w, by rwa [Function.update_self]⟩

/-- The calls and barriers that are left. -/
def remaining (st : State n (List (List O)) O S) : Nat :=
  ∑ w, ((st.loc w).flatten.length + (st.loc w).length)

theorem remaining_lt {st st' : State n (List (List O)) O S} {l : Label n} (hn : 0 < n)
    (h : step (fun _ => straight) sem st l = some st') : remaining st' < remaining st := by
  unfold remaining
  cases step_cases h with
  | call w op next hact =>
      rcases straight_call hact with ⟨ops, segs, hl, rfl⟩
      apply sum_update_lt fun _ (l : List (List O)) => l.flatten.length + l.length
      simp [hl]
  | sync loc hact =>
      apply Finset.sum_lt_sum_of_nonempty ⟨⟨0, hn⟩, Finset.mem_univ _⟩
      intro w _
      rw [straight_sync (hact w)]
      simp
  | allreduce v next hact => exact absurd (hact ⟨0, hn⟩) straight_ne_allreduce

/-- Every run can be continued until nothing more happens. -/
theorem straight_exists_stuck (sem : S → O → R × S) (st : State n (List (List O)) O S)
    (hn : 0 < n) :
    ∃ t, Reachable (step (fun _ => straight) sem) st t ∧
      Stuck (step (fun _ => straight) sem) t := by
  have hstep : ∀ (s : State n (List (List O)) O S) l s', True →
      step (fun _ => straight) sem s l = some s' → True ∧ remaining s' < remaining s :=
    fun _ _ _ _ hstep => ⟨trivial, remaining_lt hn hstep⟩
  obtain ⟨ls, t, hrun, -, hstuck⟩ := exists_stuck remaining hstep (s := st) trivial
  exact ⟨t, ⟨ls, hrun⟩, hstuck⟩

/-- If no run leaves a worker waiting in a barrier, the programs have equally many. -/
theorem straight_length_eq (hn : 0 < n) (hne : ∀ w, prog w ≠ [])
    (h : ∀ st, Reachable (step (fun _ => straight) sem) { loc := prog, store := store } st →
      Stuck (step (fun _ => straight) sem) st → ∀ w, straight (R := R) (st.loc w) = .halt) :
    ∀ w w', (prog w).length = (prog w').length := by
  obtain ⟨t, hreach, hstuck⟩ := straight_exists_stuck sem { loc := prog, store := store } hn
  have hlast : ∀ w, (t.loc w).length = 1 := by
    intro w
    have hhalt := h t hreach hstuck w
    have hpos := straight_ne_nil hne hreach w
    rcases hl : t.loc w with - | ⟨- | ⟨op, ops⟩, - | ⟨seg, segs⟩⟩ <;> rw [hl] at hhalt hpos
    · exact absurd rfl hpos
    · rfl
    · cases hhalt
    · cases hhalt
    · cases hhalt
  intro w w'
  have hpassed := straight_passed_agree hreach w w'
  rw [hlast, hlast] at hpassed
  omega

/-- Programs with equally many barriers leave no worker waiting. -/
theorem straight_halts_of_stuck {st : State n (List (List O)) O S}
    (hlen : ∀ w w', (prog w).length = (prog w').length)
    (h : Reachable (step (fun _ => straight) sem) { loc := prog, store := store } st)
    (hstuck : Stuck (step (fun _ => straight) sem) st) (w : Fin n) :
    straight (R := R) (st.loc w) = .halt := by
  obtain ⟨hflat, hshort⟩ := straight_stuck (straight_agree hlen h) hstuck w
  rcases hl : st.loc w with - | ⟨- | ⟨op, ops⟩, - | ⟨seg, segs⟩⟩
  · rfl
  · rfl
  · rw [hl] at hshort
    simp at hshort
  · rw [hl] at hflat
    simp at hflat
  · rw [hl] at hflat
    simp at hflat

/-- Every run can be continued until all workers are through. -/
theorem straight_complete {st : State n (List (List O)) O S} (hn : 0 < n)
    (hlen : ∀ w w', (prog w).length = (prog w').length)
    (h : Reachable (step (fun _ => straight) sem) { loc := prog, store := store } st) :
    ∃ t, Reachable (step (fun _ => straight) sem) st t ∧
      ∀ w, (t.loc w).flatten = [] ∧ (t.loc w).length ≤ 1 := by
  have hstep : ∀ s l s',
      Reachable (step (fun _ => straight) sem) { loc := prog, store := store } s →
      step (fun _ => straight) sem s l = some s' →
      Reachable (step (fun _ => straight) sem) { loc := prog, store := store } s' ∧
        remaining s' < remaining s :=
    fun s l s' hs hstep => ⟨hs.tail hstep, remaining_lt hn hstep⟩
  rcases exists_stuck remaining hstep h with ⟨ls, t, hrun, ht, hstuck⟩
  exact ⟨t, ⟨ls, hrun⟩, straight_stuck (straight_agree hlen ht) hstuck⟩

end Spmd
