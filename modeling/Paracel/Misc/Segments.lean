import Mathlib.Logic.Relation
import Paracel.Misc.Spmd

/-!
# Programs in segments

Workers that share a store and meet in collective operations, where the calls
that a worker makes between two of these are fixed when the first is left. The
calls of a segment take effect one at a time, in any order that keeps each
worker's own. Against this machine stands one that performs a segment of all
workers at once: the states of the first are those that lie within a segment of
a run of the second, so what a program computes is a matter of its segments.
-/

namespace Segments

open StepSystem Spmd

/-- By its local state a worker has a list of calls to make. With the replies it enters a
    collective operation, to which it contributes, or stops; the contributions of all say
    where it goes on. -/
structure Program (n : Nat) (L O R C : Type) where
  calls : Fin n → L → List O
  meet : Fin n → L → List R → Option C
  next : Fin n → L → List R → (Fin n → C) → L
  /-- Which operation a contribution is for; all workers must have entered the same. -/
  kind : C → Nat

/-- A worker within a segment: where it began, the replies so far and the calls to come. -/
structure Worker (L O R : Type) where
  base : L
  got : List R := []
  todo : List O

/-- The workers and the store. -/
structure State (n : Nat) (L O R S : Type) where
  loc : Fin n → Worker L O R
  store : S

/-- A worker performs its next call, or all leave a collective operation. -/
inductive Label (n : Nat) where
  | call (w : Fin n)
  | meet
deriving DecidableEq

variable {n : Nat} {L O R C S : Type}

/-- A worker at the start of a segment. -/
def Program.enter (prog : Program n L O R C) (w : Fin n) (l : L) : Worker L O R where
  base := l
  todo := prog.calls w l

/-- What a worker that has made its calls contributes, if it enters an operation. -/
def Program.gives (prog : Program n L O R C) (w : Fin n) (x : Worker L O R) : Option C :=
  if x.todo.isEmpty then prog.meet w x.base x.got else none

/-- The contributions are for one operation. -/
def Program.Matched (prog : Program n L O R C) (c : Fin n → C) : Prop :=
  ∀ w w', prog.kind (c w) = prog.kind (c w')

instance instDecidableMatched (prog : Program n L O R C) (c : Fin n → C) :
    Decidable (prog.Matched c) :=
  inferInstanceAs (Decidable (∀ w w', prog.kind (c w) = prog.kind (c w')))

/-- A worker after a call with reply `r`. -/
def Worker.answer (x : Worker L O R) (todo : List O) (r : R) : Worker L O R :=
  { x with got := x.got ++ [r], todo := todo }

/-- After the next call of worker `w`. -/
def State.call (sem : S → O → R × S) (st : State n L O R S) (w : Fin n) (op : O)
    (todo : List O) : State n L O R S where
  loc := Function.update st.loc w ((st.loc w).answer todo (sem st.store op).1)
  store := (sem st.store op).2

/-- After a collective operation with the contributions `c`. -/
def State.pass (prog : Program n L O R C) (st : State n L O R S) (c : Fin n → C) :
    State n L O R S :=
  { st with loc := fun w => prog.enter w (prog.next w (st.loc w).base (st.loc w).got c) }

/-- The step of a label; `sem` is what a call does to the store. -/
def step (prog : Program n L O R C) (sem : S → O → R × S) (st : State n L O R S) :
    Label n → Option (State n L O R S)
  | .call w =>
      match (st.loc w).todo with
      | [] => none
      | op :: todo => some (st.call sem w op todo)
  | .meet =>
      (gather fun w => prog.gives w (st.loc w)).bind fun c =>
        if prog.Matched c then some (st.pass prog c) else none

/-- The replies that a worker has got in its segment let it go on. -/
def Worker.goes (ok : R → Bool) (x : Worker L O R) : Bool :=
  x.got.all ok

/-- The step of a label where a worker ends at a reply that is not `ok`. It makes no more calls,
    and as it does not come to the operation that ends its segment, nobody leaves that. -/
def checked (ok : R → Bool) (prog : Program n L O R C) (sem : S → O → R × S)
    (st : State n L O R S) : Label n → Option (State n L O R S)
  | .call w => if (st.loc w).goes ok then step prog sem st (.call w) else none
  | .meet => if ∀ w, (st.loc w).goes ok then step prog sem st .meet else none

/-- The local states at the start of a segment, and the store. -/
structure Config (n : Nat) (L S : Type) where
  loc : Fin n → L
  store : S

/-- The machine at the start of a segment. -/
def start (prog : Program n L O R C) (cfg : Config n L S) : State n L O R S where
  loc := fun w => prog.enter w (cfg.loc w)
  store := cfg.store

/-- No worker can go on: each has made its calls and stopped. -/
def Halted (prog : Program n L O R C) (st : State n L O R S) : Prop :=
  ∀ w, (st.loc w).todo = [] ∧ prog.meet w (st.loc w).base (st.loc w).got = none

/-! ### Whole segments -/

/-- The replies that worker `w` gets while the calls of a log take effect. -/
def repliesOf (sem : S → O → R × S) (w : Fin n) : S → List (Fin n × O) → List R
  | _, [] => []
  | s, e :: log =>
      if e.1 = w then (sem s e.2).1 :: repliesOf sem w (sem s e.2).2 log
      else repliesOf sem w (sem s e.2).2 log

/-- A log has the calls that the workers make from the configuration. -/
def Config.Logs (prog : Program n L O R C) (cfg : Config n L S) (log : List (Fin n × O)) : Prop :=
  ∀ w, callsOf w log = prog.calls w (cfg.loc w)

/-- The store after the calls of a log. -/
def Config.after (sem : S → O → R × S) (cfg : Config n L S) (log : List (Fin n × O)) : S :=
  replay sem cfg.store (log.map Prod.snd)

/-- What a worker contributes after the calls of a log. -/
def Config.offer (prog : Program n L O R C) (sem : S → O → R × S) (cfg : Config n L S)
    (log : List (Fin n × O)) (w : Fin n) : Option C :=
  prog.meet w (cfg.loc w) (repliesOf sem w cfg.store log)

/-- One segment of all workers, with the calls in the order of a log. -/
structure Segment (prog : Program n L O R C) (sem : S → O → R × S) (cfg : Config n L S)
    (log : List (Fin n × O)) (c : Fin n → C) (cfg' : Config n L S) : Prop where
  logs : cfg.Logs prog log
  offers : ∀ w, cfg.offer prog sem log w = some (c w)
  matched : prog.Matched c
  loc : ∀ w, cfg'.loc w = prog.next w (cfg.loc w) (repliesOf sem w cfg.store log) c
  store : cfg'.store = cfg.after sem log

/-- One segment leads from a configuration to another. -/
def Leads (prog : Program n L O R C) (sem : S → O → R × S) (cfg cfg' : Config n L S) : Prop :=
  ∃ log c, Segment prog sem cfg log c cfg'

/-- The configurations that segments lead to. -/
abbrev Visits (prog : Program n L O R C) (sem : S → O → R × S) :
    Config n L S → Config n L S → Prop :=
  Relation.ReflTransGen (Leads prog sem)

/-- The machine is in the segment that starts from `cfg`, after the calls of `log`. -/
structure Within (prog : Program n L O R C) (sem : S → O → R × S) (cfg : Config n L S)
    (log : List (Fin n × O)) (st : State n L O R S) : Prop where
  base : ∀ w, (st.loc w).base = cfg.loc w
  todo : ∀ w, callsOf w log ++ (st.loc w).todo = prog.calls w (cfg.loc w)
  got : ∀ w, (st.loc w).got = repliesOf sem w cfg.store log
  store : st.store = cfg.after sem log

variable {prog : Program n L O R C} {sem : S → O → R × S} {cfg cfg' init : Config n L S}
  {log : List (Fin n × O)} {st st' : State n L O R S}

theorem callsOf_append (w : Fin n) (log log' : List (Fin n × O)) :
    callsOf w (log ++ log') = callsOf w log ++ callsOf w log' := by
  rw [callsOf, List.filter_append, List.map_append]
  rfl

theorem mem_of_mem_callsOf {w : Fin n} {op : O} (h : op ∈ callsOf w log) : (w, op) ∈ log := by
  obtain ⟨e, he, rfl⟩ := List.mem_map.mp h
  obtain ⟨he, hew⟩ := List.mem_filter.mp he
  rw [← of_decide_eq_true hew]
  exact he

theorem repliesOf_append (w : Fin n) (s : S) (log log' : List (Fin n × O)) :
    repliesOf sem w s (log ++ log') =
      repliesOf sem w s log ++ repliesOf sem w (replay sem s (log.map Prod.snd)) log' := by
  induction log generalizing s with
  | nil => rfl
  | cons e log ih =>
      rw [List.cons_append, repliesOf, repliesOf, ih, List.map_cons, replay_cons]
      by_cases he : e.1 = w <;> simp [he]

theorem repliesOf_concat (w w' : Fin n) (s : S) (op : O) (log : List (Fin n × O)) :
    repliesOf sem w s (log ++ [(w', op)]) =
      if w' = w then repliesOf sem w s log ++ [(sem (replay sem s (log.map Prod.snd)) op).1]
      else repliesOf sem w s log := by
  rw [repliesOf_append]
  by_cases hw : w' = w <;> simp [repliesOf, hw]

@[simp] theorem after_nil : cfg.after sem [] = cfg.store := rfl

theorem after_concat (w : Fin n) (op : O) :
    cfg.after sem (log ++ [(w, op)]) = (sem (cfg.after sem log) op).2 := by
  simp [Config.after]

@[simp] theorem start_store : (start prog cfg : State n L O R S).store = cfg.store := rfl

theorem within_start : Within prog sem cfg [] (start prog cfg) where
  base := fun _ => rfl
  todo := fun _ => rfl
  got := fun _ => rfl
  store := rfl

/-! ### What a step does -/

@[simp] theorem call_loc_self (w : Fin n) (op : O) (todo : List O) :
    (st.call sem w op todo).loc w = (st.loc w).answer todo (sem st.store op).1 :=
  Function.update_self _ _ _

theorem call_loc_of_ne {w w' : Fin n} (hw : w' ≠ w) (op : O) (todo : List O) :
    (st.call sem w op todo).loc w' = st.loc w' :=
  Function.update_of_ne hw _ _

@[simp] theorem call_store (w : Fin n) (op : O) (todo : List O) :
    (st.call sem w op todo).store = (sem st.store op).2 := rfl

/-- What a step does, by the workers it involves. -/
inductive Change (prog : Program n L O R C) (sem : S → O → R × S) (st : State n L O R S) :
    State n L O R S → Prop where
  | call (w : Fin n) (op : O) (todo : List O) (htodo : (st.loc w).todo = op :: todo) :
      Change prog sem st (st.call sem w op todo)
  | pass (c : Fin n → C) (hdone : ∀ w, (st.loc w).todo = [])
      (hmeet : ∀ w, prog.meet w (st.loc w).base (st.loc w).got = some (c w))
      (hmatched : prog.Matched c) : Change prog sem st (st.pass prog c)

theorem gives_eq_some {w : Fin n} {x : Worker L O R} {c : C} :
    prog.gives w x = some c ↔ x.todo = [] ∧ prog.meet w x.base x.got = some c := by
  unfold Program.gives
  cases x.todo <;> simp

theorem step_cases {l : Label n} (h : step prog sem st l = some st') : Change prog sem st st' := by
  cases l with
  | call w =>
      cases htodo : (st.loc w).todo with
      | nil => simp [step, htodo] at h
      | cons op todo =>
          simp only [step, htodo, Option.some.injEq] at h
          subst h
          exact .call w op todo htodo
  | meet =>
      obtain ⟨c, hc, h⟩ := Option.bind_eq_some_iff.mp h
      have hgives : ∀ w, _ := fun w => gives_eq_some.mp (gather_eq_some.mp hc w)
      by_cases hmatched : prog.Matched c
      · rw [if_pos hmatched] at h
        cases h
        exact .pass c (fun w => (hgives w).1) (fun w => (hgives w).2) hmatched
      · rw [if_neg hmatched] at h
        cases h

theorem step_of_call {w : Fin n} {op : O} {todo : List O} (h : (st.loc w).todo = op :: todo) :
    step prog sem st (.call w) = some (st.call sem w op todo) := by
  simp only [step, h]

theorem step_of_meet {c : Fin n → C} (hdone : ∀ w, (st.loc w).todo = [])
    (hmeet : ∀ w, prog.meet w (st.loc w).base (st.loc w).got = some (c w))
    (hmatched : prog.Matched c) : step prog sem st .meet = some (st.pass prog c) := by
  have hgather : (gather fun w => prog.gives w (st.loc w)) = some c :=
    gather_eq_some.mpr fun w => gives_eq_some.mpr ⟨hdone w, hmeet w⟩
  rw [step, hgather, Option.bind_some, if_pos hmatched]

theorem step_of_checked {ok : R → Bool} {l : Label n} (h : checked ok prog sem st l = some st') :
    step prog sem st l = some st' := by
  cases l with
  | call w =>
      by_cases hw : (st.loc w).goes ok
      · rwa [checked, if_pos hw] at h
      · rw [checked, if_neg hw] at h
        cases h
  | meet =>
      by_cases hall : ∀ w, (st.loc w).goes ok
      · rwa [checked, if_pos hall] at h
      · rw [checked, if_neg hall] at h
        cases h

/-- While every worker goes on, all steps can be taken. -/
theorem checked_of_goes {ok : R → Bool} (h : ∀ w, (st.loc w).goes ok) (l : Label n) :
    checked ok prog sem st l = step prog sem st l := by
  cases l with
  | call w => rw [checked, if_pos (h w)]
  | meet => rw [checked, if_pos h]

/-- What holds of all runs holds of those in which workers end at a reply. -/
theorem reachable_of_checked {ok : R → Bool} (h : Reachable (checked ok prog sem) st st') :
    Reachable (step prog sem) st st' :=
  h.invariant (.refl st) fun _ _ _ hreach hstep => hreach.tail (step_of_checked hstep)

/-! ### The machine stays within segments -/

/-- A call goes on within the segment. -/
theorem Within.call (h : Within prog sem cfg log st) {w : Fin n} {op : O} {todo : List O}
    (htodo : (st.loc w).todo = op :: todo) :
    Within prog sem cfg (log ++ [(w, op)]) (st.call sem w op todo) where
  base := by
    intro w'
    by_cases hw : w' = w
    · subst hw
      rw [call_loc_self]
      exact h.base w'
    · rw [call_loc_of_ne hw]
      exact h.base w'
  todo := by
    intro w'
    have hold := h.todo w'
    by_cases hw : w = w'
    · subst hw
      rw [htodo] at hold
      rw [call_loc_self, callsOf_concat, if_pos rfl, ← hold]
      exact List.append_assoc _ _ _
    · rw [call_loc_of_ne (Ne.symm hw), callsOf_concat, if_neg hw]
      exact hold
  got := by
    intro w'
    have hold := h.got w'
    rw [repliesOf_concat]
    by_cases hw : w = w'
    · subst hw
      rw [call_loc_self, if_pos rfl, Worker.answer, hold, h.store]
      rfl
    · rw [call_loc_of_ne (Ne.symm hw), if_neg hw]
      exact hold
  store := by rw [after_concat, call_store, h.store]

theorem Within.mem (h : Within prog sem cfg log st) {e : Fin n × O} (he : e ∈ log) :
    e.2 ∈ prog.calls e.1 (cfg.loc e.1) := by
  rw [← h.todo e.1, List.mem_append, callsOf, List.mem_map]
  exact .inl ⟨e, List.mem_filter.mpr ⟨he, by simp⟩, rfl⟩

/-- When the workers have made their calls, the log has them all. -/
theorem Within.logs (h : Within prog sem cfg log st) (hdone : ∀ w, (st.loc w).todo = []) :
    cfg.Logs prog log := by
  intro w
  have hw := h.todo w
  rwa [hdone w, List.append_nil] at hw

theorem Within.done (h : Within prog sem cfg log st) (hlogs : cfg.Logs prog log) (w : Fin n) :
    (st.loc w).todo = [] := by
  have hw := h.todo w
  rw [hlogs w] at hw
  exact List.append_right_eq_self.mp hw

theorem Within.meet_eq (h : Within prog sem cfg log st) (w : Fin n) :
    prog.meet w (st.loc w).base (st.loc w).got = cfg.offer prog sem log w := by
  rw [h.base, h.got]
  rfl

/-- The calls so far and the order in which they took effect say all about a state. -/
theorem Within.unique (h : Within prog sem cfg log st) (h' : Within prog sem cfg log st') :
    st = st' := by
  have hloc : st.loc = st'.loc := by
    funext w
    have htodo : (st.loc w).todo = (st'.loc w).todo :=
      List.append_cancel_left ((h.todo w).trans (h'.todo w).symm)
    have hgot := (h.got w).trans (h'.got w).symm
    have hbase := (h.base w).trans (h'.base w).symm
    generalize st.loc w = x at *
    generalize st'.loc w = y at *
    cases x
    cases y
    simp_all
  have hstore := h.store.trans h'.store.symm
  cases st
  cases st'
  simp_all

/-- Leaving a collective operation ends the segment. -/
theorem Within.pass (h : Within prog sem cfg log st) {c : Fin n → C}
    (hdone : ∀ w, (st.loc w).todo = [])
    (hmeet : ∀ w, prog.meet w (st.loc w).base (st.loc w).got = some (c w))
    (hmatched : prog.Matched c) :
    ∃ cfg', Segment prog sem cfg log c cfg' ∧ start prog cfg' = st.pass prog c := by
  refine ⟨⟨fun w => prog.next w (st.loc w).base (st.loc w).got c, st.store⟩, ?_, rfl⟩
  exact {
    logs := h.logs hdone
    offers := fun w => by rw [← h.meet_eq, hmeet w]
    matched := hmatched
    loc := by
      intro w
      show prog.next w (st.loc w).base (st.loc w).got c = _
      rw [h.base, h.got]
    store := h.store }

/-- A step stays within the segment or leads to the start of the next. -/
theorem Within.advance {l : Label n} (h : Within prog sem cfg log st)
    (hstep : step prog sem st l = some st') :
    (∃ log', Within prog sem cfg log' st') ∨
      ∃ cfg', Leads prog sem cfg cfg' ∧ Within prog sem cfg' [] st' := by
  cases step_cases hstep with
  | call w op todo htodo => exact .inl ⟨_, h.call htodo⟩
  | pass c hdone hmeet hmatched =>
      obtain ⟨cfg', hseg, hstart⟩ := h.pass hdone hmeet hmatched
      rw [← hstart]
      exact .inr ⟨cfg', ⟨log, c, hseg⟩, within_start⟩

/-- Every state of the machine lies within a segment of a run of whole segments. -/
theorem exists_within (h : Reachable (step prog sem) (start prog init) st) :
    ∃ cfg log, Visits prog sem init cfg ∧ Within prog sem cfg log st := by
  apply h.invariant (P := fun st => ∃ cfg log, Visits prog sem init cfg ∧
    Within prog sem cfg log st)
  · exact ⟨init, [], .refl, within_start⟩
  · intro s l s' ih hstep
    obtain ⟨cfg, log, hvisits, hwithin⟩ := ih
    rcases hwithin.advance hstep with ⟨log', hwithin'⟩ | ⟨cfg', hleads, hwithin'⟩
    · exact ⟨cfg, log', hvisits, hwithin'⟩
    · exact ⟨cfg', [], hvisits.tail hleads, hwithin'⟩

/-- The machine is in a segment that starts from a configuration of some kind. -/
def Inside (prog : Program n L O R C) (sem : S → O → R × S) (p : Config n L S → Prop)
    (st : State n L O R S) : Prop :=
  ∃ cfg log, p cfg ∧ Within prog sem cfg log st

theorem inside_start {p : Config n L S → Prop} (h : p cfg) :
    Inside prog sem p (start prog cfg) :=
  ⟨cfg, [], h, within_start⟩

theorem Inside.advance {l : Label n} {p q : Config n L S → Prop} (h : Inside prog sem p st)
    (hleads : ∀ cfg cfg', p cfg → Leads prog sem cfg cfg' → q cfg')
    (hstep : step prog sem st l = some st') :
    Inside prog sem p st' ∨ Inside prog sem q st' := by
  obtain ⟨cfg, log, hp, hwithin⟩ := h
  rcases hwithin.advance hstep with ⟨log', hwithin'⟩ | ⟨cfg', hl, hwithin'⟩
  · exact .inl ⟨cfg, log', hp, hwithin'⟩
  · exact .inr ⟨cfg', [], hleads cfg cfg' hp hl, hwithin'⟩

/-! ### Every segment can be run -/

/-- The calls of all workers, one worker after another. -/
def serialLog (calls : Fin n → List O) : List (Fin n × O) :=
  (List.finRange n).flatMap fun w => (calls w).map fun op => (w, op)

theorem callsOf_map (w x : Fin n) (ops : List O) :
    callsOf w (ops.map fun op => (x, op)) = if x = w then ops else [] := by
  induction ops with
  | nil => simp
  | cons op ops ih =>
      rw [List.map_cons, callsOf_cons, ih]
      by_cases hx : x = w <;> simp [hx]

theorem callsOf_serialLog (calls : Fin n → List O) (w : Fin n) :
    callsOf w (serialLog calls) = calls w := by
  have hws : ∀ ws : List (Fin n), ws.Nodup →
      callsOf w (ws.flatMap fun w => (calls w).map fun op => (w, op)) =
        if w ∈ ws then calls w else [] := by
    intro ws
    induction ws with
    | nil => simp
    | cons x ws ih =>
        intro hnodup
        rw [List.nodup_cons] at hnodup
        rw [List.flatMap_cons, callsOf_append, callsOf_map, ih hnodup.2]
        by_cases hx : x = w
        · subst hx
          simp [hnodup.1]
        · simp [hx, Ne.symm hx]
  rw [serialLog, hws _ (List.nodup_finRange n), if_pos (List.mem_finRange w)]

/-- The calls of an earlier worker come first. -/
theorem serialLog_pairwise (calls : Fin n → List O) :
    (serialLog calls).Pairwise fun e e' => e.1 ≤ e'.1 := by
  rw [serialLog, List.pairwise_flatMap]
  constructor
  · intro w _
    rw [List.pairwise_map]
    exact List.pairwise_of_forall fun _ _ => le_refl w
  · apply (List.pairwise_lt_finRange n).imp
    intro w w' hlt e he e' he'
    obtain ⟨op, -, rfl⟩ := List.mem_map.mp he
    obtain ⟨op', -, rfl⟩ := List.mem_map.mp he'
    exact hlt.le

/-- What an earlier worker calls comes before. -/
theorem mem_of_serialLog {calls : Fin n → List O} {w x : Fin n} {op op' : O}
    {pre post : List (Fin n × O)} (hlog : serialLog calls = pre ++ (w, op) :: post) (hx : x < w)
    (hmem : op' ∈ calls x) : (x, op') ∈ pre := by
  have hin : (x, op') ∈ pre ++ (w, op) :: post := by
    rw [← hlog]
    apply mem_of_mem_callsOf
    rwa [callsOf_serialLog]
  have hpairs := serialLog_pairwise calls
  rw [hlog, List.pairwise_append, List.pairwise_cons] at hpairs
  rcases List.mem_append.mp hin with hpre | hrest
  · exact hpre
  · rcases List.mem_cons.mp hrest with heq | hpost
    · exact absurd (congrArg Prod.fst heq) hx.ne
    · exact absurd (hpairs.2.1.1 _ hpost) (not_le.mpr hx)

theorem length_repliesOf (w : Fin n) (s : S) :
    (repliesOf sem w s log).length = (callsOf w log).length := by
  induction log generalizing s with
  | nil => rfl
  | cons e log ih =>
      rw [repliesOf, callsOf_cons]
      by_cases he : e.1 = w <;> simp [he, ih]

/-- The replies to calls that one worker makes while the others wait. -/
def answers (sem : S → O → R × S) : S → List O → List R
  | _, [] => []
  | s, op :: ops => (sem s op).1 :: answers sem (sem s op).2 ops

@[simp] theorem answers_singleton (s : S) (op : O) : answers sem s [op] = [(sem s op).1] := rfl

theorem answers_append (s : S) (ops ops' : List O) :
    answers sem s (ops ++ ops') = answers sem s ops ++ answers sem (replay sem s ops) ops' := by
  induction ops generalizing s with
  | nil => rfl
  | cons op ops ih => rw [List.cons_append, answers, ih, replay_cons, answers, List.cons_append]

/-- Calls that leave the store as it is are all answered from it. -/
theorem answers_eq_map {s : S} {ops : List O} (h : ∀ op ∈ ops, (sem s op).2 = s) :
    answers sem s ops = ops.map fun op => (sem s op).1 := by
  induction ops with
  | nil => rfl
  | cons op ops ih =>
      rw [answers, h op List.mem_cons_self, ih fun op' hop => h op' (List.mem_cons_of_mem op hop),
        List.map_cons]

/-- The calls of one worker among those of all, one worker after another. -/
theorem serialLog_eq (calls : Fin n → List O) (w : Fin n) :
    serialLog calls =
      (((List.finRange n).take w).flatMap fun x => (calls x).map fun op => (x, op)) ++
        ((calls w).map fun op => (w, op)) ++
        ((List.finRange n).drop (w + 1)).flatMap fun x => (calls x).map fun op => (x, op) := by
  have hw : w.val < (List.finRange n).length := by
    rw [List.length_finRange]
    exact w.isLt
  have hsplit : List.finRange n =
      (List.finRange n).take w ++ w :: (List.finRange n).drop (w + 1) := by
    have hget : (List.finRange n)[w.val] = w := by simp
    calc
      List.finRange n = (List.finRange n).take w ++ (List.finRange n).drop w :=
        (List.take_append_drop _ _).symm
      _ = (List.finRange n).take w ++ (List.finRange n)[w.val] ::
          (List.finRange n).drop (w + 1) := by rw [List.getElem_cons_drop]
      _ = _ := by rw [hget]
  calc
    serialLog calls = ((List.finRange n).take w ++ w :: (List.finRange n).drop (w + 1)).flatMap
        fun x => (calls x).map fun op => (x, op) := by rw [← hsplit, serialLog]
    _ = _ := by rw [List.flatMap_append, List.flatMap_cons, List.append_assoc]

/-- One worker after another: each gets the replies that it would get alone, after the calls of
    those before it. -/
theorem repliesOf_serialLog (sem : S → O → R × S) (calls : Fin n → List O) (w : Fin n) (s : S) :
    repliesOf sem w s (serialLog calls) =
      answers sem (replay sem s (((List.finRange n).take w).flatMap calls)) (calls w) := by
  have hself : ∀ (ops : List O) (s : S),
      repliesOf sem w s (ops.map fun op => (w, op)) = answers sem s ops := by
    intro ops
    induction ops with
    | nil => exact fun _ => rfl
    | cons op ops ih =>
        intro s
        rw [List.map_cons, repliesOf, if_pos rfl, ih, answers]
  have hother : ∀ (ws : List (Fin n)) (s : S), w ∉ ws →
      repliesOf sem w s (ws.flatMap fun x => (calls x).map fun op => (x, op)) = [] := by
    intro ws s hws
    rw [← List.length_eq_zero_iff, length_repliesOf, List.length_eq_zero_iff, callsOf,
      List.map_eq_nil_iff, List.filter_eq_nil_iff]
    intro e he heq
    obtain ⟨x, hx, he⟩ := List.mem_flatMap.mp he
    obtain ⟨op, -, rfl⟩ := List.mem_map.mp he
    exact hws (of_decide_eq_true heq ▸ hx)
  have hops : ∀ ws : List (Fin n), (ws.flatMap fun x => (calls x).map fun op => (x, op)).map
      Prod.snd = ws.flatMap calls := by
    intro ws
    rw [List.map_flatMap]
    apply List.flatMap_congr
    intro x _
    rw [List.map_map]
    exact List.map_id _
  have hbefore : w ∉ (List.finRange n).take w := by
    rw [List.mem_take_iff_getElem]
    intro h
    obtain ⟨i, hi, heq⟩ := h
    have hval := congrArg Fin.val heq
    simp at hval hi
    omega
  have hafter : w ∉ (List.finRange n).drop (w + 1) := by
    rw [List.mem_drop_iff_getElem]
    intro h
    obtain ⟨i, hi, heq⟩ := h
    have hval := congrArg Fin.val heq
    simp at hval
    omega
  rw [serialLog_eq calls w, repliesOf_append, repliesOf_append, hother _ _ hbefore, hself,
    hother _ _ hafter, List.nil_append, List.append_nil, hops]

theorem Within.goes_iff {ok : R → Bool} (h : Within prog sem cfg log st) (w : Fin n) :
    (st.loc w).goes ok ↔ ∀ r ∈ repliesOf sem w cfg.store log, ok r := by
  rw [Worker.goes, h.got, List.all_eq_true]

/-- A part of a log is reached, whatever comes after it, if its replies let the workers go on. -/
theorem reaches_log {ok : R → Bool} (log rest : List (Fin n × O))
    (hok : ∀ w, ∀ r ∈ repliesOf sem w cfg.store log, ok r)
    (h : cfg.Logs prog (log ++ rest)) :
    ∃ st, Reachable (checked ok prog sem) (start prog cfg) st ∧ Within prog sem cfg log st := by
  induction log using List.reverseRecOn generalizing rest with
  | nil => exact ⟨start prog cfg, .refl _, within_start⟩
  | append_singleton log e ih =>
      have hbefore : ∀ w, ∀ r ∈ repliesOf sem w cfg.store log, ok r := by
        intro w r hr
        apply hok w
        rw [repliesOf_append]
        exact List.mem_append_left _ hr
      rw [List.append_assoc] at h
      obtain ⟨st, hreach, hwithin⟩ := ih ([e] ++ rest) hbefore h
      have htodo : (st.loc e.1).todo = e.2 :: callsOf e.1 rest := by
        have hall := h e.1
        rw [← hwithin.todo e.1, callsOf_append] at hall
        rw [← List.append_cancel_left hall, List.singleton_append, callsOf_cons, if_pos rfl]
      have hstep : checked ok prog sem st (.call e.1) = some _ :=
        (checked_of_goes (fun w => (hwithin.goes_iff w).mpr (hbefore w)) _).trans
          (step_of_call htodo)
      exact ⟨_, hreach.tail hstep, hwithin.call htodo⟩

/-- A segment leads from the start of one to the start of the next, if its replies let the workers
    go on. -/
theorem Segment.reaches_checked {ok : R → Bool} {c : Fin n → C}
    (h : Segment prog sem cfg log c cfg')
    (hok : ∀ w, ∀ r ∈ repliesOf sem w cfg.store log, ok r) :
    Reachable (checked ok prog sem) (start prog cfg) (start prog cfg') := by
  obtain ⟨st, hreach, hwithin⟩ := reaches_log log [] hok (by simpa using h.logs)
  have hmeet : ∀ w, prog.meet w (st.loc w).base (st.loc w).got = some (c w) := by
    intro w
    rw [hwithin.meet_eq, h.offers]
  have hnext : start prog cfg' = st.pass prog c := by
    rw [start, State.pass, h.store, ← hwithin.store]
    congr 1
    funext w
    rw [h.loc, hwithin.base, hwithin.got]
  have hstep : checked ok prog sem st .meet = some _ :=
    (checked_of_goes (fun w => (hwithin.goes_iff w).mpr (hok w)) _).trans
      (step_of_meet (hwithin.done h.logs) hmeet h.matched)
  rw [hnext]
  exact hreach.tail hstep

/-- Where all replies do, every segment is one of the machine. -/
theorem Segment.reaches {c : Fin n → C} (h : Segment prog sem cfg log c cfg') :
    Reachable (step prog sem) (start prog cfg) (start prog cfg') := by
  have hchecked : Reachable (checked (fun _ => true) prog sem) _ _ :=
    h.reaches_checked fun _ _ _ => rfl
  exact reachable_of_checked hchecked

/-- Every run of whole segments is one of the machine. -/
theorem reaches_of_visits (h : Visits prog sem init cfg) :
    Reachable (step prog sem) (start prog init) (start prog cfg) := by
  induction h with
  | refl => exact .refl _
  | tail _ hleads ih =>
      obtain ⟨log, c, hseg⟩ := hleads
      exact ih.trans hseg.reaches

/-- The states of the machine are those within a segment of a run of whole segments. -/
theorem reachable_iff : Reachable (step prog sem) (start prog init) st ↔
    ∃ cfg log, Visits prog sem init cfg ∧ Within prog sem cfg log st := by
  constructor
  · exact exists_within
  · intro h
    obtain ⟨cfg, log, hvisits, hwithin⟩ := h
    have hrest : cfg.Logs prog (log ++ serialLog fun w => (st.loc w).todo) := by
      intro w
      rw [callsOf_append, callsOf_serialLog, hwithin.todo]
    obtain ⟨st', hreach, hwithin'⟩ :
        ∃ st', Reachable (checked (fun _ => true) prog sem) (start prog cfg) st' ∧
          Within prog sem cfg log st' := reaches_log log _ (fun _ _ _ => rfl) hrest
    rw [hwithin.unique hwithin']
    exact (reaches_of_visits hvisits).trans (reachable_of_checked hreach)

/-! ### What the calls of a segment do -/

/-- A log has no calls but those of the segment. -/
theorem Config.Logs.mem (h : cfg.Logs prog log) {e : Fin n × O} (he : e ∈ log) :
    e.2 ∈ prog.calls e.1 (cfg.loc e.1) := by
  rw [← h e.1, callsOf, List.mem_map]
  exact ⟨e, List.mem_filter.mpr ⟨he, by simp⟩, rfl⟩

/-- The calls of the workers, one after another, are the log in some order. -/
theorem Config.Logs.perm (h : cfg.Logs prog log) :
    (log.map Prod.snd).Perm ((List.finRange n).flatMap fun w => prog.calls w (cfg.loc w)) := by
  have hperm := log_perm log
  simpa only [h _] using hperm

/-- Where a segment leads, as one value. -/
theorem Segment.eq {c : Fin n → C} (h : Segment prog sem cfg log c cfg') :
    cfg' = ⟨fun w => prog.next w (cfg.loc w) (repliesOf sem w cfg.store log) c,
      cfg.after sem log⟩ := by
  have hloc := funext h.loc
  have hstore := h.store
  cases cfg'
  simp_all

/-- There is an order of the calls of a segment. -/
theorem logs_serialLog (prog : Program n L O R C) (cfg : Config n L S) :
    cfg.Logs prog (serialLog fun w => prog.calls w (cfg.loc w)) :=
  callsOf_serialLog _

/-- What every call keeps holds after all of them. -/
theorem replay_invariant {P : S → Prop} {s : S} {ops : List O}
    (hkeep : ∀ op ∈ ops, ∀ s, P s → P (sem s op).2) (hs : P s) : P (replay sem s ops) := by
  induction ops generalizing s with
  | nil => exact hs
  | cons op ops ih =>
      exact ih (fun op' hop => hkeep op' (List.mem_cons_of_mem op hop))
        (hkeep op List.mem_cons_self s hs)

/-- What one of the calls brings about and every call keeps holds after all of them. -/
theorem replay_of_mem {P : S → Prop} {s : S} {op : O} {ops : List O} (hmem : op ∈ ops)
    (hset : ∀ s, P (sem s op).2) (hkeep : ∀ op ∈ ops, ∀ s, P s → P (sem s op).2) :
    P (replay sem s ops) := by
  obtain ⟨pre, post, rfl⟩ := List.append_of_mem hmem
  rw [replay_append, replay_cons]
  apply replay_invariant _ (hset _)
  intro op' hop
  exact hkeep op' (List.mem_append_right pre (List.mem_cons_of_mem op hop))

/-- The reply to a call is from the store as the calls before that one left it. -/
theorem exists_reply (sem : S → O → R × S) (s : S) {w : Fin n} {op : O} {ops ops' : List O}
    (h : callsOf w log = ops ++ op :: ops') :
    ∃ pre post, log = pre ++ (w, op) :: post ∧ callsOf w pre = ops ∧
      (repliesOf sem w s log)[ops.length]? = some (sem (replay sem s (pre.map Prod.snd)) op).1 := by
  induction log generalizing s ops with
  | nil => simp at h
  | cons e log ih =>
      obtain ⟨x, op'⟩ := e
      rw [callsOf_cons] at h
      rw [repliesOf]
      by_cases hx : x = w
      · subst hx
        rw [if_pos rfl] at h ⊢
        cases ops with
        | nil =>
            cases h
            exact ⟨[], log, rfl, rfl, rfl⟩
        | cons op'' ops =>
            obtain ⟨hop, hrest⟩ := List.cons_eq_cons.mp h
            obtain ⟨pre, post, hlog, hpre, hreply⟩ := ih (sem s op').2 hrest
            refine ⟨(x, op') :: pre, post, by rw [hlog]; rfl, ?_, hreply⟩
            rw [callsOf_cons, if_pos rfl, hpre, hop]
      · rw [if_neg hx] at h ⊢
        obtain ⟨pre, post, hlog, hpre, hreply⟩ := ih (sem s op').2 h
        refine ⟨(x, op') :: pre, post, by rw [hlog]; rfl, ?_, hreply⟩
        rw [callsOf_cons, if_neg hx, hpre]

/-- Every reply is to one of the calls. -/
theorem exists_of_mem_repliesOf {w : Fin n} {s : S} {r : R} (h : r ∈ repliesOf sem w s log) :
    ∃ pre op post, log = pre ++ (w, op) :: post ∧
      r = (sem (replay sem s (pre.map Prod.snd)) op).1 := by
  induction log generalizing s with
  | nil => cases h
  | cons e log ih =>
      have hrest : r ∈ repliesOf sem w (sem s e.2).2 log →
          ∃ pre op post, e :: log = pre ++ (w, op) :: post ∧
            r = (sem (replay sem s (pre.map Prod.snd)) op).1 := by
        intro hr
        obtain ⟨pre, op, post, hlog, hreply⟩ := ih hr
        exact ⟨e :: pre, op, post, by rw [hlog]; rfl, hreply⟩
      rw [repliesOf] at h
      by_cases he : e.1 = w
      · rw [if_pos he, List.mem_cons] at h
        rcases h with hr | hr
        · exact ⟨[], e.2, log, by rw [← he]; rfl, hr⟩
        · exact hrest hr
      · rw [if_neg he] at h
        exact hrest h

/-- The last reply. -/
theorem exists_last_reply (sem : S → O → R × S) (s : S) {w : Fin n} {op : O} {ops : List O}
    (h : callsOf w log = ops ++ [op]) :
    ∃ pre post, log = pre ++ (w, op) :: post ∧ callsOf w pre = ops ∧
      (repliesOf sem w s log).getLast? = some (sem (replay sem s (pre.map Prod.snd)) op).1 := by
  obtain ⟨pre, post, hlog, hpre, hreply⟩ := exists_reply sem s h
  refine ⟨pre, post, hlog, hpre, ?_⟩
  rw [List.getLast?_eq_getElem?, length_repliesOf, h, List.length_append, List.length_singleton,
    Nat.add_sub_cancel, hreply]

/-- What a worker has called before a call that is not among its first ones. -/
theorem mem_callsOf_of_before {w : Fin n} {op : O} {ops ops' : List O}
    {pre post : List (Fin n × O)} (hlog : log = pre ++ (w, op) :: post)
    (h : callsOf w log = ops ++ ops') (hop : op ∉ ops) {op' : O} (hmem : op' ∈ ops) :
    (w, op') ∈ pre := by
  apply mem_of_mem_callsOf
  rw [hlog, callsOf_append, callsOf_cons, if_pos rfl] at h
  rcases List.append_eq_append_iff.mp h with ⟨as, hops, hrest⟩ | ⟨bs, hpre, -⟩
  · cases as with
    | nil =>
        rw [List.append_nil] at hops
        rwa [← hops]
    | cons a as =>
        rw [List.cons_append, List.cons_eq_cons] at hrest
        rw [hops, ← hrest.1] at hop
        exact absurd (List.mem_append_right _ List.mem_cons_self) hop
  · rw [hpre]
    exact List.mem_append_left _ hmem

/-- The replies to the last calls of a worker, one call for each of `ks`. -/
theorem exists_last_replies [Inhabited R] {α : Type} [DecidableEq α] (sem : S → O → R × S) (s : S)
    {w : Fin n} {f : α → O} {ops : List O} {ks : List α} (hnodup : ks.Nodup)
    (h : callsOf w log = ops ++ ks.map f) :
    ∃ g : α → R, (repliesOf sem w s log).drop ((repliesOf sem w s log).length - ks.length) =
        ks.map g ∧
      ∀ k ∈ ks, ∃ pre post, log = pre ++ (w, f k) :: post ∧ ops <+: callsOf w pre ∧
        g k = (sem (replay sem s (pre.map Prod.snd)) (f k)).1 := by
  let g : α → R := fun k => ((repliesOf sem w s log)[ops.length + ks.idxOf k]?).getD default
  have hreply : ∀ j (hj : j < ks.length), ∃ pre post, log = pre ++ (w, f ks[j]) :: post ∧
      ops <+: callsOf w pre ∧ (repliesOf sem w s log)[ops.length + j]? =
        some (sem (replay sem s (pre.map Prod.snd)) (f ks[j])).1 := by
    intro j hj
    have hsplit : callsOf w log =
        (ops ++ (ks.take j).map f) ++ f ks[j] :: (ks.drop (j + 1)).map f := by
      rw [h, List.append_assoc, ← List.map_cons, ← List.map_append, List.getElem_cons_drop,
        List.take_append_drop]
    obtain ⟨pre, post, hlog, hpre, hget⟩ := exists_reply sem s hsplit
    refine ⟨pre, post, hlog, ⟨_, hpre.symm⟩, ?_⟩
    rw [← hget, List.length_append, List.length_map, List.length_take, Nat.min_eq_left hj.le]
  refine ⟨g, ?_, ?_⟩
  · have hlen : (repliesOf sem w s log).length - ks.length = ops.length := by
      rw [length_repliesOf, h, List.length_append, List.length_map, Nat.add_sub_cancel]
    rw [hlen]
    apply List.ext_getElem?
    intro j
    rw [List.getElem?_drop, List.getElem?_map]
    by_cases hj : j < ks.length
    · obtain ⟨pre, post, -, -, hget⟩ := hreply j hj
      rw [List.getElem?_eq_getElem hj, Option.map_some]
      show _ = some (((repliesOf sem w s log)[ops.length + ks.idxOf ks[j]]?).getD default)
      rw [hnodup.idxOf_getElem j hj, hget, Option.getD_some]
    · rw [List.getElem?_eq_none (Nat.not_lt.mp hj), Option.map_none, List.getElem?_eq_none_iff,
        length_repliesOf, h, List.length_append, List.length_map]
      omega
  · intro k hk
    have hj := List.idxOf_lt_length_iff.mpr hk
    obtain ⟨pre, post, hlog, hpre, hget⟩ := hreply _ hj
    rw [List.getElem_idxOf hj] at hlog hget
    refine ⟨pre, post, hlog, hpre, ?_⟩
    show ((repliesOf sem w s log)[ops.length + ks.idxOf k]?).getD default = _
    rw [hget, Option.getD_some]

/-- A worker's replies where something holds throughout that says what they are. -/
theorem repliesOf_eq_map {P : S → Prop} {f : O → R} {w : Fin n} {s : S}
    (hkeep : ∀ e ∈ log, ∀ s, P s → P (sem s e.2).2)
    (hreply : ∀ e ∈ log, e.1 = w → ∀ s, P s → (sem s e.2).1 = f e.2) (hs : P s) :
    repliesOf sem w s log = (callsOf w log).map f := by
  induction log generalizing s with
  | nil => rfl
  | cons e log ih =>
      have hrest := ih (fun e' he => hkeep e' (List.mem_cons_of_mem e he))
        (fun e' he => hreply e' (List.mem_cons_of_mem e he)) (hkeep e List.mem_cons_self s hs)
      rw [repliesOf, callsOf_cons, hrest]
      by_cases he : e.1 = w
      · rw [if_pos he, if_pos he, List.map_cons, hreply e List.mem_cons_self he s hs]
      · rw [if_neg he, if_neg he]

/-- What holds of the first configuration and is kept by every segment holds of all. -/
theorem Visits.invariant {P : Config n L S → Prop} (h : Visits prog sem init cfg) (hinit : P init)
    (hleads : ∀ cfg cfg', P cfg → Leads prog sem cfg cfg' → P cfg') : P cfg := by
  induction h with
  | refl => exact hinit
  | tail _ hstep ih => exact hleads _ _ ih hstep

/-! ### Runs end -/

/-- The workers can make the calls that they have left. -/
theorem Within.exists_done (h : Within prog sem cfg log st) :
    ∃ t log', Reachable (step prog sem) st t ∧ Within prog sem cfg log' t ∧
      ∀ w, (t.loc w).todo = [] := by
  induction hk : ∑ w, (st.loc w).todo.length using Nat.strongRecOn generalizing st log with
  | ind k ih =>
      by_cases hdone : ∀ w, (st.loc w).todo = []
      · exact ⟨st, log, .refl st, h, hdone⟩
      · rw [not_forall] at hdone
        obtain ⟨w, hw⟩ := hdone
        obtain ⟨op, todo, htodo⟩ := List.exists_cons_of_ne_nil hw
        have hlt : ∑ x, ((st.call sem w op todo).loc x).todo.length <
            ∑ x, (st.loc x).todo.length := by
          apply sum_update_lt fun _ (x : Worker L O R) => x.todo.length
          simp [htodo, Worker.answer]
        obtain ⟨t, log', ht, hwithin, hdone⟩ := ih _ (hk ▸ hlt) (h.call htodo) rfl
        exact ⟨t, log', (Reachable.single (step_of_call htodo)).trans ht, hwithin, hdone⟩

/-- If all workers go on with one operation or all stop, and every segment lowers a rank, then
    every run can be continued until all workers have stopped. -/
theorem exists_halted (rank : (Fin n → L) → Nat)
    (hagree : ∀ cfg log, Visits prog sem init cfg → cfg.Logs prog log →
      (∀ w, cfg.offer prog sem log w = none) ∨
      ∃ c, (∀ w, cfg.offer prog sem log w = some (c w)) ∧ prog.Matched c)
    (hrank : ∀ cfg cfg', Visits prog sem init cfg → Leads prog sem cfg cfg' →
      rank cfg'.loc < rank cfg.loc)
    (h : Reachable (step prog sem) (start prog init) st) :
    ∃ t, Reachable (step prog sem) st t ∧ Halted prog t := by
  have hfinish : ∀ k cfg log st, rank cfg.loc = k → Visits prog sem init cfg →
      Within prog sem cfg log st → ∃ t, Reachable (step prog sem) st t ∧ Halted prog t := by
    intro k
    induction k using Nat.strongRecOn with
    | ind k ih =>
        intro cfg log st hk hvisits hwithin
        obtain ⟨t, log', ht, hwithin', hdone⟩ := hwithin.exists_done
        rcases hagree cfg log' hvisits (hwithin'.logs hdone) with hnone | ⟨c, hc, hmatched⟩
        · refine ⟨t, ht, fun w => ⟨hdone w, ?_⟩⟩
          rw [hwithin'.meet_eq, hnone]
        · have hmeet : ∀ w, prog.meet w (t.loc w).base (t.loc w).got = some (c w) := by
            intro w
            rw [hwithin'.meet_eq, hc]
          obtain ⟨cfg', hseg, hstart⟩ := hwithin'.pass hdone hmeet hmatched
          have hleads : Leads prog sem cfg cfg' := ⟨log', c, hseg⟩
          have hlt := hrank cfg cfg' hvisits hleads
          obtain ⟨u, hu, hhalted⟩ := ih _ (hk ▸ hlt) cfg' [] (start prog cfg') rfl
            (hvisits.tail hleads) within_start
          rw [hstart] at hu
          exact ⟨u, (ht.tail (step_of_meet hdone hmeet hmatched)).trans hu, hhalted⟩
  obtain ⟨cfg, log, hvisits, hwithin⟩ := exists_within h
  exact hfinish _ cfg log st rfl hvisits hwithin

/-! ### Programs whose workers all go on -/

/-- The calls that the program makes get replies that are `ok`, in whatever order they are made. -/
def Answered (ok : R → Bool) (prog : Program n L O R C) (sem : S → O → R × S)
    (init : Config n L S) : Prop :=
  ∀ cfg log, Visits prog sem init cfg → cfg.Logs prog log →
    ∀ w, ∀ r ∈ repliesOf sem w cfg.store log, ok r

/-- No worker of such a program ever ends at a reply. -/
theorem Answered.goes {ok : R → Bool} (h : Answered ok prog sem init)
    (hst : Reachable (step prog sem) (start prog init) st) (w : Fin n) :
    (st.loc w).goes ok := by
  obtain ⟨cfg, log, hvisits, hwithin⟩ := exists_within hst
  -- the log is the first part of one that has all calls of the segment
  have hlogs : cfg.Logs prog (log ++ serialLog fun w => (st.loc w).todo) := by
    intro w
    rw [callsOf_append, callsOf_serialLog, hwithin.todo]
  rw [hwithin.goes_iff]
  intro r hr
  apply h cfg _ hvisits hlogs w
  rw [repliesOf_append]
  exact List.mem_append_left _ hr

theorem Answered.reachable {ok : R → Bool} (h : Answered ok prog sem init)
    (hst : Reachable (step prog sem) (start prog init) st)
    (hreach : Reachable (step prog sem) st st') : Reachable (checked ok prog sem) st st' := by
  have hboth : Reachable (step prog sem) (start prog init) st' ∧
      Reachable (checked ok prog sem) st st' := by
    apply hreach.invariant (P := fun st' => Reachable (step prog sem) (start prog init) st' ∧
      Reachable (checked ok prog sem) st st')
    · exact ⟨hst, .refl st⟩
    · intro s l s' ih hstep
      obtain ⟨hs, hchecked⟩ := ih
      refine ⟨hs.tail hstep, hchecked.tail (a := l) ?_⟩
      rw [checked_of_goes (h.goes hs), hstep]
  exact hboth.2

/-- Its runs can be continued until all workers have stopped. -/
theorem Answered.exists_halted {ok : R → Bool} (h : Answered ok prog sem init)
    (rank : (Fin n → L) → Nat)
    (hagree : ∀ cfg log, Visits prog sem init cfg → cfg.Logs prog log →
      (∀ w, cfg.offer prog sem log w = none) ∨
      ∃ c, (∀ w, cfg.offer prog sem log w = some (c w)) ∧ prog.Matched c)
    (hrank : ∀ cfg cfg', Visits prog sem init cfg → Leads prog sem cfg cfg' →
      rank cfg'.loc < rank cfg.loc)
    (hst : Reachable (checked ok prog sem) (start prog init) st) :
    ∃ t, Reachable (checked ok prog sem) st t ∧ Halted prog t := by
  have hfree := reachable_of_checked hst
  obtain ⟨t, ht, hhalted⟩ := Segments.exists_halted rank hagree hrank hfree
  exact ⟨t, h.reachable hfree ht, hhalted⟩

end Segments
