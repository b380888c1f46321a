import Paracel.Pregel.Loop

/-!
# What holds between the barriers

The invariants of the loop, for all workers at once. What the servers hold is
made of the bupdates that the supersteps so far issued. A worker's flag is 1
where no vertex of it was active when the superstep began; if all flags are 1,
no bupdate was issued, so the values read are those of the last vote and no
vertex becomes active again. This is why the flag can be computed before the
vote and summed after it.
-/

namespace Paracel.Pregel

open StepSystem Spmd

variable {W X M : Type} {n m : Nat}

/-! ### Which bupdates the servers have seen -/

/-- What is left to issue in this superstep. -/
def Phase.left : Phase M → List (Bupdate M)
  | .first todo | .compute todo => todo
  | _ => []

/-- The vertices that still have to vote. -/
def Phase.ballots : Phase M → List Str
  | .vote todo => todo
  | _ => []

theorem Phase.left_of_vote {p : Phase M} (h : p.stage = .vote) : p.left = [] := by
  cases p with
  | vote | aborted => rfl
  | first | compute | reduce | again | leave | done => cases h

/-- The bupdates in a log, with the workers that issued them. -/
def bupdatesOf (log : List (Fin n × Call M)) : List (Fin n × Bupdate M) :=
  log.filterMap fun e => e.2.toBupdate.map fun b => (e.1, b)

/-- The bupdates of one worker. -/
def bupdatesBy (w : Fin n) (order : List (Fin n × Bupdate M)) : List (Bupdate M) :=
  (order.filter fun e => e.1 = w).map Prod.snd

theorem bupdatesBy_bupdatesOf (w : Fin n) (log : List (Fin n × Call M)) :
    bupdatesBy w (bupdatesOf log) = (callsOf w log).filterMap Call.toBupdate := by
  induction log with
  | nil => rfl
  | cons e log ih =>
      rcases e with ⟨w', c⟩
      have hcons : bupdatesBy w (bupdatesOf ((w', c) :: log)) =
          (if w' = w then c.toBupdate.toList else []) ++ bupdatesBy w (bupdatesOf log) := by
        unfold bupdatesBy bupdatesOf
        rw [List.filterMap_cons]
        cases c.toBupdate <;> by_cases hw : w' = w <;> simp [hw]
      rw [hcons, ih, callsOf_cons]
      by_cases hw : w' = w
      · rw [if_pos hw, if_pos hw, List.filterMap_cons]
        cases c.toBupdate <;> rfl
      · rw [if_neg hw, if_neg hw, List.nil_append]

theorem map_call_bupdatesOf (log : List (Fin n × Call M)) :
    (bupdatesOf log).map (fun e => e.2.call) =
      ((log.map Prod.snd).filterMap Call.toBupdate).map Bupdate.call := by
  rw [bupdatesOf, List.map_filterMap, List.map_filterMap, List.filterMap_map]
  apply List.filterMap_congr
  intro e _
  rw [Function.comp_apply, Option.map_map]
  rfl

section Run

variable [DecidableEq X] [Inhabited M] {lp : Loop W X M} {lib : Libs M}
  {getServer : Str → Fin m} {parts : Fin n → Part W} {init st st' : LoopState n m X M}

/-- Each worker has issued the bupdates of its supersteps but for those left in this one. -/
theorem issued_eq (hlog : init.log = [])
    (hinit : ∀ w, (init.loc w).phase.left = (init.loc w).issued.flatten)
    (h : Reachable (lp.step lib getServer parts) init st) (w : Fin n) :
    bupdatesBy w (bupdatesOf st.log) ++ (st.loc w).phase.left = (st.loc w).issued.flatten := by
  rw [bupdatesBy_bupdatesOf]
  apply local_invariant (P := fun _ l ops =>
    ops.filterMap Call.toBupdate ++ l.phase.left = l.issued.flatten) hlog hinit (h := h)
  · intro w l ops op next r hP hact
    rcases act_call hact with ⟨b, todo, hphase, rfl, rfl⟩ | ⟨b, todo, hphase, rfl, rfl⟩ |
      ⟨vtx, todo, hphase, rfl, hsome, hnone⟩
    · simpa [hphase, Phase.left] using hP
    · simpa [hphase, Phase.left] using hP
    · cases r with
      | none => simpa [hnone, hphase, Phase.left, List.filterMap_cons] using hP
      | some msg => simpa [hsome, hphase, Phase.left, Loop.voteOn, List.filterMap_cons] using hP
  · intro w l ops next hP hact
    rcases act_sync hact with ⟨hp | hp | hp | hp | hp, rfl⟩ <;>
      simpa [Loop.afterSync, Loop.superstep, hp, Phase.left] using hP
  · intro w l ops v next sum hP hact
    rcases act_allreduce hact with ⟨hp | hp, -, rfl⟩ <;>
      simp only [hp, Phase.left] at hP <;>
      simp only [Worker.afterReduce] <;>
      split <;> simpa [Phase.left] using hP

/-- The servers hold what these bupdates made of them. -/
theorem store_eq (hlog : init.log = []) (h : Reachable (lp.step lib getServer parts) init st) :
    st.store = replay (Servers.perform lib getServer) init.store
      ((bupdatesOf st.log).map fun e => e.2.call) := by
  rw [store_eq_replay hlog h, Servers.replay_bupdates, map_call_bupdatesOf]

end Run

/-! ### Flags, votes and values -/

/-- The worker's value of a vertex is made of the one on the server. -/
def Settled (lp : Loop W X M) (getServer : Str → Fin m) (st : LoopState n m X M) (w : Fin n)
    (v : Str) : Prop :=
  ∃ msg, st.store.value getServer v = some msg ∧
    (st.loc w).vertexValMap v = lp.mutableValue msg

/-- No worker had an active vertex when the superstep began. -/
def Quiet (st : LoopState n m X M) : Prop :=
  ∀ w, (st.loc w).haltFlag = 1

/-- What holds of a worker, by its phase. -/
def Good (lp : Loop W X M) (getServer : Str → Fin m) (parts : Fin n → Part W)
    (st : LoopState n m X M) (w : Fin n) : Prop :=
  match (st.loc w).phase with
  | .first _ => ∀ v ∈ (parts w).vertices, (st.loc w).vertexActiveMap v = true
  | .compute todo =>
      ((st.loc w).haltFlag = 0 ∨ (st.loc w).haltFlag = 1 ∧ todo = [] ∧
        ∀ v ∈ (parts w).vertices, (st.loc w).vertexActiveMap v = false) ∧
      (Quiet st → ∀ v ∈ (parts w).vertices, Settled lp getServer st w v)
  | .vote todo =>
      ((st.loc w).haltFlag = 0 ∨ (st.loc w).haltFlag = 1) ∧
      (∀ v ∈ (parts w).vertices, v ∉ todo → Settled lp getServer st w v) ∧
      (Quiet st → ∀ v ∈ (parts w).vertices, Settled lp getServer st w v ∧
        (st.loc w).vertexActiveMap v = false) ∧
      ∀ v ∈ todo, v ∈ (parts w).vertices
  | .reduce =>
      ((st.loc w).haltFlag = 0 ∨ (st.loc w).haltFlag = 1) ∧
      (∀ v ∈ (parts w).vertices, Settled lp getServer st w v) ∧
      (Quiet st → ∀ v ∈ (parts w).vertices, (st.loc w).vertexActiveMap v = false)
  | .again => ∀ v ∈ (parts w).vertices, Settled lp getServer st w v
  | .leave | .done =>
      ∀ v ∈ (parts w).vertices, Settled lp getServer st w v ∧
        (st.loc w).vertexActiveMap v = false
  | .aborted => False

theorem Phase.eq_first {p : Phase M} (h : p.stage = .first) : ∃ todo, p = .first todo := by
  cases p with
  | first todo => exact ⟨todo, rfl⟩
  | compute | vote | reduce | again | leave | done | aborted => cases h

theorem Phase.eq_compute {p : Phase M} (h : p.stage = .compute) : ∃ todo, p = .compute todo := by
  cases p with
  | compute todo => exact ⟨todo, rfl⟩
  | first | vote | reduce | again | leave | done | aborted => cases h

section Steps

variable {lp : Loop W X M} {lib : Libs M} {getServer : Str → Fin m} {parts : Fin n → Part W}
  {st st' : LoopState n m X M} {w : Fin n}

/-- A step that changes neither the worker nor the servers. -/
theorem Good.frame (h : Good lp getServer parts st w) (hloc : st'.loc w = st.loc w)
    (hstore : st'.store = st.store) (hquiet : Quiet st' → Quiet st) :
    Good lp getServer parts st' w := by
  unfold Good Settled at h ⊢
  rw [hloc, hstore]
  cases hp : (st.loc w).phase with
  | first | again | leave | done | aborted =>
      rw [hp] at h
      exact h
  | compute todo =>
      rw [hp] at h
      exact ⟨h.1, fun hq => h.2 (hquiet hq)⟩
  | vote todo =>
      rw [hp] at h
      exact ⟨h.1, h.2.1, fun hq => h.2.2.1 (hquiet hq), h.2.2.2⟩
  | reduce =>
      rw [hp] at h
      exact ⟨h.1, h.2.1, fun hq => h.2.2 (hquiet hq)⟩

/-- A worker with something to issue in a superstep has its flag at 0. -/
theorem Good.flag_of_compute {b : Bupdate M} {todo : List (Bupdate M)}
    (h : Good lp getServer parts st w) (hp : (st.loc w).phase = .compute (b :: todo)) :
    (st.loc w).haltFlag = 0 := by
  unfold Good at h
  rw [hp] at h
  rcases h.1 with hflag | ⟨-, hnil, -⟩
  · exact hflag
  · cases hnil

theorem Good.mem_of_vote {vtx : Str} {todo : List Str} (h : Good lp getServer parts st w)
    (hp : (st.loc w).phase = .vote (vtx :: todo)) : vtx ∈ (parts w).vertices := by
  unfold Good at h
  rw [hp] at h
  exact h.2.2.2 vtx List.mem_cons_self

/-- Where a worker is that has read all values of the superstep. -/
theorem Good.past_votes (h : Good lp getServer parts st w)
    (hp : (st.loc w).phase = .vote [] ∨ (st.loc w).phase = .reduce) :
    ((st.loc w).haltFlag = 0 ∨ (st.loc w).haltFlag = 1) ∧
      (∀ v ∈ (parts w).vertices, Settled lp getServer st w v) ∧
      (Quiet st → ∀ v ∈ (parts w).vertices, (st.loc w).vertexActiveMap v = false) := by
  unfold Good at h
  rcases hp with hp | hp
  · rw [hp] at h
    exact ⟨h.1, fun v hv => h.2.1 v hv List.not_mem_nil, fun hq v hv => (h.2.2.1 hq v hv).2⟩
  · rw [hp] at h
    exact h

/-- A bupdate of superstep 0. -/
theorem Good.issued_first {x : Fin n} {todo : List (Bupdate M)}
    (h : Good lp getServer parts st x) (hx : (st.loc x).phase.stage = .first)
    (hloc : st'.loc = Function.update st.loc w { st.loc w with phase := .first todo }) :
    Good lp getServer parts st' x := by
  rcases Phase.eq_first hx with ⟨todo', hp⟩
  unfold Good at h ⊢
  rw [hp] at h
  rw [hloc]
  by_cases hxw : x = w
  · subst hxw
    simpa only [Function.update_self] using h
  · simpa only [Function.update_of_ne hxw, hp] using h

/-- A bupdate of a later superstep, in which some worker has an active vertex then, so that
    nothing is promised about the values. -/
theorem Good.issued_compute {x : Fin n} {b : Bupdate M} {todo : List (Bupdate M)}
    (h : Good lp getServer parts st x) (hx : (st.loc x).phase.stage = .compute)
    (hw : Good lp getServer parts st w) (hphase : (st.loc w).phase = .compute (b :: todo))
    (hloc : st'.loc = Function.update st.loc w { st.loc w with phase := .compute todo }) :
    Good lp getServer parts st' x := by
  have hflag := hw.flag_of_compute hphase
  have hbusy : ¬Quiet st' := by
    intro hq
    have hone := hq w
    rw [hloc, Function.update_self] at hone
    rw [hflag] at hone
    cases hone
  rcases Phase.eq_compute hx with ⟨todo', hp⟩
  unfold Good at h ⊢
  rw [hp] at h
  rw [hloc]
  by_cases hxw : x = w
  · subst hxw
    simp only [Function.update_self]
    exact ⟨.inl hflag, fun hq => absurd hq hbusy⟩
  · simp only [Function.update_of_ne hxw, hp]
    exact ⟨h.1, fun hq => absurd hq hbusy⟩

/-- The superstep begins: its flag tells whether a vertex is active. -/
theorem good_superstep (st : LoopState n m X M)
    (hloc : ∀ w, st'.loc w = lp.superstep (parts w) (st.loc w))
    (hsettled : Quiet st' → ∀ w, ∀ v ∈ (parts w).vertices, Settled lp getServer st' w v)
    (w : Fin n) : Good lp getServer parts st' w := by
  unfold Good
  rw [hloc w]
  simp only [Loop.superstep]
  refine ⟨?_, fun hq => hsettled hq w⟩
  by_cases hany : (parts w).vertices.any (st.loc w).vertexActiveMap
  · exact .inl (if_pos hany)
  · have hinactive : ∀ v ∈ (parts w).vertices, (st.loc w).vertexActiveMap v = false := by
      intro v hv
      by_contra hv'
      exact hany (List.any_eq_true.mpr ⟨v, hv, by simpa using hv'⟩)
    refine .inr ⟨if_neg hany, ?_, hinactive⟩
    rw [Loop.requests, List.filter_eq_nil_iff.mpr fun v hv => by simp [hinactive v hv]]
    rfl

/-- After the barrier behind `compute` all vertices are to vote. -/
theorem Good.computed (h : Good lp getServer parts st w) (hp : (st.loc w).phase = .compute [])
    (hloc : st'.loc w = { st.loc w with phase := .vote (parts w).vertices })
    (hstore : st'.store = st.store) (hquiet : Quiet st' → Quiet st) :
    Good lp getServer parts st' w := by
  unfold Good Settled at h ⊢
  rw [hp] at h
  rw [hloc, hstore]
  refine ⟨?_, fun v hv hnot => absurd hv hnot, ?_, fun v hv => hv⟩
  · rcases h.1 with h0 | ⟨h1, -⟩
    · exact .inl h0
    · exact .inr h1
  · intro hq v hv
    refine ⟨h.2 (hquiet hq) v hv, ?_⟩
    rcases h.1 with h0 | ⟨-, -, hinactive⟩
    · have h1 := hquiet hq w
      rw [h0] at h1
      cases h1
    · exact hinactive v hv

/-- What a vote does to one vertex. -/
theorem good_voteOn [DecidableEq X] {vtx : Str} {todo : List Str} {msg : M}
    (h : Good lp getServer parts st w) (hp : (st.loc w).phase = .vote (vtx :: todo))
    (hmsg : st.store.value getServer vtx = some msg)
    (hloc : st'.loc w = lp.voteOn (st.loc w) vtx todo msg) (hstore : st'.store = st.store)
    (hquiet : Quiet st' → Quiet st) : Good lp getServer parts st' w := by
  unfold Good Settled at h ⊢
  rw [hp] at h
  rcases h with ⟨hflag, hsettled, hall, hmem⟩
  rw [hloc, hstore]
  simp only [Loop.voteOn]
  refine ⟨hflag, ?_, ?_, fun v hv => hmem v (List.mem_cons_of_mem vtx hv)⟩
  · intro v hv hnot
    by_cases hvtx : v = vtx
    · subst hvtx
      exact ⟨msg, hmsg, Function.update_self _ _ _⟩
    · rw [Function.update_of_ne hvtx]
      exact hsettled v hv fun hin => (List.mem_cons.mp hin).elim hvtx hnot
  · intro hq v hv
    rcases hall (hquiet hq) v hv with ⟨⟨old, hold, hval⟩, hactive⟩
    by_cases hvtx : v = vtx
    · subst hvtx
      rw [hmsg] at hold
      cases hold
      rw [Function.update_self, Function.update_self, if_pos hval]
      exact ⟨⟨msg, hmsg, rfl⟩, rfl⟩
    · rw [Function.update_of_ne hvtx, Function.update_of_ne hvtx]
      exact ⟨⟨old, hold, hval⟩, hactive⟩

/-- The flags are summed: the workers leave together if no vertex was active. -/
theorem good_reduce (hgood : ∀ w, Good lp getServer parts st w)
    (hphase : ∀ w, (st.loc w).phase = .vote [] ∨ (st.loc w).phase = .reduce) (x : Fin n) :
    Good lp getServer parts
      { st with loc := fun w => (st.loc w).afterReduce n (∑ w, (st.loc w).haltFlag) } x := by
  have hreduce := fun w => (hgood w).past_votes (hphase w)
  unfold Good
  simp only [Worker.afterReduce]
  by_cases hsum : ∑ w, (st.loc w).haltFlag = n
  · have hq : Quiet st := flags_of_sum (fun w => (hreduce w).1) hsum
    rw [if_pos hsum]
    exact fun v hv => ⟨(hreduce x).2.1 v hv, (hreduce x).2.2 hq v hv⟩
  · rw [if_neg hsum]
    exact (hreduce x).2.1

end Steps

section Invariant

variable [DecidableEq X] [Inhabited M] {lp : Loop W X M} {lib : Libs M}
  {getServer : Str → Fin m} {parts : Fin n → Part W} {init st st' : LoopState n m X M}

/-- One step keeps every worker in order. -/
theorem good_move (hplace : ∀ w w', (st.loc w).place = (st.loc w').place)
    (hpresent : (∃ w vtx todo, (st.loc w).phase = .vote (vtx :: todo)) →
      ∀ w, ∀ v ∈ (parts w).vertices, (st.store.value getServer v).isSome)
    (hgood : ∀ w, Good lp getServer parts st w) (h : Move lp lib getServer parts st st') :
    ∀ w, Good lp getServer parts st' w := by
  have hstage := same_stage hplace
  intro x
  have hx := hgood x
  cases h with
  | first w b todo hphase =>
      exact hx.issued_first (by rw [hstage x w, hphase]; rfl) rfl
  | compute w b todo hphase =>
      exact hx.issued_compute (by rw [hstage x w, hphase]; rfl) (hgood w) hphase rfl
  | vote w vtx todo msg hphase hmsg =>
      have hquiet : Quiet { st with
          loc := Function.update st.loc w (lp.voteOn (st.loc w) vtx todo msg)
          log := st.log ++ [(w, Call.read vtx)] } → Quiet st := by
        intro hq y
        have hy := hq y
        by_cases hyw : y = w
        · subst hyw
          simpa [Loop.voteOn] using hy
        · simpa [Function.update_of_ne hyw] using hy
      by_cases hxw : x = w
      · subst hxw
        exact good_voteOn hx hphase hmsg (Function.update_self _ _ _) rfl hquiet
      · exact hx.frame (Function.update_of_ne hxw _ _) rfl hquiet
  | abort w vtx todo hphase hmsg =>
      have hsome := hpresent ⟨w, vtx, todo, hphase⟩ w vtx ((hgood w).mem_of_vote hphase)
      rw [hmsg] at hsome
      cases hsome
  | begin hphase =>
      refine good_superstep _ (fun _ => rfl) ?_ x
      intro hq w v hv
      have hw := hgood w
      unfold Good at hw
      rcases hphase with hp | hp
      · -- before the first superstep all vertices are active, so there are none
        rw [hp w] at hw
        have hflag := hq w
        simp only [Loop.superstep] at hflag
        rw [if_pos (List.any_eq_true.mpr ⟨v, hv, hw v hv⟩)] at hflag
        cases hflag
      · rw [hp w] at hw
        exact hw v hv
  | computed hphase => exact hx.computed (hphase x) rfl rfl id
  | voted hphase => exact hx.past_votes (.inl (hphase x))
  | reduce hphase =>
      apply good_reduce hgood
      intro w
      exact hphase.imp (fun hp => hp w) (fun hp => hp w)
  | leave hphase =>
      unfold Good at hx ⊢
      rw [hphase x] at hx
      exact hx

/-- The program does not get stuck before its end. -/
theorem done_of_stuck (hn : 0 < n) (hplace : ∀ w w', (st.loc w).place = (st.loc w').place)
    (hgood : ∀ w, Good lp getServer parts st w) (hstuck : Stuck (lp.step lib getServer parts) st) :
    ∀ w, (st.loc w).phase = .done := by
  have hcall : ∀ w op next, lp.act (parts w) (st.loc w) n ≠ .call op next := by
    intro w op next hact
    have hnone := hstuck (.call w)
    rw [Loop.step, step_of_call hact] at hnone
    cases hnone
  have hsync : ∀ loc : Fin n → Worker X M,
      ¬∀ w, lp.act (parts w) (st.loc w) n = .sync (loc w) := by
    intro loc hact
    have hnone := hstuck .sync
    rw [Loop.step, step_of_sync hact] at hnone
    cases hnone
  have hreduce : ¬∀ w, lp.act (parts w) (st.loc w) n =
      .allreduce (st.loc w).haltFlag ((st.loc w).afterReduce n) := by
    intro hact
    have hnone := hstuck .allreduce
    rw [Loop.step, step_of_allreduce hact] at hnone
    cases hnone
  have hlast : ∀ w, (st.loc w).phase = (st.loc w).phase.stage.last := by
    intro w
    have hw := hgood w
    unfold Good at hw
    cases hp : (st.loc w).phase with
    | first todo | compute todo | vote todo =>
        cases todo with
        | nil => rfl
        | cons b todo => exact absurd (by rw [Loop.act, hp]) (hcall w _ _)
    | reduce | again | leave | done => rfl
    | aborted =>
        rw [hp] at hw
        exact hw.elim
  have hsame := same_phase hplace hlast ⟨0, hn⟩
  have hphase : ∀ w, (st.loc w).phase = (st.loc ⟨0, hn⟩).phase.stage.last := fun w =>
    (hsame w).trans (hlast ⟨0, hn⟩)
  by_cases hdone : (st.loc ⟨0, hn⟩).phase.stage = .done
  · rw [hdone] at hphase
    exact hphase
  · have hact := fun w => act_of_last lp (parts w) n (hphase w) hdone
    by_cases hred : (st.loc ⟨0, hn⟩).phase.stage = .reduce ∨
        (st.loc ⟨0, hn⟩).phase.stage = .vote ∧ lp.syncBeforeReduce = false
    · exact (hreduce fun w => (hact w).trans (if_pos hred)).elim
    · exact (hsync _ fun w => (hact w).trans (if_neg hred)).elim

end Invariant

/-! ### The vertex class -/

/-- The virtual functions of `vertex`. -/
structure Vertex (W X M : Type) where
  compute : Str → W → X → List (Bupdate M)
  mutableValue : M → X

namespace Vertex

variable (v : Vertex W X M)

/-- The loop of `run_supersteps`. -/
def runSupersteps : Loop W X M :=
  { compute := v.compute, mutableValue := v.mutableValue, syncBeforeReduce := false }

/-- The workers enter the loop as `init_vars` leaves them, with all vertices active. -/
def start (parts : Fin n → Part W) (vals : Fin n → Str → X) (servers : Servers m M) :
    LoopState n m X M where
  loc := fun w => v.runSupersteps.superstep (parts w) { vertexValMap := vals w, phase := .again }
  store := servers

end Vertex

/-- A worker has left the loop. -/
def Worker.LeftLoop (l : Worker X M) : Prop :=
  l.phase = .leave ∨ l.phase = .done

theorem Worker.leftLoop_iff {l : Worker X M} :
    l.LeftLoop ↔ l.place.1 = .leave ∨ l.place.1 = .done := by
  unfold LeftLoop Worker.place
  cases l.phase <;> simp [Phase.stage]

theorem Good.of_leftLoop {lp : Loop W X M} {getServer : Str → Fin m} {parts : Fin n → Part W}
    {st : LoopState n m X M} {w : Fin n} (h : Good lp getServer parts st w)
    (hleft : (st.loc w).LeftLoop) : ∀ v ∈ (parts w).vertices, Settled lp getServer st w v ∧
      (st.loc w).vertexActiveMap v = false := by
  unfold Good at h
  rcases hleft with hp | hp
  · rw [hp] at h
    exact h
  · rw [hp] at h
    exact h

section Theorem

variable [DecidableEq X] [Inhabited M] {v : Vertex W X M} {lib : Libs M}
  {getServer : Str → Fin m} {parts : Fin n → Part W} {vals : Fin n → Str → X}
  {servers : Servers m M} {st : LoopState n m X M}

omit [DecidableEq X] [Inhabited M] in
theorem start_place (w w' : Fin n) :
    ((v.start parts vals servers).loc w).place = ((v.start parts vals servers).loc w').place := by
  simp [Vertex.start]

/-- The invariant of `run_supersteps`: no read fails, and every worker is in order. -/
theorem good_of_reachable
    (hpresent : ∀ w, ∀ vtx ∈ (parts w).vertices, (servers.value getServer vtx).isSome)
    (h : Reachable (v.runSupersteps.step lib getServer parts) (v.start parts vals servers) st) :
    (∀ w, ∀ vtx ∈ (parts w).vertices, (st.store.value getServer vtx).isSome) ∧
      ∀ w, Good v.runSupersteps getServer parts st w := by
  have hinv : Reachable (v.runSupersteps.step lib getServer parts) (v.start parts vals servers) st ∧
      (∀ w, ∀ vtx ∈ (parts w).vertices, (st.store.value getServer vtx).isSome) ∧
      ∀ w, Good v.runSupersteps getServer parts st w := by
    apply h.invariant (P := fun st =>
      Reachable (v.runSupersteps.step lib getServer parts) (v.start parts vals servers) st ∧
      (∀ w, ∀ vtx ∈ (parts w).vertices, (st.store.value getServer vtx).isSome) ∧
      ∀ w, Good v.runSupersteps getServer parts st w)
    · refine ⟨.refl _, hpresent, ?_⟩
      apply good_superstep ⟨fun w => { vertexValMap := vals w, phase := .again }, servers, []⟩
        (fun _ => rfl)
      intro hq w vtx hvtx
      have hflag := hq w
      simp only [Vertex.start, Loop.superstep] at hflag
      rw [if_pos (List.any_eq_true.mpr ⟨vtx, hvtx, rfl⟩)] at hflag
      cases hflag
    · intro s l s' hs hstep
      rcases hs with ⟨hreach, hsome, hgood⟩
      have hmove := move_of_step (same_place start_place hreach) hstep
      refine ⟨hreach.tail hstep, ?_,
        good_move (same_place start_place hreach) (fun _ => hsome) hgood hmove⟩
      intro w vtx hvtx
      have hkey := hsome w vtx hvtx
      cases hmove with
      | first | compute => exact Servers.isSome_value_perform hkey
      | vote | abort | begin | computed | voted | reduce | leave => exact hkey
  exact hinv.2

/-- BSP isolation and halting. While a worker votes, the servers hold what the bupdates of the
    supersteps that all workers have begun make of the first values, in some order, each once.
    All workers leave the loop after equally many supersteps, and then every vertex is inactive
    and has the value that the server holds for it. -/
theorem run_supersteps_isolated
    (hpresent : ∀ w, ∀ vtx ∈ (parts w).vertices, (servers.value getServer vtx).isSome)
    (h : Reachable (v.runSupersteps.step lib getServer parts) (v.start parts vals servers) st) :
    (∀ w vtx todo, (st.loc w).phase = .vote (vtx :: todo) →
      ∃ order : List (Fin n × Bupdate M),
        st.store = replay (Servers.perform lib getServer) servers
          (order.map fun e => e.2.call) ∧
        ∀ w', (st.loc w').issued.length = (st.loc w).issued.length ∧
          bupdatesBy w' order = (st.loc w').issued.flatten) ∧
    (∀ w w', (st.loc w).LeftLoop → (st.loc w').LeftLoop ∧
      (st.loc w').issued.length = (st.loc w).issued.length) ∧
    ∀ w, (st.loc w).LeftLoop → ∀ vtx ∈ (parts w).vertices,
      (st.loc w).vertexActiveMap vtx = false ∧
      ∃ msg, st.store.value getServer vtx = some msg ∧
        (st.loc w).vertexValMap vtx = v.mutableValue msg := by
  have hplace := same_place start_place h
  have hlength : ∀ w w', (st.loc w').issued.length = (st.loc w).issued.length := fun w w' =>
    congrArg Prod.snd (hplace w' w)
  have hgood := (good_of_reachable hpresent h).2
  refine ⟨?_, ?_, ?_⟩
  · intro w vtx todo hphase
    refine ⟨bupdatesOf st.log, store_eq rfl h, fun w' => ⟨hlength w w', ?_⟩⟩
    have hissued := issued_eq rfl (by simp [Vertex.start, Loop.superstep, Phase.left]) h w'
    have hstage := same_stage hplace w' w
    rw [hphase] at hstage
    rwa [Phase.left_of_vote hstage, List.append_nil] at hissued
  · intro w w' hleft
    refine ⟨?_, hlength w w'⟩
    rw [Worker.leftLoop_iff] at hleft ⊢
    rwa [hplace w' w]
  · intro w hleft vtx hvtx
    have hw := (hgood w).of_leftLoop hleft vtx hvtx
    exact ⟨hw.2, hw.1⟩

end Theorem

/-- Each vertex adds its value to its neighbors. -/
def addUp : Vertex Unit Int Int where
  compute := fun neighbor _ val => [⟨neighbor, val, some ⟨lit "update.so", lit "add"⟩⟩]
  mutableValue := id

/-- Two workers with a vertex each and an edge from the first to the second. -/
def twoParts (w : Fin 2) : Part Unit :=
  if w.val = 0 then ⟨[lit "a"], fun _ => [(lit "b", ())]⟩ else ⟨[lit "b"], fun _ => []⟩

/-- The server has values of the two vertices. -/
def twoValues : Servers 1 Int := fun _ =>
  { tblStore := (Kvs.set {} (lit "a") 1).set (lit "b") 2 }

/-- Three supersteps: the second vertex changes in the first one only. -/
def threeSupersteps (v w : Fin 2) : List (Label 2) :=
  [.call v, .sync, .call v, .call w, .allreduce, .sync, .sync, .call w, .call v, .allreduce, .sync,
    .sync, .call v, .call w, .allreduce, .sync]

theorem run_supersteps_isolated_threeSupersteps :
    ∃ st, run (addUp.runSupersteps.step addMulLib (fun _ => 0) twoParts)
        (addUp.start twoParts (fun w _ => (w : Int) + 1) twoValues)
        (threeSupersteps 0 1) = some st ∧
      (st.loc 1).LeftLoop ∧ (st.loc 1).issued.length = (st.loc 0).issued.length ∧
      ∀ vtx ∈ (twoParts 1).vertices, (st.loc 1).vertexActiveMap vtx = false ∧
        ∃ msg, st.store.value (fun _ => 0) vtx = some msg ∧
          (st.loc 1).vertexValMap vtx = addUp.mutableValue msg := by
  have hpresent : ∀ w, ∀ vtx ∈ (twoParts w).vertices,
      (twoValues.value (fun _ => 0) vtx).isSome := by decide
  have hend : (run (addUp.runSupersteps.step addMulLib (fun _ => 0) twoParts)
      (addUp.start twoParts (fun w _ => (w : Int) + 1) twoValues) (threeSupersteps 0 1)).map
        (fun st => (st.loc 1).place.1) = some .done := by decide
  rcases Option.map_eq_some_iff.mp hend with ⟨st, hrun, hdone⟩
  have hleft : (st.loc 1).LeftLoop := Worker.leftLoop_iff.mpr (.inr hdone)
  have hiso := run_supersteps_isolated hpresent ⟨threeSupersteps 0 1, hrun⟩
  exact ⟨st, hrun, hleft, (hiso.2.1 0 1 ((hiso.2.1 1 0 hleft).1)).2, hiso.2.2 1 hleft⟩

end Paracel.Pregel
