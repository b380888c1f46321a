import Paracel.Ps.Calls

/-!
# The loop over supersteps

The loop of `vertex::run_supersteps` (`include/pregel/vertex.hpp`). The loop of
`max_vertex_value::solve` is the same but for one barrier more before the
`allreduce` and the bupdates of a superstep 0 before it, so both are one
definition here. `compute` only issues blocking bupdates; as they do not change
the worker's maps, the bupdates of a superstep are listed when it starts. The
keys of the maps do not change, and each worker goes through them in one order.
-/

namespace Paracel.Pregel

open StepSystem Spmd

/-- The vertices of a worker, the keys of its maps, and `vertex_adj_edge_val_map`. -/
structure Part (W : Type) where
  vertices : List Str
  adjacent : Str → List (Str × W)

/-- Where a worker is in its program, and what is left of the loop it is in. A loop with
    nothing left is at the barrier behind it. -/
inductive Phase (M : Type) where
  | first (todo : List (Bupdate M))
  | compute (todo : List (Bupdate M))
  | vote (todo : List Str)
  | reduce
  | again
  | leave
  | done
  | aborted

/-- The state of a worker; `issued` records the bupdates of each superstep so far. -/
structure Worker (X M : Type) where
  vertexValMap : Str → X
  vertexActiveMap : Str → Bool := fun _ => true
  haltFlag : Int := 1
  phase : Phase M
  issued : List (List (Bupdate M)) := []

/-- What the programs fill in. -/
structure Loop (W X M : Type) where
  compute : Str → W → X → List (Bupdate M)
  mutableValue : M → X
  syncBeforeReduce : Bool

variable {W X M : Type}

section Definitions

variable (lp : Loop W X M) (part : Part W) (l : Worker X M)

/-- The bupdates that `compute` issues for the neighbors of the active vertices. -/
def Loop.requests : List (Bupdate M) :=
  (part.vertices.filter l.vertexActiveMap).flatMap fun vtx =>
    (part.adjacent vtx).flatMap fun edgeInfo =>
      lp.compute edgeInfo.1 edgeInfo.2 (l.vertexValMap vtx)

/-- The start of a superstep; the flag stays 1 only where no vertex is active. -/
def Loop.superstep : Worker X M :=
  { l with
    haltFlag := if part.vertices.any l.vertexActiveMap then 0 else 1
    phase := .compute (lp.requests part l)
    issued := l.issued ++ [lp.requests part l] }

/-- One vertex in `vote_to_halt`, with the value read for it. -/
def Loop.voteOn [DecidableEq X] (vtx : Str) (todo : List Str) (msg : M) : Worker X M :=
  let newVal := lp.mutableValue msg
  { l with
    vertexValMap := Function.update l.vertexValMap vtx newVal
    vertexActiveMap :=
      Function.update l.vertexActiveMap vtx (if l.vertexValMap vtx = newVal then false else true)
    phase := .vote todo }

/-- After `allreduce`: a worker leaves the loop if no worker had an active vertex. -/
def Worker.afterReduce (workerSize : Nat) (sum : Int) : Worker X M :=
  { l with
    haltFlag := sum
    phase := if sum = workerSize then .leave else .again }

/-- What a worker does next. Reading a key that the server does not have fails the
    `assert` of `pull`. -/
def Loop.act [DecidableEq X] (workerSize : Nat) :
    Spmd.Action (Worker X M) (Call M) (Option M) :=
  match l.phase with
  | .first (b :: todo) => .call b.call fun _ => { l with phase := .first todo }
  | .first [] => .sync (lp.superstep part l)
  | .compute (b :: todo) => .call b.call fun _ => { l with phase := .compute todo }
  | .compute [] => .sync { l with phase := .vote part.vertices }
  | .vote (vtx :: todo) => .call (.read vtx) fun
      | some msg => lp.voteOn l vtx todo msg
      | none => { l with phase := .aborted }
  | .vote [] =>
      if lp.syncBeforeReduce then .sync { l with phase := .reduce }
      else .allreduce l.haltFlag (l.afterReduce workerSize)
  | .reduce => .allreduce l.haltFlag (l.afterReduce workerSize)
  | .again => .sync (lp.superstep part l)
  | .leave => .sync { l with phase := .done }
  | .done | .aborted => .halt

end Definitions

/-! ### All workers are in the same place -/

/-- The loops and barriers of the program, without what is left. -/
inductive Stage where
  | first
  | compute
  | vote
  | reduce
  | again
  | leave
  | done
deriving DecidableEq

def Phase.stage : Phase M → Stage
  | .first _ => .first
  | .compute _ => .compute
  | .vote _ | .aborted => .vote
  | .reduce => .reduce
  | .again => .again
  | .leave => .leave
  | .done => .done

/-- The phase at the end of a stage. -/
def Stage.last : Stage → Phase M
  | .first => .first []
  | .compute => .compute []
  | .vote => .vote []
  | .reduce => .reduce
  | .again => .again
  | .leave => .leave
  | .done => .done

/-- The place of a worker, with the number of supersteps it has begun. -/
def Worker.place (l : Worker X M) : Stage × Nat :=
  (l.phase.stage, l.issued.length)

@[simp] theorem place_superstep (lp : Loop W X M) (part : Part W) (l : Worker X M) :
    (lp.superstep part l).place = (.compute, l.issued.length + 1) := by
  simp [Worker.place, Loop.superstep, Phase.stage]

section Act

variable [DecidableEq X] {lp : Loop W X M} {part : Part W} {workerSize : Nat}
  {l next : Worker X M}

theorem act_call {op : Call M} {next : Option M → Worker X M}
    (h : lp.act part l workerSize = .call op next) :
    (∃ b todo, l.phase = .first (b :: todo) ∧ op = b.call ∧
      next = fun _ => { l with phase := .first todo }) ∨
    (∃ b todo, l.phase = .compute (b :: todo) ∧ op = b.call ∧
      next = fun _ => { l with phase := .compute todo }) ∨
    ∃ vtx todo, l.phase = .vote (vtx :: todo) ∧ op = .read vtx ∧
      (∀ msg, next (some msg) = lp.voteOn l vtx todo msg) ∧
      next none = { l with phase := .aborted } := by
  unfold Loop.act at h
  split at h <;> try cases h
  case h_1 b todo hphase => exact .inl ⟨b, todo, hphase, rfl, rfl⟩
  case h_3 b todo hphase => exact .inr (.inl ⟨b, todo, hphase, rfl, rfl⟩)
  case h_5 vtx todo hphase => exact .inr (.inr ⟨vtx, todo, hphase, rfl, fun _ => rfl, rfl⟩)
  case h_6 hphase => split at h <;> cases h

/-- Where a worker goes on after the barrier that it is at. -/
def Loop.afterSync (lp : Loop W X M) (part : Part W) (l : Worker X M) : Worker X M :=
  match l.phase with
  | .compute _ => { l with phase := .vote part.vertices }
  | .vote _ => { l with phase := .reduce }
  | .leave => { l with phase := .done }
  | _ => lp.superstep part l

theorem act_sync (h : lp.act part l workerSize = .sync next) :
    (l.phase = .first [] ∨ l.phase = .compute [] ∨ l.phase = .vote [] ∨ l.phase = .again ∨
      l.phase = .leave) ∧ next = lp.afterSync part l := by
  unfold Loop.act at h
  split at h <;> try cases h
  case h_2 hphase => exact ⟨.inl hphase, by rw [Loop.afterSync, hphase]⟩
  case h_4 hphase => exact ⟨.inr (.inl hphase), by rw [Loop.afterSync, hphase]⟩
  case h_6 hphase =>
    split at h <;> cases h
    exact ⟨.inr (.inr (.inl hphase)), by rw [Loop.afterSync, hphase]⟩
  case h_8 hphase => exact ⟨.inr (.inr (.inr (.inl hphase))), by rw [Loop.afterSync, hphase]⟩
  case h_9 hphase => exact ⟨.inr (.inr (.inr (.inr hphase))), by rw [Loop.afterSync, hphase]⟩

theorem act_allreduce {v : Int} {next : Int → Worker X M}
    (h : lp.act part l workerSize = .allreduce v next) :
    (l.phase = .vote [] ∨ l.phase = .reduce) ∧ v = l.haltFlag ∧
      next = l.afterReduce workerSize := by
  unfold Loop.act at h
  split at h <;> try cases h
  case h_6 hphase =>
    split at h <;> cases h
    exact ⟨.inl hphase, rfl, rfl⟩
  case h_7 hphase => exact ⟨.inr hphase, rfl, rfl⟩

/-- What comes at the end of a stage: the sum of the flags or a barrier. -/
theorem act_of_last (lp : Loop W X M) (part : Part W) (workerSize : Nat) {s : Stage}
    (hp : l.phase = s.last) (hs : s ≠ .done) : lp.act part l workerSize =
      if s = .reduce ∨ s = .vote ∧ lp.syncBeforeReduce = false then
        .allreduce l.haltFlag (l.afterReduce workerSize)
      else .sync (lp.afterSync part l) := by
  cases s with
  | vote => cases hsync : lp.syncBeforeReduce <;>
      simp [Loop.act, Loop.afterSync, hp, Stage.last, hsync]
  | first | compute | reduce | again | leave => simp [Loop.act, Loop.afterSync, hp, Stage.last]
  | done => exact absurd rfl hs

end Act

variable {n m : Nat}

/-- The states of `n` workers and `m` servers. -/
abbrev LoopState (n m : Nat) (X M : Type) := Spmd.State n (Worker X M) (Call M) (Servers m M)

/-- A step of a worker, or all workers leaving a barrier or an `allreduce`. -/
def Loop.step [DecidableEq X] [Inhabited M] (lp : Loop W X M) (lib : Libs M)
    (getServer : Str → Fin m) (parts : Fin n → Part W) :
    LoopState n m X M → Label n → Option (LoopState n m X M) :=
  Spmd.step (fun w l => lp.act (parts w) l n) (Servers.perform lib getServer)

section Run

variable [DecidableEq X] [Inhabited M] {lp : Loop W X M} {lib : Libs M}
  {getServer : Str → Fin m} {parts : Fin n → Part W} {init st st' : LoopState n m X M}

/-- The workers go through the program together. -/
theorem same_place (hinit : ∀ w w', (init.loc w).place = (init.loc w').place)
    (h : Reachable (lp.step lib getServer parts) init st) :
    ∀ w w', (st.loc w).place = (st.loc w').place := by
  apply agree Worker.place hinit (h := h)
  · intro w l op next r hact
    rcases act_call hact with ⟨b, todo, hphase, -, rfl⟩ | ⟨b, todo, hphase, -, rfl⟩ |
      ⟨vtx, todo, hphase, -, hsome, hnone⟩
    · simp [Worker.place, hphase, Phase.stage]
    · simp [Worker.place, hphase, Phase.stage]
    · cases r with
      | none => simp [hnone, Worker.place, hphase, Phase.stage]
      | some msg => simp [hsome, Loop.voteOn, Worker.place, hphase, Phase.stage]
  · intro w w' l l' next next' hl hact hact'
    have hfst := congrArg Prod.fst hl
    have hsnd := congrArg Prod.snd hl
    simp only [Worker.place] at hfst hsnd
    rcases act_sync hact with ⟨hp | hp | hp | hp | hp, rfl⟩ <;>
      rcases act_sync hact' with ⟨hp' | hp' | hp' | hp' | hp', rfl⟩ <;>
      rw [hp, hp'] at hfst <;> cases hfst
    all_goals simp [Worker.place, Loop.afterSync, Loop.superstep, Phase.stage, hp, hp', hsnd]
  · intro w w' l l' v v' next next' sum hl hact hact'
    rcases act_allreduce hact with ⟨-, -, rfl⟩
    rcases act_allreduce hact' with ⟨-, -, rfl⟩
    have hsnd := congrArg Prod.snd hl
    simp only [Worker.place] at hsnd
    simp only [Worker.place, Worker.afterReduce, hsnd]

/-- What a step does when the workers are in the same place. -/
inductive Move (lp : Loop W X M) (lib : Libs M) (getServer : Str → Fin m) (parts : Fin n → Part W)
    (st : LoopState n m X M) : LoopState n m X M → Prop where
  | first (w : Fin n) (b : Bupdate M) (todo : List (Bupdate M))
      (hphase : (st.loc w).phase = .first (b :: todo)) :
      Move lp lib getServer parts st {
        loc := Function.update st.loc w { st.loc w with phase := .first todo }
        store := (Servers.perform lib getServer st.store b.call).2
        log := st.log ++ [(w, b.call)] }
  | compute (w : Fin n) (b : Bupdate M) (todo : List (Bupdate M))
      (hphase : (st.loc w).phase = .compute (b :: todo)) :
      Move lp lib getServer parts st {
        loc := Function.update st.loc w { st.loc w with phase := .compute todo }
        store := (Servers.perform lib getServer st.store b.call).2
        log := st.log ++ [(w, b.call)] }
  | vote (w : Fin n) (vtx : Str) (todo : List Str) (msg : M)
      (hphase : (st.loc w).phase = .vote (vtx :: todo))
      (hmsg : st.store.value getServer vtx = some msg) :
      Move lp lib getServer parts st {
        loc := Function.update st.loc w (lp.voteOn (st.loc w) vtx todo msg)
        store := st.store
        log := st.log ++ [(w, .read vtx)] }
  | abort (w : Fin n) (vtx : Str) (todo : List Str)
      (hphase : (st.loc w).phase = .vote (vtx :: todo))
      (hmsg : st.store.value getServer vtx = none) :
      Move lp lib getServer parts st {
        loc := Function.update st.loc w { st.loc w with phase := .aborted }
        store := st.store
        log := st.log ++ [(w, .read vtx)] }
  | begin (hphase : (∀ w, (st.loc w).phase = .first []) ∨ ∀ w, (st.loc w).phase = .again) :
      Move lp lib getServer parts st
        { st with loc := fun w => lp.superstep (parts w) (st.loc w) }
  | computed (hphase : ∀ w, (st.loc w).phase = .compute []) :
      Move lp lib getServer parts st
        { st with loc := fun w => { st.loc w with phase := .vote (parts w).vertices } }
  | voted (hphase : ∀ w, (st.loc w).phase = .vote []) :
      Move lp lib getServer parts st
        { st with loc := fun w => { st.loc w with phase := .reduce } }
  | reduce (hphase : (∀ w, (st.loc w).phase = .vote []) ∨ ∀ w, (st.loc w).phase = .reduce) :
      Move lp lib getServer parts st
        { st with loc := fun w => (st.loc w).afterReduce n (∑ w, (st.loc w).haltFlag) }
  | leave (hphase : ∀ w, (st.loc w).phase = .leave) :
      Move lp lib getServer parts st
        { st with loc := fun w => { st.loc w with phase := .done } }

omit [DecidableEq X] [Inhabited M] in
theorem same_stage (hplace : ∀ w w', (st.loc w).place = (st.loc w').place) (w w' : Fin n) :
    (st.loc w).phase.stage = (st.loc w').phase.stage :=
  congrArg Prod.fst (hplace w w')

omit [DecidableEq X] [Inhabited M] in
/-- Workers that are at the ends of their stages are in the same phase. -/
theorem same_phase (hplace : ∀ w w', (st.loc w).place = (st.loc w').place)
    (hlast : ∀ w, (st.loc w).phase = (st.loc w).phase.stage.last) (w₀ : Fin n) :
    ∀ w, (st.loc w).phase = (st.loc w₀).phase := by
  intro w
  rw [hlast w, same_stage hplace w w₀, ← hlast w₀]

theorem move_of_step (hplace : ∀ w w', (st.loc w).place = (st.loc w').place) {l : Label n}
    (h : lp.step lib getServer parts st l = some st') : Move lp lib getServer parts st st' := by
  cases step_cases h with
  | call w op next hact =>
      rcases act_call hact with ⟨b, todo, hphase, rfl, rfl⟩ | ⟨b, todo, hphase, rfl, rfl⟩ |
        ⟨vtx, todo, hphase, rfl, hsome, hnone⟩
      · exact .first w b todo hphase
      · exact .compute w b todo hphase
      · rw [Servers.perform_read_fst, Servers.perform_read_snd]
        cases hmsg : st.store.value getServer vtx with
        | none =>
            rw [hnone]
            exact .abort w vtx todo hphase hmsg
        | some msg =>
            rw [hsome]
            exact .vote w vtx todo msg hphase hmsg
  | sync loc hact =>
      rcases isEmpty_or_nonempty (Fin n) with hempty | ⟨⟨w₀⟩⟩
      · have hloc : loc = fun w => lp.superstep (parts w) (st.loc w) := Subsingleton.elim _ _
        rw [hloc]
        exact .begin (.inl fun w => hempty.elim w)
      · have hlast : ∀ w, (st.loc w).phase = (st.loc w).phase.stage.last := by
          intro w
          rcases (act_sync (hact w)).1 with hp | hp | hp | hp | hp <;> rw [hp] <;> rfl
        have hsame := same_phase hplace hlast w₀
        have hloc : loc = fun w => lp.afterSync (parts w) (st.loc w) :=
          funext fun w => (act_sync (hact w)).2
        rcases (act_sync (hact w₀)).1 with hp | hp | hp | hp | hp <;>
          have hall := fun w => (hsame w).trans hp <;>
          simp only [hloc, Loop.afterSync, hall]
        · exact .begin (.inl hall)
        · exact .computed hall
        · exact .voted hall
        · exact .begin (.inr hall)
        · exact .leave hall
  | allreduce v next hact =>
      have hv : v = fun w => (st.loc w).haltFlag := funext fun w => (act_allreduce (hact w)).2.1
      have hnext : next = fun w => (st.loc w).afterReduce n :=
        funext fun w => (act_allreduce (hact w)).2.2
      have hlast : ∀ w, (st.loc w).phase = (st.loc w).phase.stage.last := by
        intro w
        rcases (act_allreduce (hact w)).1 with hp | hp <;> rw [hp] <;> rfl
      rw [hv, hnext]
      apply Move.reduce
      rcases isEmpty_or_nonempty (Fin n) with hempty | ⟨⟨w₀⟩⟩
      · exact .inl fun w => hempty.elim w
      · have hsame := same_phase hplace hlast w₀
        rcases (act_allreduce (hact w₀)).1 with hp | hp
        · exact .inl fun w => (hsame w).trans hp
        · exact .inr fun w => (hsame w).trans hp

end Run

end Paracel.Pregel
