import Mathlib.Logic.Function.Basic
import Paracel.Misc.Confluence

/-!
# Processes that exchange messages

Each of `n` processes runs a deterministic program: by its local state it stops,
does something of its own, sends a message or waits for the next message of one
given process. A send does not wait, and the messages between two processes
arrive in order. As a receiver says whom it waits for, the order in which the
processes take their steps makes no difference.
-/

namespace Network

open StepSystem

/-- What a process does next. -/
inductive Action (L M : Type) where
  | halt
  | tau (next : L)
  | send (dest : Nat) (m : M) (next : L)
  | recv (src : Nat) (next : M → L)

/-- The local states, all messages sent from one process to another so far, and how many of
    them were received. -/
structure State (n : Nat) (L M : Type) where
  loc : Fin n → L
  sent : Nat → Nat → List M := fun _ _ => []
  taken : Nat → Nat → Nat := fun _ _ => 0

/-- Changes a function of a sender and a receiver at one place. -/
def update₂ {α : Type} (f : Nat → Nat → α) (s d : Nat) (v : α) : Nat → Nat → α :=
  fun s' d' => if s' = s ∧ d' = d then v else f s' d'

@[simp] theorem update₂_self {α : Type} (f : Nat → Nat → α) (s d : Nat) (v : α) :
    update₂ f s d v s d = v :=
  if_pos ⟨rfl, rfl⟩

theorem update₂_of_ne {α : Type} {f : Nat → Nat → α} {s d s' d' : Nat} {v : α}
    (h : ¬(s' = s ∧ d' = d)) : update₂ f s d v s' d' = f s' d' :=
  if_neg h

theorem update₂_comm {α : Type} (f : Nat → Nat → α) {s d s' d' : Nat} (h : ¬(s' = s ∧ d' = d))
    (v v' : α) : update₂ (update₂ f s d v) s' d' v' = update₂ (update₂ f s' d' v') s d v := by
  funext x y
  unfold update₂
  by_cases h₁ : x = s ∧ y = d
  · rcases h₁ with ⟨rfl, rfl⟩
    rw [if_neg (fun hx => h ⟨hx.1.symm, hx.2.symm⟩), if_pos ⟨rfl, rfl⟩, if_pos ⟨rfl, rfl⟩]
  · by_cases h₂ : x = s' ∧ y = d'
    · rw [if_pos h₂, if_neg h₁, if_pos h₂]
    · rw [if_neg h₂, if_neg h₁, if_neg h₁, if_neg h₂]

variable {n : Nat} {L M : Type}

/-- What a step changes: the local state, a message sent, the sender of a message received. -/
structure Effect (L M : Type) where
  next : L
  out : Option (Nat × M) := none
  src : Option Nat := none

/-- The message that `r` receives next from `src`, if it is sent. -/
def State.pending (st : State n L M) (src r : Nat) : Option M :=
  (st.sent src r)[st.taken src r]?

/-- What the next step of process `r` changes; a receiver waits until its message is sent. -/
def effect (act : Fin n → L → Action L M) (st : State n L M) (r : Fin n) : Option (Effect L M) :=
  match act r (st.loc r) with
  | .halt => none
  | .tau next => some { next := next }
  | .send dest m next => some { next := next, out := some (dest, m) }
  | .recv src next => (st.pending src r).map fun m => { next := next m, src := some src }

/-- The state after the change. -/
def State.apply (st : State n L M) (r : Fin n) (e : Effect L M) : State n L M where
  loc := Function.update st.loc r e.next
  sent :=
    match e.out with
    | none => st.sent
    | some (dest, m) => update₂ st.sent r dest (st.sent r dest ++ [m])
  taken :=
    match e.src with
    | none => st.taken
    | some src => update₂ st.taken src r (st.taken src r + 1)

/-- Process `r` takes its next step. -/
def step (act : Fin n → L → Action L M) (st : State n L M) (r : Fin n) : Option (State n L M) :=
  (effect act st r).map (st.apply r)

variable {act : Fin n → L → Action L M} {st st' : State n L M} {r : Fin n}

theorem step_of_tau {next : L} (h : act r (st.loc r) = .tau next) :
    step act st r = some { st with loc := Function.update st.loc r next } := by
  simp only [step, effect, h, Option.map_some, State.apply]

theorem step_of_send {dest : Nat} {m : M} {next : L} (h : act r (st.loc r) = .send dest m next) :
    step act st r = some { st with
      loc := Function.update st.loc r next
      sent := update₂ st.sent r dest (st.sent r dest ++ [m]) } := by
  simp only [step, effect, h, Option.map_some, State.apply]

theorem step_of_recv {src : Nat} {next : M → L} {m : M} (h : act r (st.loc r) = .recv src next)
    (hm : st.pending src r = some m) :
    step act st r = some { st with
      loc := Function.update st.loc r (next m)
      taken := update₂ st.taken src r (st.taken src r + 1) } := by
  simp only [step, effect, h, hm, Option.map_some, State.apply]

/-- What a step does, by the action of the process. -/
inductive Change (act : Fin n → L → Action L M) (st : State n L M) (r : Fin n) :
    State n L M → Prop where
  | tau (next : L) (hact : act r (st.loc r) = .tau next) :
      Change act st r { st with loc := Function.update st.loc r next }
  | send (dest : Nat) (m : M) (next : L) (hact : act r (st.loc r) = .send dest m next) :
      Change act st r { st with
        loc := Function.update st.loc r next
        sent := update₂ st.sent r dest (st.sent r dest ++ [m]) }
  | recv (src : Nat) (next : M → L) (m : M) (hact : act r (st.loc r) = .recv src next)
      (hm : st.pending src r = some m) :
      Change act st r { st with
        loc := Function.update st.loc r (next m)
        taken := update₂ st.taken src r (st.taken src r + 1) }

theorem step_cases (h : step act st r = some st') : Change act st r st' := by
  cases hact : act r (st.loc r) with
  | halt =>
      simp only [step, effect, hact, Option.map_none] at h
      cases h
  | tau next =>
      rw [step_of_tau hact] at h
      cases h
      exact .tau next hact
  | send dest m next =>
      rw [step_of_send hact] at h
      cases h
      exact .send dest m next hact
  | recv src next =>
      cases hm : st.pending src r with
      | none =>
          simp only [step, effect, hact, hm, Option.map_none] at h
          cases h
      | some m =>
          rw [step_of_recv hact hm] at h
          cases h
          exact .recv src next m hact hm

/-- Two steps of its own that a process makes one after the other. -/
theorem reachable_of_tau_tau {next next' : L} (h : act r (st.loc r) = .tau next)
    (h' : act r next = .tau next') :
    Reachable (step act) st { st with loc := Function.update st.loc r next' } := by
  have hstep : step act { st with loc := Function.update st.loc r next } r =
      some { st with loc := Function.update st.loc r next' } := by
    rw [step_of_tau (show act r (Function.update st.loc r next r) = .tau next' by
      simpa only [Function.update_self] using h')]
    simp only [Function.update_idem]
  exact (Reachable.single (step_of_tau h)).tail hstep

/-- A step of its own and a send. -/
theorem reachable_of_tau_send {next next' : L} {dest : Nat} {m : M}
    (h : act r (st.loc r) = .tau next) (h' : act r next = .send dest m next') :
    Reachable (step act) st { st with
      loc := Function.update st.loc r next'
      sent := update₂ st.sent r dest (st.sent r dest ++ [m]) } := by
  have hstep : step act { st with loc := Function.update st.loc r next } r =
      some { st with
        loc := Function.update st.loc r next'
        sent := update₂ st.sent r dest (st.sent r dest ++ [m]) } := by
    rw [step_of_send (show act r (Function.update st.loc r next r) = .send dest m next' by
      simpa only [Function.update_self] using h')]
    simp only [Function.update_idem]
  exact (Reachable.single (step_of_tau h)).tail hstep

theorem stuck_of_halt (h : ∀ r, act r (st.loc r) = .halt) : Stuck (step act) st := by
  intro r
  simp only [step, effect, h r, Option.map_none]

/-! ### The order of the steps -/

/-- A message that can be received still can after a step of another process. -/
theorem State.pending_apply {a b : Fin n} (hab : (b : Nat) ≠ a) {e : Effect L M} {src : Nat}
    {m : M} (hm : st.pending src b = some m) : (st.apply a e).pending src b = some m := by
  have htaken : (st.apply a e).taken src b = st.taken src b := by
    unfold State.apply
    cases e.src with
    | none => rfl
    | some s => exact update₂_of_ne fun h => hab h.2
  have hsent : ∃ ms, (st.apply a e).sent src b = st.sent src b ++ ms := by
    unfold State.apply
    cases e.out with
    | none => exact ⟨[], by simp⟩
    | some o =>
        by_cases h : src = a ∧ (b : Nat) = o.1
        · rcases h with ⟨rfl, hd⟩
          exact ⟨[o.2], by simp [hd]⟩
        · exact ⟨[], by simp [update₂_of_ne h]⟩
  rcases hsent with ⟨ms, hms⟩
  have hlen : st.taken src b < (st.sent src b).length := (List.getElem?_eq_some_iff.mp hm).1
  rw [State.pending, htaken, hms, List.getElem?_append_left hlen]
  exact hm

/-- So what a process does next does not depend on a step of another one. -/
theorem effect_apply {a b : Fin n} (hab : b ≠ a) {e e' : Effect L M}
    (hb : effect act st b = some e') : effect act (st.apply a e) b = some e' := by
  have hval : (b : Nat) ≠ a := fun h => hab (Fin.ext h)
  have hloc : (st.apply a e).loc b = st.loc b := Function.update_of_ne hab _ _
  unfold effect at hb ⊢
  rw [hloc]
  cases hact : act b (st.loc b) with
  | halt | tau | send =>
      simp only [hact] at hb ⊢
      exact hb
  | recv src next =>
      simp only [hact] at hb ⊢
      rcases Option.map_eq_some_iff.mp hb with ⟨m, hm, he⟩
      rw [State.pending_apply hval hm, Option.map_some, he]

theorem State.apply_comm {a b : Fin n} (hab : b ≠ a) (e e' : Effect L M) :
    (st.apply a e).apply b e' = (st.apply b e').apply a e := by
  have hval : (b : Nat) ≠ a := fun h => hab (Fin.ext h)
  have hne : ∀ x y : Nat, ¬((b : Nat) = a ∧ x = y) := fun _ _ h => hval h.1
  have hne' : ∀ x y : Nat, ¬(x = y ∧ (b : Nat) = a) := fun _ _ h => hval h.2
  simp only [State.apply, State.mk.injEq]
  refine ⟨Function.update_comm hab.symm _ _ _, ?_, ?_⟩
  · cases e.out with
    | none => rfl
    | some o =>
        cases e'.out with
        | none => rfl
        | some o' =>
            simp only
            rw [update₂_of_ne (hne _ _), update₂_of_ne fun h => hval h.1.symm,
              update₂_comm _ (hne _ _)]
  · cases e.src with
    | none => rfl
    | some s =>
        cases e'.src with
        | none => rfl
        | some s' =>
            simp only
            rw [update₂_of_ne (hne' _ _), update₂_of_ne fun h => hval h.2.symm,
              update₂_comm _ (hne' _ _)]

theorem diamond (act : Fin n → L → Action L M) : Diamond (step act) := by
  intro st a b st₁ st₂ hab ha hb
  rcases Option.map_eq_some_iff.mp ha with ⟨e, he, rfl⟩
  rcases Option.map_eq_some_iff.mp hb with ⟨e', he', rfl⟩
  refine ⟨(st.apply a e).apply b e', ?_, ?_⟩
  · rw [step, effect_apply (Ne.symm hab) he', Option.map_some]
  · rw [step, effect_apply hab he, Option.map_some, State.apply_comm (Ne.symm hab)]

end Network
