import Paracel.Misc.Network

/-!
# Messages in another form

Two networks whose processes do the same, but for the form of their states and of
their messages: what one sends as `m` the other sends as `dec m`, and a message
with which the first goes on to a state leads the second one to the form of that
state. Then the runs of the one are those of the other.
-/

namespace Network

open StepSystem

variable {n : Nat} {L L' M M' : Type}

/-- Corresponding actions of two processes. The messages of the first are such that `ok` holds
    of them. -/
inductive Action.Sim (φ : L → L') (dec : M → M') (ok : M → Prop) :
    Action L M → Action L' M' → Prop where
  | halt : Sim φ dec ok .halt .halt
  | tau (next : L) : Sim φ dec ok (.tau next) (.tau (φ next))
  | send (dest : Nat) (m : M) (next : L) (hm : ok m) :
      Sim φ dec ok (.send dest m next) (.send dest (dec m) (φ next))
  | recv (src : Nat) (next : M → L) (next' : M' → L')
      (hnext : ∀ m, ok m → φ (next m) = next' (dec m)) :
      Sim φ dec ok (.recv src next) (.recv src next')

theorem Action.Sim.eq_halt {φ : L → L'} {dec : M → M'} {ok : M → Prop} {a : Action L M}
    {a' : Action L' M'} (h : a.Sim φ dec ok a') : a = .halt ↔ a' = .halt := by
  cases h <;> simp

/-- A state in the other form. -/
def State.recode (φ : Fin n → L → L') (dec : M → M') (st : State n L M) : State n L' M' where
  loc r := φ r (st.loc r)
  sent s d := (st.sent s d).map dec
  taken := st.taken

/-- All messages that were sent are such that `ok` holds of them. -/
def State.AllSent (ok : M → Prop) (st : State n L M) : Prop :=
  ∀ s d, ∀ m ∈ st.sent s d, ok m

section Recode

variable {φ : Fin n → L → L'} {dec : M → M'} {ok : M → Prop}
  {act : Fin n → L → Action L M} {act' : Fin n → L' → Action L' M'}
  {st st' : State n L M} {r : Fin n}

theorem recode_update (φ : Fin n → L → L') (loc : Fin n → L) (r : Fin n) (next : L) :
    (fun q => φ q (Function.update loc r next q)) =
      Function.update (fun q => φ q (loc q)) r (φ r next) := by
  funext q
  by_cases hq : q = r
  · subst hq
    simp
  · simp [hq]

theorem recode_sent (dec : M → M') (sent : Nat → Nat → List M) (s d : Nat) (m : M) :
    (fun x y => (update₂ sent s d (sent s d ++ [m]) x y).map dec) =
      update₂ (fun x y => (sent x y).map dec) s d ((sent s d).map dec ++ [dec m]) := by
  funext x y
  unfold update₂
  split <;> simp

theorem pending_recode (φ : Fin n → L → L') (dec : M → M') (st : State n L M) (src r : Nat) :
    (st.recode φ dec).pending src r = (st.pending src r).map dec :=
  List.getElem?_map

/-- The second network does each step as the first one does it. -/
theorem step_recode (hact : (act r (st.loc r)).Sim (φ r) dec ok (act' r (φ r (st.loc r))))
    (hsent : st.AllSent ok) :
    step act' (st.recode φ dec) r = (step act st r).map (State.recode φ dec) := by
  have hloc : (st.recode φ dec).loc r = φ r (st.loc r) := rfl
  unfold step effect
  rw [hloc]
  generalize hgo : act r (st.loc r) = go at hact ⊢
  generalize act' r (φ r (st.loc r)) = go' at hact ⊢
  cases hact with
  | halt => rfl
  | tau next =>
      simp only [Option.map_some, State.apply, State.recode, recode_update]
  | send dest m next hm =>
      simp only [Option.map_some, State.apply, State.recode, recode_update, recode_sent]
  | recv src next next' hnext =>
      simp only [pending_recode]
      cases hpending : st.pending src r with
      | none => rfl
      | some m =>
          have hm : ok m := hsent src r m (List.mem_of_getElem? hpending)
          simp only [Option.map_some, State.apply, State.recode, recode_update, hnext m hm]

/-- What is sent in a step is such that `ok` holds of it. -/
theorem allSent_step (hsend : ∀ dest m next, act r (st.loc r) = .send dest m next → ok m)
    (hsent : st.AllSent ok) (h : step act st r = some st') : st'.AllSent ok := by
  cases step_cases h with
  | tau next hact => exact hsent
  | recv src next m hact hm => exact hsent
  | send dest m next hact =>
      intro s d m' hm'
      change m' ∈ update₂ st.sent r dest (st.sent r dest ++ [m]) s d at hm'
      by_cases hsd : s = r ∧ d = dest
      · rw [hsd.1, hsd.2, update₂_self, List.mem_append, List.mem_singleton] at hm'
        rcases hm' with hm' | rfl
        · exact hsent r dest m' hm'
        · exact hsend dest m' next hact
      · rw [update₂_of_ne hsd] at hm'
        exact hsent s d m' hm'

/-- A run of the first network is one of the second, as long as `P` holds of its states. -/
theorem reachable_recode {P : State n L M → Prop}
    (hstep : ∀ s r s', P s → step act s r = some s' → P s')
    (hrecode : ∀ s r, P s →
      step act' (s.recode φ dec) r = (step act s r).map (State.recode φ dec))
    {init : State n L M} (hinit : P init) (h : Reachable (step act) init st) :
    P st ∧ Reachable (step act') (init.recode φ dec) (st.recode φ dec) := by
  apply h.invariant
    (P := fun s => P s ∧ Reachable (step act') (init.recode φ dec) (s.recode φ dec))
  · exact ⟨hinit, Reachable.refl _⟩
  · rintro s r s' ⟨hs, hreach⟩ hs'
    refine ⟨hstep s r s' hs hs', hreach.tail (a := r) ?_⟩
    rw [hrecode s r hs, hs', Option.map_some]

end Recode

end Network
