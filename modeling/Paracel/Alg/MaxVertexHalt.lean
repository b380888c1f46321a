import Mathlib.Algebra.Order.BigOperators.Group.Finset
import Paracel.Alg.MaxVertexValue

/-!
# The loop of `max_vertex_value` ends

A vertex can only change its value to a greater initial value, so the number of
initial values above it falls. A superstep in which no value changes leaves no
vertex active, and the next one is the last. Hence the number of supersteps is
bounded, and with it the number of steps.
-/

namespace Paracel.MaxVertexValue

open StepSystem Spmd Pregel

variable {W α : Type} {n m : Nat} [LinearOrder α]

/-- The initial values of all rows. -/
def initials (grp : Fin n → Digraph W) (stod : Str → α) : Finset α :=
  (((List.finRange n).flatMap fun w => rows (grp w)).map stod).toFinset

/-- How many initial values are greater. -/
def above (grp : Fin n → Digraph W) (stod : Str → α) (a : α) : Nat :=
  ((initials grp stod).filter fun b => a < b).card

/-- The sum over all vertices. -/
def height (grp : Fin n → Digraph W) (stod : Str → α) (vals : Fin n → Str → α) : Nat :=
  ∑ w, ∑ v ∈ (rows (grp w)).toFinset, above grp stod (vals w v)

/-- The values of all workers. -/
def valsOf (st : LoopState n m α α) (w : Fin n) : Str → α :=
  (st.loc w).vertexValMap

section Height

variable {grp : Fin n → Digraph W} {stod : Str → α} {vals vals' : Fin n → Str → α}

theorem From.mem_initials {x : Str} {a : α} (h : From grp stod x a) : a ∈ initials grp stod := by
  rcases h with ⟨u, ⟨w, hu⟩, -, rfl⟩
  apply List.mem_toFinset.mpr
  apply List.mem_map.mpr
  exact ⟨u, List.mem_flatMap.mpr ⟨w, List.mem_finRange w, hu⟩, rfl⟩

theorem above_le {a b : α} (h : a ≤ b) : above grp stod b ≤ above grp stod a := by
  apply Finset.card_le_card
  intro c hc
  rw [Finset.mem_filter] at hc ⊢
  exact ⟨hc.1, h.trans_lt hc.2⟩

theorem above_lt {x : Str} {a b : α} (h : a < b) (hb : From grp stod x b) :
    above grp stod b < above grp stod a := by
  apply Finset.card_lt_card
  rw [Finset.ssubset_iff_of_subset]
  · refine ⟨b, Finset.mem_filter.mpr ⟨hb.mem_initials, h⟩, ?_⟩
    rw [Finset.mem_filter]
    exact fun hbb => lt_irrefl b hbb.2
  · intro c hc
    rw [Finset.mem_filter] at hc ⊢
    exact ⟨hc.1, h.trans hc.2⟩

/-- One value has become greater. -/
theorem height_lt {w : Fin n} {vtx : Str} {a : α} (hvtx : vtx ∈ rows (grp w))
    (hlt : vals w vtx < a) (ha : From grp stod vtx a)
    (hself : ∀ v, vals' w v = if v = vtx then a else vals w v)
    (hother : ∀ x, x ≠ w → vals' x = vals x) : height grp stod vals' < height grp stod vals := by
  have hvals : ∀ v, above grp stod (vals' w v) ≤ above grp stod (vals w v) := by
    intro v
    rw [hself]
    by_cases hv : v = vtx
    · subst hv
      rw [if_pos rfl]
      exact above_le hlt.le
    · rw [if_neg hv]
  apply Finset.sum_lt_sum
  · intro x _
    by_cases hx : x = w
    · subst hx
      exact Finset.sum_le_sum fun v _ => hvals v
    · rw [hother x hx]
  · refine ⟨w, Finset.mem_univ w, Finset.sum_lt_sum (fun v _ => hvals v) ?_⟩
    refine ⟨vtx, List.mem_toFinset.mpr hvtx, ?_⟩
    rw [hself, if_pos rfl]
    exact above_lt hlt ha

end Height

/-! ### How many supersteps there can be -/

/-- A vertex that has voted is active. -/
def Awake (grp : Fin n → Digraph W) (st : LoopState n m α α) : Prop :=
  ∃ w, ∃ v ∈ rows (grp w), v ∉ (st.loc w).phase.ballots ∧ (st.loc w).vertexActiveMap v = true

omit [LinearOrder α] in
/-- Once all have voted, only the active maps matter. -/
theorem Awake.of_voted {grp : Fin n → Digraph W} {st st' : LoopState n m α α}
    (h : Awake grp st') (hnil : ∀ w, (st.loc w).phase.ballots = [])
    (hactive : ∀ w, (st'.loc w).vertexActiveMap = (st.loc w).vertexActiveMap) :
    Awake grp st := by
  rcases h with ⟨w, v, hv, -, hact⟩
  refine ⟨w, v, hv, by rw [hnil w]; exact List.not_mem_nil, ?_⟩
  rw [← hactive w]
  exact hact

/-- How `spent` keeps to `B` in each stage, where `busy` says that some flag is 0: a superstep
    costs one, and a value that changes saves two. -/
def Within (B : Nat) (stage : Stage) (spent : Nat) (busy awake : Prop) : Prop :=
  match stage with
  | .first => spent + 2 ≤ B
  | .compute => spent ≤ B ∧ (busy → spent + 1 ≤ B)
  | .vote | .reduce => spent ≤ B ∧ (busy → spent + 1 ≤ B) ∧ (awake → spent + 3 ≤ B)
  | .again => spent + 1 ≤ B ∧ (awake → spent + 2 ≤ B)
  | .leave | .done => spent ≤ B

/-- The supersteps that a worker has begun are within a bound that falls with the values. -/
def Budget (grp : Fin n → Digraph W) (stod : Str → α) (B : Nat) (st : LoopState n m α α)
    (w : Fin n) : Prop :=
  Within B (st.loc w).phase.stage ((st.loc w).issued.length + 2 * height grp stod (valsOf st))
    (¬Quiet st) (Awake grp st)

theorem Within.le {B : Nat} {stage : Stage} {spent : Nat} {busy awake : Prop}
    (h : Within B stage spent busy awake) : spent ≤ B := by
  cases stage <;> simp only [Within] at h <;> omega

theorem Within.mono {B : Nat} {stage : Stage} {spent : Nat} {busy awake busy' awake' : Prop}
    (h : Within B stage spent busy awake) (hbusy : busy' → busy) (hawake : awake' → awake) :
    Within B stage spent busy' awake' := by
  cases stage with
  | first | leave | done => exact h
  | compute => exact ⟨h.1, fun hb => h.2 (hbusy hb)⟩
  | vote | reduce => exact ⟨h.1, fun hb => h.2.1 (hbusy hb), fun ha => h.2.2 (hawake ha)⟩
  | again => exact ⟨h.1, fun ha => h.2 (hawake ha)⟩

section Budget

variable [Inhabited α] {other : Libs α} {getServer : Str → Fin m} {grp : Fin n → Digraph W}
  {stod : Str → α} {B : Nat} {st st' : LoopState n m α α} {w : Fin n}

omit [Inhabited α] in
/-- A step within a loop that changes no value and no flag. -/
theorem Budget.frame (h : Budget grp stod B st w) (hplace : (st'.loc w).place = (st.loc w).place)
    (hvals : valsOf st' = valsOf st) (hquiet : Quiet st → Quiet st')
    (hawake : Awake grp st' → Awake grp st) : Budget grp stod B st' w := by
  have hstage : (st'.loc w).phase.stage = (st.loc w).phase.stage := congrArg Prod.fst hplace
  have hissued : (st'.loc w).issued.length = (st.loc w).issued.length := congrArg Prod.snd hplace
  unfold Budget at h ⊢
  rw [hstage, hissued, hvals]
  exact h.mono (mt hquiet) hawake

omit [Inhabited α] in
/-- A vote that changes a value, which happens only if some vertex was active. -/
theorem Budget.changed (h : Budget grp stod B st w) (hplace : (st'.loc w).place = (st.loc w).place)
    (hvote : (st.loc w).phase.stage = .vote)
    (hheight : height grp stod (valsOf st') < height grp stod (valsOf st))
    (hbusy : ¬Quiet st) : Budget grp stod B st' w := by
  have hstage : (st'.loc w).phase.stage = (st.loc w).phase.stage := congrArg Prod.fst hplace
  have hissued : (st'.loc w).issued.length = (st.loc w).issued.length := congrArg Prod.snd hplace
  unfold Budget at h ⊢
  rw [hstage, hissued, hvote]
  rw [hvote] at h
  have hspent := h.2.1 hbusy
  exact ⟨by omega, fun _ => by omega, fun _ => by omega⟩

omit [LinearOrder α] [Inhabited α] in
/-- The value read is the one that the vertex has. -/
theorem vote_same [DecidableEq α] {vtx : Str} {todo : List Str} {msg : α}
    (hphase : (st.loc w).phase = .vote (vtx :: todo))
    (hsame : (st.loc w).vertexValMap vtx = msg)
    (hloc : st'.loc =
      Function.update st.loc w ((loop (W := W)).voteOn (st.loc w) vtx todo msg)) :
    valsOf st' = valsOf st ∧ (Awake grp st' → Awake grp st) := by
  constructor
  · funext x
    rw [valsOf, valsOf, hloc]
    by_cases hx : x = w
    · subst hx
      rw [Function.update_self, ← hsame]
      exact Function.update_eq_self _ _
    · rw [Function.update_of_ne hx]
  · rintro ⟨x, v, hv, hnot, hactive⟩
    refine ⟨x, v, hv, ?_⟩
    rw [hloc] at hnot hactive
    by_cases hx : x = w
    · subst hx
      rw [Function.update_self] at hnot hactive
      have hne : v ≠ vtx := by
        rintro rfl
        simp [Loop.voteOn, loop, hsame] at hactive
      rw [hphase]
      refine ⟨fun hin => (List.mem_cons.mp hin).elim hne hnot, ?_⟩
      simpa [Loop.voteOn, hne] using hactive
    · rw [Function.update_of_ne hx] at hnot hactive
      exact ⟨hnot, hactive⟩

omit [Inhabited α] in
/-- A greater value is read; then some vertex was active when the superstep began. -/
theorem vote_changed (hi : Inv grp stod getServer st) {vtx : Str} {todo : List Str} {msg : α}
    (hphase : (st.loc w).phase = .vote (vtx :: todo))
    (hmsg : st.store.value getServer vtx = some msg)
    (hne : (st.loc w).vertexValMap vtx ≠ msg)
    (hloc : st'.loc =
      Function.update st.loc w ((loop (W := W)).voteOn (st.loc w) vtx todo msg)) :
    height grp stod (valsOf st') < height grp stod (valsOf st) ∧ ¬Quiet st := by
  have hvtx : vtx ∈ rows (grp w) := (hi.good w).mem_of_vote hphase
  have hle := (hi.fine w).le_read (ne_first_of_silent (by rw [hphase]; rfl)) hvtx hmsg
  constructor
  · apply height_lt hvtx (lt_of_le_of_ne hle hne) (hi.stored vtx msg hmsg)
    · intro v
      rw [valsOf, hloc, Function.update_self]
      by_cases hv : v = vtx
      · subst hv
        simp [Loop.voteOn, loop]
      · simp [Loop.voteOn, valsOf, hv]
    · intro x hx
      rw [valsOf, hloc, Function.update_of_ne hx]
      rfl
  · intro hq
    have hgood := hi.good w
    unfold Good at hgood
    rw [hphase] at hgood
    rcases (hgood.2.2.1 hq vtx hvtx).1 with ⟨msg', hmsg', heq⟩
    rw [hmsg] at hmsg'
    cases hmsg'
    exact hne heq

omit [Inhabited α] in
theorem Budget.vote (hplace : ∀ w w', (st.loc w).place = (st.loc w').place)
    (hi : Inv grp stod getServer st) {vtx : Str} {todo : List Str} {msg : α}
    (hphase : (st.loc w).phase = .vote (vtx :: todo))
    (hmsg : st.store.value getServer vtx = some msg)
    (hloc : st'.loc =
      Function.update st.loc w ((loop (W := W)).voteOn (st.loc w) vtx todo msg))
    {x : Fin n} (h : Budget grp stod B st x) : Budget grp stod B st' x := by
  have hsame : ∀ y, (st'.loc y).place = (st.loc y).place ∧
      (st'.loc y).haltFlag = (st.loc y).haltFlag := by
    intro y
    rw [hloc]
    by_cases hyw : y = w
    · subst hyw
      simp [Worker.place, hphase, Phase.stage, Loop.voteOn]
    · simp [hyw]
  by_cases hval : (st.loc w).vertexValMap vtx = msg
  · rcases vote_same hphase hval hloc with ⟨hvals, hawake⟩
    exact h.frame (hsame x).1 hvals (fun hq y => (hsame y).2.trans (hq y)) hawake
  · rcases vote_changed hi hphase hmsg hval hloc with ⟨hheight, hbusy⟩
    refine h.changed (hsame x).1 ?_ hheight hbusy
    rw [same_stage hplace x w, hphase]
    rfl

omit [Inhabited α] in
/-- A step that only uses up something to send. -/
theorem Budget.sent {p : Phase α} (h : Budget grp stod B st w) {x : Fin n}
    (hstage : p.stage = (st.loc x).phase.stage) (hballots : p.ballots = (st.loc x).phase.ballots)
    (hloc : st'.loc = Function.update st.loc x { st.loc x with phase := p }) :
    Budget grp stod B st' w := by
  have hsame : ∀ y, (st'.loc y).place = (st.loc y).place ∧
      (st'.loc y).haltFlag = (st.loc y).haltFlag ∧
      (st'.loc y).vertexValMap = (st.loc y).vertexValMap ∧
      (st'.loc y).vertexActiveMap = (st.loc y).vertexActiveMap ∧
      (st'.loc y).phase.ballots = (st.loc y).phase.ballots := by
    intro y
    rw [hloc]
    by_cases hyx : y = x
    · subst hyx
      simp [Worker.place, hstage, hballots]
    · simp [hyx]
  apply h.frame (hsame w).1
  · exact funext fun y => (hsame y).2.2.1
  · exact fun hq y => (hsame y).2.1.trans (hq y)
  · rintro ⟨y, v, hv, hnot, hactive⟩
    rw [(hsame y).2.2.2.2] at hnot
    rw [(hsame y).2.2.2.1] at hactive
    exact ⟨y, v, hv, hnot, hactive⟩

omit [Inhabited α] in
/-- A superstep is begun; it is busy only if some vertex is awake. -/
theorem Budget.begin (h : Budget grp stod B st w)
    (hphase : (∀ w, (st.loc w).phase = .first []) ∨ ∀ w, (st.loc w).phase = .again) :
    Budget grp stod B
      { st with loc := fun w => (loop (W := W)).superstep (init (grp w)) (st.loc w) } w := by
  have hissued : ((loop (W := W)).superstep (init (grp w)) (st.loc w)).issued.length =
      (st.loc w).issued.length + 1 := by
    simp [Loop.superstep]
  show Within B .compute (((loop (W := W)).superstep (init (grp w)) (st.loc w)).issued.length +
    2 * height grp stod (valsOf st)) _ _
  rw [hissued]
  rcases hphase with hp | hp
  · rw [Budget, hp w] at h
    have hspent : (st.loc w).issued.length + 2 * height grp stod (valsOf st) + 2 ≤ B := h
    exact ⟨by omega, fun _ => by omega⟩
  · rw [Budget, hp w] at h
    refine ⟨Nat.le_trans (by omega) h.1, ?_⟩
    intro hbusy
    have hawake : Awake grp st := by
      rw [Quiet, not_forall] at hbusy
      rcases hbusy with ⟨x, hx⟩
      have hany : (rows (grp x)).any (st.loc x).vertexActiveMap := by
        by_contra hnone
        exact hx (if_neg hnone)
      rcases List.any_eq_true.mp hany with ⟨v, hv, hactive⟩
      exact ⟨x, v, hv, by rw [hp x]; exact List.not_mem_nil, hactive⟩
    have hspent := h.2 hawake
    omega

omit [Inhabited α] in
/-- The flags are summed; another superstep follows only if this one was busy. -/
theorem Budget.reduced (h : Budget grp stod B st w)
    (hphase : (∀ w, (st.loc w).phase = .vote []) ∨ ∀ w, (st.loc w).phase = .reduce) :
    Budget grp stod B
      { st with loc := fun w => (st.loc w).afterReduce n (∑ w, (st.loc w).haltFlag) } w := by
  have hnil : ∀ w, (st.loc w).phase.ballots = [] := by
    intro w
    rcases hphase with hp | hp <;> rw [hp w] <;> rfl
  have hspent : Within B .vote ((st.loc w).issued.length + 2 * height grp stod (valsOf st))
      (¬Quiet st) (Awake grp st) := by
    rcases hphase with hp | hp <;> rw [Budget, hp w] at h <;> exact h
  show Within B ((st.loc w).afterReduce n _).phase.stage
    ((st.loc w).issued.length + 2 * height grp stod (valsOf st)) _ _
  by_cases hsum : ∑ w, (st.loc w).haltFlag = n
  · simp only [Worker.afterReduce, hsum, if_true]
    exact hspent.le
  · have hbusy : ¬Quiet st := by
      intro hq
      apply hsum
      rw [Finset.sum_congr rfl fun w _ => hq w]
      simp
    simp only [Worker.afterReduce, hsum, if_false]
    refine ⟨hspent.2.1 hbusy, fun hawake => ?_⟩
    have hmore := hspent.2.2 (hawake.of_voted hnil fun _ => rfl)
    omega

/-- One step stays within the budget. -/
theorem budget_move (hplace : ∀ w w', (st.loc w).place = (st.loc w').place)
    (hi : Inv grp stod getServer st)
    (h : Move (loop (W := W)) (mvvLib other) getServer (fun w => init (grp w)) st st')
    (hb : ∀ w, Budget grp stod B st w) : ∀ w, Budget grp stod B st' w := by
  intro x
  have hx := hb x
  have hgood' := (hi.move hplace h).good
  cases h with
  | first w b todo hphase | compute w b todo hphase =>
      exact hx.sent (by rw [hphase]; rfl) (by rw [hphase]; rfl) rfl
  | vote w vtx todo msg hphase hmsg => exact hx.vote hplace hi hphase hmsg rfl
  | abort w vtx todo hphase hmsg =>
      have hw := hgood' w
      simp only [Good, Function.update_self] at hw
  | begin hphase => exact hx.begin hphase
  | computed hphase =>
      rw [Budget, hphase x] at hx
      show Within B .vote ((st.loc x).issued.length + 2 * height grp stod (valsOf st)) _ _
      refine ⟨hx.1, hx.2, ?_⟩
      rintro ⟨w, v, hv, hnot, -⟩
      exact absurd hv hnot
  | voted hphase =>
      rw [Budget, hphase x] at hx
      show Within B .reduce ((st.loc x).issued.length + 2 * height grp stod (valsOf st)) _ _
      exact ⟨hx.1, hx.2.1, fun hawake =>
        hx.2.2 (hawake.of_voted (fun w => by rw [hphase w]; rfl) fun _ => rfl)⟩
  | reduce hphase => exact hx.reduced hphase
  | leave hphase =>
      rw [Budget, hphase x] at hx
      show Within B .done ((st.loc x).issued.length + 2 * height grp stod (valsOf st)) _ _
      exact hx

end Budget

/-! ### How many steps a superstep has -/

/-- The edges of a worker. -/
def edges (grp : Fin n → Digraph W) (w : Fin n) : Nat :=
  ((rows (grp w)).map fun v => (adjacent (grp w) v).length).sum

/-- A bound on the steps that a worker has before it, within `B` supersteps. -/
def ahead (grp : Fin n → Digraph W) (B : Nat) (w : Fin n) (l : Worker α α) : Nat :=
  (B - l.issued.length) * (edges grp w + (rows (grp w)).length + 4) +
    match l.phase with
    | .first todo => todo.length + 2
    | .compute todo => todo.length + (rows (grp w)).length + 5
    | .vote todo => todo.length + 4
    | .reduce => 3
    | .again => 2
    | .leave => 1
    | .done | .aborted => 0

section Steps

variable [Inhabited α] {other : Libs α} {getServer : Str → Fin m} {grp : Fin n → Digraph W}
  {stod : Str → α} {B : Nat} {st st' : LoopState n m α α}

omit [LinearOrder α] [Inhabited α] in
theorem length_requests (grp : Fin n → Digraph W) (w : Fin n) (l : Worker α α) :
    ((loop (W := W)).requests (init (grp w)) l).length ≤ edges grp w := by
  have hone : ∀ v, ((adjacent (grp w) v).flatMap fun edgeInfo =>
      (loop (W := W)).compute edgeInfo.1 edgeInfo.2 (l.vertexValMap v)).length =
        (adjacent (grp w) v).length := by
    intro v
    induction adjacent (grp w) v with
    | nil => rfl
    | cons e es ih => simp [loop]
  rw [Loop.requests, List.length_flatMap, edges]
  simp only [init, hone]
  generalize rows (grp w) = vs
  induction vs with
  | nil => simp
  | cons v vs ih =>
      rw [List.filter_cons]
      split
      · simpa using ih
      · simp only [List.map_cons, List.sum_cons]
        omega

/-- Every step brings the end closer. -/
theorem ahead_move (hn : 0 < n) (hb : ∀ w, Budget grp stod B st w)
    (h : Move (loop (W := W)) (mvvLib other) getServer (fun w => init (grp w)) st st') :
    ∑ w, ahead grp B w (st'.loc w) < ∑ w, ahead grp B w (st.loc w) := by
  have hall : ∀ {loc : Fin n → Worker α α},
      (∀ w, ahead grp B w (loc w) < ahead grp B w (st.loc w)) →
      ∑ x, ahead grp B x (loc x) < ∑ x, ahead grp B x (st.loc x) := by
    intro loc hlt
    exact Finset.sum_lt_sum_of_nonempty ⟨⟨0, hn⟩, Finset.mem_univ _⟩ fun w _ => hlt w
  cases h with
  | first w b todo hphase | compute w b todo hphase | vote w vtx todo msg hphase hmsg
  | abort w vtx todo hphase hmsg =>
      apply sum_update_lt (ahead grp B)
      simp only [ahead, hphase, Loop.voteOn, List.length_cons]
      omega
  | begin hphase =>
      apply hall
      intro w
      have hspent : (st.loc w).issued.length + 1 ≤ B := by
        have hw := hb w
        rcases hphase with hp | hp
        · rw [Budget, hp w] at hw
          exact Nat.le_trans (by omega) hw
        · rw [Budget, hp w] at hw
          exact Nat.le_trans (by omega) hw.1
      have hreq := length_requests grp w (st.loc w)
      have hnext : B - (st.loc w).issued.length = B - ((st.loc w).issued.length + 1) + 1 := by
        omega
      have hbefore : (B - (st.loc w).issued.length) *
          (edges grp w + (rows (grp w)).length + 4) + 2 ≤ ahead grp B w (st.loc w) := by
        rcases hphase with hp | hp <;> simp [ahead, hp w]
      apply Nat.lt_of_lt_of_le _ hbefore
      rw [hnext, Nat.succ_mul]
      simp only [ahead, Loop.superstep, List.length_append, List.length_singleton]
      omega
  | computed hphase | voted hphase | leave hphase =>
      apply hall
      intro w
      simp only [ahead, hphase w, init, List.length_nil]
      omega
  | reduce hphase =>
      apply hall
      intro w
      have hthree : (B - (st.loc w).issued.length) *
          (edges grp w + (rows (grp w)).length + 4) + 3 ≤ ahead grp B w (st.loc w) := by
        rcases hphase with hp | hp <;> simp [ahead, hp w]
      apply Nat.lt_of_lt_of_le _ hthree
      by_cases hsum : ∑ w, (st.loc w).haltFlag = n <;> simp [ahead, Worker.afterReduce, hsum]

/-- The loop of `solve` ends, and then the value of every vertex that has an out-edge is the
    greatest initial value over it and the vertices with out-edges from which it can be
    reached: all runs are bounded, and one that cannot go on has ended so on every worker. -/
theorem max_vertex_value_converges (hn : 0 < n) (other : Libs α) (getServer : Str → Fin m)
    (grp : Fin n → Digraph W) (stod : Str → α) :
    ∃ bound, ∀ ls st,
      run ((loop (W := W)).step (mvvLib other) getServer fun w => init (grp w))
        (start grp stod) ls = some st →
      ls.length ≤ bound ∧
      (Stuck ((loop (W := W)).step (mvvLib other) getServer fun w => init (grp w)) st →
        ∀ w, (st.loc w).phase = .done ∧ ∀ v ∈ rows (grp w),
          IsGreatest (stod '' {u | Row grp u ∧ Reaches grp u v}) ((st.loc w).vertexValMap v)) := by
  let init₀ : LoopState n m α α := start grp stod
  let B := 1 + 2 * height grp stod (valsOf init₀) + 2
  refine ⟨∑ w, ahead grp B w (init₀.loc w), fun ls st hrun => ⟨?_, ?_⟩⟩
  · have hle := run_length_le (P := fun s : LoopState n m α α =>
        Reachable ((loop (W := W)).step (mvvLib other) getServer fun w => init (grp w)) init₀ s ∧
        ∀ w, Budget grp stod B s w)
      (fun s => ∑ w, ahead grp B w (s.loc w))
      (by
        intro s l s' hs hstep
        have hplace := same_place start_place hs.1
        have hmove := move_of_step hplace hstep
        exact ⟨⟨hs.1.tail hstep, budget_move hplace (inv_of_reachable hs.1) hmove hs.2⟩,
          ahead_move hn hs.2 hmove⟩)
      ⟨.refl _, fun w => Nat.le_refl _⟩ hrun
    omega
  · intro hstuck
    have hreach : Reachable ((loop (W := W)).step (mvvLib other) getServer fun w => init (grp w))
        init₀ st := ⟨ls, hrun⟩
    have hinv := inv_of_reachable hreach
    have hdone := done_of_stuck hn (same_place start_place hreach) hinv.good hstuck
    exact fun w => ⟨hdone w, fun v hv => hinv.isGreatest (fun x => .inr (hdone x)) hv⟩

end Steps

/-- A vertex on the first worker and a cycle of two on the second. -/
def twoRows (w : Fin 2) : Digraph Unit :=
  if w.val = 0 then AList.insert (lit "3") (AList.insert (lit "1") () ∅) ∅
  else AList.insert (lit "1") (AList.insert (lit "2") () ∅) <|
    AList.insert (lit "2") (AList.insert (lit "1") () ∅) ∅

/-- The number that one byte reads as. -/
def digit (v : Str) : Nat := (v.headD 0).toNat

/-- Shared libraries without any other updater. -/
def noLib : Libs Nat := { update := fun _ _ b => b, filter := fun _ _ _ => false }

/-- Superstep 0 and four more, until no value changes. -/
def fourSupersteps (v w : Fin 2) : List (Label 2) :=
  [.call v, .call w, .call w, .sync,
    .call v, .call w, .call w, .sync, .call v, .call w, .call w, .sync, .allreduce, .sync,
    .call w, .sync, .call v, .call w, .call w, .sync, .allreduce, .sync,
    .call w, .sync, .call w, .call v, .call w, .sync, .allreduce, .sync,
    .sync, .call v, .call w, .call w, .sync, .allreduce, .sync]

theorem max_vertex_value_converges_twoRows :
    ∃ st, run ((loop (W := Unit)).step (mvvLib noLib) (fun _ => (0 : Fin 1))
        fun w => init (twoRows w)) (start twoRows digit) (fourSupersteps 0 1) = some st ∧
      (st.loc 1).phase.stage = .done ∧ (st.loc 1).vertexValMap (lit "2") = 51 ∧
      IsGreatest (digit '' {u | Row twoRows u ∧ Reaches twoRows u (lit "2")}) 51 := by
  have hend : (run ((loop (W := Unit)).step (mvvLib noLib) (fun _ => (0 : Fin 1))
      fun w => init (twoRows w)) (start twoRows digit) (fourSupersteps 0 1)).map
        (fun st => ((st.loc 0).phase.stage, (st.loc 1).phase.stage,
          (st.loc 1).vertexValMap (lit "2"))) = some (.done, .done, 51) := by decide
  rcases Option.map_eq_some_iff.mp hend with ⟨st, hrun, hst⟩
  simp only [Prod.mk.injEq] at hst
  have hdone : ∀ w, (st.loc w).phase.stage = .done :=
    Fin.forall_fin_two.mpr ⟨hst.1, hst.2.1⟩
  have hhalt : ∀ w, (loop (W := Unit)).act (init (twoRows w)) (st.loc w) 2 = .halt := by
    intro w
    have hw := hdone w
    unfold Loop.act
    cases hp : (st.loc w).phase <;> rw [hp] at hw <;> cases hw
  rcases max_vertex_value_converges (by decide) noLib (fun _ => (0 : Fin 1)) twoRows digit with
    ⟨bound, hbound⟩
  have hgreatest := ((hbound _ _ hrun).2 (stuck_of_halt (by decide) hhalt) 1).2 (lit "2")
    (by decide)
  rw [hst.2.2] at hgreatest
  exact ⟨st, hrun, hdone 1, hst.2.2, hgreatest⟩

end Paracel.MaxVertexValue
