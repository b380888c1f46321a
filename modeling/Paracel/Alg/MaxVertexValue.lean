import Mathlib.Logic.Relation
import Mathlib.Order.Bounds.Defs
import Paracel.Pregel.RunSupersteps

/-!
# Maximum vertex value

`alg/max_vertex_value`: superstep 0 sends every worker's own values to the
servers, and from then on an active vertex sends its value along its out-edges.
What a vertex id is worth is `std::stod` of it, here any function into a linear
order. A worker may hold any rows of the graph.
-/

namespace Paracel.MaxVertexValue

open StepSystem Spmd Pregel

/-- `adj` of a `digraph`. -/
abbrev Digraph (W : Type) := Dict Str (Dict Str W)

variable {W α : Type}

/-- `grp.adjacent(v)`, in iteration order. -/
def adjacent (grp : Digraph W) (v : Str) : List (Str × W) :=
  Dict.pairs ((grp.lookup v).getD ∅)

/-- The keys of `vertex_val_map`: `traverse` meets the vertices that have an out-edge. -/
def rows (grp : Digraph W) : List Str :=
  ((Dict.pairs grp).filter fun row => !(Dict.pairs row.2).isEmpty).map Prod.fst

/-- `init`. -/
def init (grp : Digraph W) : Pregel.Part W where
  vertices := rows grp
  adjacent := adjacent grp

/-- `local_update`. -/
def localUpdate [LinearOrder α] (a b : α) : α := if a > b then a else b

/-- `max_updater`. -/
def maxUpdater : Symbol :=
  ⟨lit "/mfs/user/wuhong/paracel/local/lib/libmvv_update.so", lit "max_updater"⟩

/-- The shared libraries, with the one of the program. -/
def mvvLib [LinearOrder α] (other : Libs α) : Libs α :=
  { other with update := fun func => if func = maxUpdater then localUpdate else other.update func }

/-- Sending a value to a vertex. -/
def send (v : Str) (val : α) : Bupdate α := ⟨v, val, some maxUpdater⟩

/-- The loop of `solve`. -/
def loop : Loop W α α where
  compute := fun linkV _ val => [send linkV val]
  mutableValue := id
  syncBeforeReduce := true

variable {n m : Nat}

/-- `solve` after `init`, with superstep 0 to do and nothing on the servers. -/
def start (grp : Fin n → Digraph W) (stod : Str → α) : LoopState n m α α where
  loc := fun w =>
    let superstep0 := (rows (grp w)).map fun v => send v (stod v)
    { vertexValMap := stod, phase := .first superstep0, issued := [superstep0] }
  store := fun _ => {}

/-! ### The graph -/

/-- A row of the vertex is on some worker. -/
def Row (grp : Fin n → Digraph W) (v : Str) : Prop :=
  ∃ w, v ∈ rows (grp w)

/-- Some worker has the edge. -/
def Edge (grp : Fin n → Digraph W) (u x : Str) : Prop :=
  ∃ w, u ∈ rows (grp w) ∧ ∃ wgt, (x, wgt) ∈ adjacent (grp w) u

/-- `x` can be reached from `u`. -/
def Reaches (grp : Fin n → Digraph W) : Str → Str → Prop :=
  Relation.ReflTransGen (Edge grp)

/-- The value is the initial one of a row from which `x` can be reached. -/
def From (grp : Fin n → Digraph W) (stod : Str → α) (x : Str) (a : α) : Prop :=
  ∃ u, Row grp u ∧ Reaches grp u x ∧ stod u = a

theorem From.edge {grp : Fin n → Digraph W} {stod : Str → α} {u x : Str} {a : α}
    (h : From grp stod u a) (he : Edge grp u x) : From grp stod x a := by
  rcases h with ⟨r, hr, hreach, hval⟩
  exact ⟨r, hr, hreach.tail he, hval⟩

theorem rows_nodup (grp : Digraph W) : (rows grp).Nodup :=
  (Dict.pairs_nodup grp).sublist (List.Sublist.map _ List.filter_sublist)

/-! ### Values on the servers -/

/-- There is a value, and it is at least `a`. -/
def AtLeast [LE α] (value : Option α) (a : α) : Prop :=
  ∃ b, value = some b ∧ a ≤ b

section Values

variable [LinearOrder α]

theorem localUpdate_eq_max (a b : α) : localUpdate a b = max a b := by
  unfold localUpdate
  by_cases h : a > b
  · rw [if_pos h, max_eq_left h.le]
  · rw [if_neg h, max_eq_right (not_lt.mp h)]

variable [Inhabited α] {other : Libs α} {getServer : Str → Fin m} {servers : Servers m α}

theorem value_send (v : Str) (val : α) (k : Str) :
    (Servers.perform (mvvLib other) getServer servers (send v val).call).2.value getServer k =
      if k = v then Option.merge localUpdate (servers.value getServer v) (some val)
      else servers.value getServer k :=
  Servers.value_bupdate v val (some maxUpdater) k

/-- A value sent has arrived. -/
theorem atLeast_send (v : Str) (val : α) :
    AtLeast ((Servers.perform (mvvLib other) getServer servers (send v val).call).2.value
      getServer v) val := by
  rw [value_send, if_pos rfl]
  cases servers.value getServer v with
  | none => exact ⟨val, rfl, le_rfl⟩
  | some old => exact ⟨_, rfl, by rw [localUpdate_eq_max]; exact le_max_right old val⟩

/-- Values on the servers only grow. -/
theorem AtLeast.send {v : Str} {val a : α} {k : Str} (h : AtLeast (servers.value getServer k) a) :
    AtLeast ((Servers.perform (mvvLib other) getServer servers (send v val).call).2.value
      getServer k) a := by
  rw [value_send]
  by_cases hk : k = v
  · subst hk
    rcases h with ⟨old, hold, hle⟩
    rw [if_pos rfl, hold]
    exact ⟨_, rfl, by rw [localUpdate_eq_max]; exact hle.trans (le_max_left old val)⟩
  · rw [if_neg hk]
    exact h

/-- And they come from what was sent. -/
theorem of_value_send {v : Str} {val b : α} {k : Str}
    (h : (Servers.perform (mvvLib other) getServer servers (send v val).call).2.value getServer k =
      some b) : servers.value getServer k = some b ∨ k = v ∧ b = val := by
  rw [value_send] at h
  by_cases hk : k = v
  · subst hk
    rw [if_pos rfl] at h
    cases hold : servers.value getServer k with
    | none =>
        rw [hold] at h
        cases h
        exact .inr ⟨rfl, rfl⟩
    | some old =>
        rw [hold, Option.merge_some_some, localUpdate_eq_max, Option.some.injEq] at h
        rcases max_choice old val with hmax | hmax
        · exact .inl (by rw [← h, hmax])
        · exact .inr ⟨rfl, by rw [← h, hmax]⟩
  · rw [if_neg hk] at h
    exact .inl h

end Values

/-! ### An inactive vertex has told its neighbors -/

section Fine

variable [LinearOrder α] {grp : Fin n → Digraph W} {stod : Str → α} {w : Fin n}
  {value value' : Str → Option α} {l : Worker α α}

/-- The neighbors of `u` have at least its value. -/
def Told (grp : Fin n → Digraph W) (value : Str → Option α) (w : Fin n) (l : Worker α α)
    (u : Str) : Prop :=
  ∀ edgeInfo ∈ adjacent (grp w) u, AtLeast (value edgeInfo.1) (l.vertexValMap u)

/-- Which vertices have told their neighbors, or still will in this superstep. -/
def Telling (grp : Fin n → Digraph W) (value : Str → Option α) (w : Fin n) (l : Worker α α) :
    Prop :=
  match l.phase with
  | .first _ => True
  | .compute todo => ∀ u ∈ rows (grp w), ∀ edgeInfo ∈ adjacent (grp w) u,
      AtLeast (value edgeInfo.1) (l.vertexValMap u) ∨ send edgeInfo.1 (l.vertexValMap u) ∈ todo
  | .vote todo => todo.Nodup ∧ ∀ u ∈ rows (grp w), u ∈ todo ∨ l.vertexActiveMap u = false →
      Told grp value w l u
  | _ => ∀ u ∈ rows (grp w), l.vertexActiveMap u = false → Told grp value w l u

/-- What holds of a worker's values and of what it still has to send. -/
structure Fine (grp : Fin n → Digraph W) (stod : Str → α) (value : Str → Option α) (w : Fin n)
    (l : Worker α α) : Prop where
  held : ∀ v ∈ rows (grp w), From grp stod v (l.vertexValMap v)
  left : ∀ b ∈ l.phase.left, ∃ v val, b = send v val ∧ From grp stod v val
  grown : ∀ v ∈ rows (grp w), stod v ≤ l.vertexValMap v
  pushed : ∀ v ∈ rows (grp w), AtLeast (value v) (l.vertexValMap v) ∨
    ∃ todo, l.phase = .first todo ∧ send v (l.vertexValMap v) ∈ todo
  telling : Telling grp value w l

/-- What is so with some values on the servers is so with greater ones. -/
theorem Fine.mono (h : Fine grp stod value w l)
    (hle : ∀ k a, AtLeast (value k) a → AtLeast (value' k) a) : Fine grp stod value' w l where
  held := h.held
  left := h.left
  grown := h.grown
  pushed := fun v hv => (h.pushed v hv).imp (hle _ _) id
  telling := by
    have ht := h.telling
    unfold Telling Told at ht ⊢
    cases hp : l.phase with
    | first => trivial
    | compute todo =>
        rw [hp] at ht
        exact fun u hu e he => (ht u hu e he).imp (hle _ _) id
    | vote todo =>
        rw [hp] at ht
        exact ⟨ht.1, fun u hu hor e he => hle _ _ (ht.2 u hu hor e he)⟩
    | reduce | again | leave | done | aborted =>
        rw [hp] at ht
        exact fun u hu hin e he => hle _ _ (ht u hu hin e he)

/-- One bupdate of superstep 0 has arrived. -/
theorem Fine.sent_first {b : Bupdate α} {todo : List (Bupdate α)} {v : Str} {val : α}
    (h : Fine grp stod value w l) (hphase : l.phase = .first (b :: todo)) (hb : b = send v val)
    (hle : ∀ k a, AtLeast (value k) a → AtLeast (value' k) a) (hval : AtLeast (value' v) val) :
    Fine grp stod value' w { l with phase := .first todo } where
  held := h.held
  left := by
    intro b' hb'
    apply h.left
    rw [hphase]
    exact List.mem_cons_of_mem b hb'
  grown := h.grown
  pushed := by
    intro x hx
    rcases h.pushed x hx with hpushed | ⟨todo', hp, hmem⟩
    · exact .inl (hle _ _ hpushed)
    · rw [hphase] at hp
      cases hp
      rcases List.mem_cons.mp hmem with heq | hmem
      · rw [hb] at heq
        cases heq
        exact .inl hval
      · exact .inr ⟨todo, rfl, hmem⟩
  telling := trivial

/-- One bupdate of a later superstep has arrived. -/
theorem Fine.sent_compute {b : Bupdate α} {todo : List (Bupdate α)} {v : Str} {val : α}
    (h : Fine grp stod value w l) (hphase : l.phase = .compute (b :: todo)) (hb : b = send v val)
    (hle : ∀ k a, AtLeast (value k) a → AtLeast (value' k) a) (hval : AtLeast (value' v) val) :
    Fine grp stod value' w { l with phase := .compute todo } where
  held := h.held
  left := by
    intro b' hb'
    apply h.left
    rw [hphase]
    exact List.mem_cons_of_mem b hb'
  grown := h.grown
  pushed := by
    intro x hx
    rcases h.pushed x hx with hpushed | ⟨todo', hp, -⟩
    · exact .inl (hle _ _ hpushed)
    · rw [hphase] at hp
      cases hp
  telling := by
    have ht := h.telling
    unfold Telling at ht ⊢
    rw [hphase] at ht
    intro u hu e he
    rcases ht u hu e he with hat | hmem
    · exact .inl (hle _ _ hat)
    · rcases List.mem_cons.mp hmem with heq | hmem
      · rw [hb] at heq
        cases heq
        exact .inl hval
      · exact .inr hmem

/-- Once superstep 0 is over, the server has at least the worker's value. -/
theorem Fine.atLeast (h : Fine grp stod value w l) (hphase : ∀ b todo, l.phase ≠ .first (b :: todo))
    {v : Str} (hv : v ∈ rows (grp w)) : AtLeast (value v) (l.vertexValMap v) := by
  rcases h.pushed v hv with hpushed | ⟨todo, hp, hmem⟩
  · exact hpushed
  · cases todo with
    | nil => cases hmem
    | cons b todo => exact absurd hp (hphase b todo)

/-- The value read for a vertex is not below the worker's. -/
theorem Fine.le_read (h : Fine grp stod value w l) (hphase : ∀ b todo, l.phase ≠ .first (b :: todo))
    {v : Str} {msg : α} (hv : v ∈ rows (grp w)) (hmsg : value v = some msg) :
    l.vertexValMap v ≤ msg := by
  rcases h.atLeast hphase hv with ⟨b, hb, hle⟩
  rw [hmsg] at hb
  cases hb
  exact hle

/-- The stages in which nothing is sent. -/
def silent : Stage → Bool
  | .first | .compute => false
  | .vote | .reduce | .again | .leave | .done => true

omit [LinearOrder α] in
theorem ne_first_of_silent {p : Phase α} (h : silent p.stage = true) (b : Bupdate α)
    (todo : List (Bupdate α)) : p ≠ .first (b :: todo) := by
  rintro rfl
  cases h

/-- Where nothing is sent, every inactive vertex has told its neighbors. -/
theorem Fine.told (h : Fine grp stod value w l) (hsilent : silent l.phase.stage = true) :
    ∀ u ∈ rows (grp w), l.vertexActiveMap u = false → Told grp value w l u := by
  have ht := h.telling
  unfold Telling at ht
  cases hp : l.phase with
  | first | compute =>
      rw [hp] at hsilent
      cases hsilent
  | vote todo =>
      rw [hp] at ht
      exact fun u hu hinactive => ht.2 u hu (.inr hinactive)
  | reduce | again | leave | done | aborted =>
      rw [hp] at ht
      exact ht

/-- What holds of the values holds after a vote if it holds of the value read. -/
theorem forall_voteOn {P : Str → α → Prop} {vtx : Str} {todo : List Str} {msg : α}
    (h : ∀ v ∈ rows (grp w), P v (l.vertexValMap v)) (hmsg : P vtx msg) :
    ∀ v ∈ rows (grp w), P v ((loop.voteOn (W := W) l vtx todo msg).vertexValMap v) := by
  intro v hv
  by_cases hvtx : v = vtx
  · subst hvtx
    simpa [Loop.voteOn, loop] using hmsg
  · simpa [Loop.voteOn, hvtx] using h v hv

/-- A vertex that votes has told its neighbors the value it had before. -/
theorem Fine.voted {vtx : Str} {todo : List Str} {msg : α} (h : Fine grp stod value w l)
    (hphase : l.phase = .vote (vtx :: todo)) (hvtx : vtx ∈ rows (grp w))
    (hmsg : value vtx = some msg) (hfrom : From grp stod vtx msg) :
    Fine grp stod value w (loop.voteOn (W := W) l vtx todo msg) := by
  have hnot := ne_first_of_silent (p := l.phase) (by rw [hphase]; rfl)
  have hle := h.le_read hnot hvtx hmsg
  constructor
  · exact forall_voteOn h.held hfrom
  · intro b hb
    cases hb
  · exact forall_voteOn (P := fun v a => stod v ≤ a) h.grown ((h.grown vtx hvtx).trans hle)
  · intro v hv
    exact .inl (forall_voteOn (P := fun v a => AtLeast (value v) a)
      (fun _ hx => h.atLeast hnot hx) ⟨msg, hmsg, le_rfl⟩ v hv)
  · have ht := h.telling
    unfold Telling at ht ⊢
    rw [hphase] at ht
    rcases ht with ⟨hnodup, htold⟩
    rw [List.nodup_cons] at hnodup
    refine ⟨hnodup.2, ?_⟩
    intro u hu hor e he
    by_cases huv : u = vtx
    · subst huv
      -- it stays inactive only with the value it has told
      have hsame : l.vertexValMap u = msg := by
        rcases hor with hin | hinactive
        · exact absurd hin hnodup.1
        · by_contra hne
          simp [Loop.voteOn, loop, hne] at hinactive
      have hat := htold u hu (.inl List.mem_cons_self) e he
      rw [hsame] at hat
      simpa [Loop.voteOn, loop] using hat
    · have hat := htold u hu (hor.imp (List.mem_cons_of_mem vtx) fun hinactive => by
        simpa [Loop.voteOn, huv] using hinactive) e he
      simpa [Loop.voteOn, huv] using hat

/-- Where only the phase changes, to one in which nothing is sent. -/
theorem Fine.withPhase {flag : Int} {p : Phase α} (h : Fine grp stod value w l)
    (hphase : ∀ b todo, l.phase ≠ .first (b :: todo)) (hleft : p.left = [])
    (htelling : Telling grp value w { l with haltFlag := flag, phase := p }) :
    Fine grp stod value w { l with haltFlag := flag, phase := p } where
  held := h.held
  left := by
    intro b hb
    simp only [hleft] at hb
    cases hb
  grown := h.grown
  pushed := fun _ hv => .inl (h.atLeast hphase hv)
  telling := htelling

/-- A step from one stage in which nothing is sent to another. -/
theorem Fine.goOn {flag : Int} {p : Phase α} (h : Fine grp stod value w l)
    (hsilent : silent l.phase.stage = true) (hleft : p.left = [])
    (htelling : (∀ u ∈ rows (grp w), l.vertexActiveMap u = false → Told grp value w l u) →
      Telling grp value w { l with haltFlag := flag, phase := p }) :
    Fine grp stod value w { l with haltFlag := flag, phase := p } :=
  h.withPhase (ne_first_of_silent hsilent) hleft (htelling (h.told hsilent))

/-- A superstep sends the values of the active vertices along their edges. -/
theorem Fine.superstep (h : Fine grp stod value w l)
    (hphase : ∀ b todo, l.phase ≠ .first (b :: todo))
    (htold : ∀ u ∈ rows (grp w), l.vertexActiveMap u = false → Told grp value w l u) :
    Fine grp stod value w (loop.superstep (init (grp w)) l) where
  held := h.held
  left := by
    intro b hb
    rcases List.mem_flatMap.mp hb with ⟨u, hu, hb⟩
    rcases List.mem_flatMap.mp hb with ⟨e, he, hb⟩
    have hrow : u ∈ rows (grp w) := (List.mem_filter.mp hu).1
    refine ⟨e.1, l.vertexValMap u, List.mem_singleton.mp hb, ?_⟩
    exact (h.held u hrow).edge ⟨w, hrow, e.2, he⟩
  grown := h.grown
  pushed := fun _ hv => .inl (h.atLeast hphase hv)
  telling := by
    intro u hu e he
    by_cases hactive : l.vertexActiveMap u = true
    · right
      apply List.mem_flatMap.mpr
      refine ⟨u, List.mem_filter.mpr ⟨hu, hactive⟩, ?_⟩
      exact List.mem_flatMap.mpr ⟨e, he, List.mem_singleton.mpr rfl⟩
    · exact .inl (htold u hu (by simpa using hactive) e he)

end Fine

section Invariant

variable [LinearOrder α] [Inhabited α] {other : Libs α} {getServer : Str → Fin m}
  {grp : Fin n → Digraph W} {stod : Str → α} {st st' : LoopState n m α α}

/-- What holds between any two steps of `solve`. -/
structure Inv (grp : Fin n → Digraph W) (stod : Str → α) (getServer : Str → Fin m)
    (st : LoopState n m α α) : Prop where
  stored : ∀ x a, st.store.value getServer x = some a → From grp stod x a
  good : ∀ w, Good (loop (W := W)) getServer (fun w => init (grp w)) st w
  fine : ∀ w, Fine grp stod (st.store.value getServer) w (st.loc w)

/-- Sending a value that is due keeps the values on the servers and the other workers in
    order. -/
theorem Inv.send (hi : Inv grp stod getServer st) (other : Libs α) (w : Fin n) (b : Bupdate α)
    (hb : b ∈ (st.loc w).phase.left) :
    ∃ v val, b = send v val ∧
      (∀ x a, (Servers.perform (mvvLib other) getServer st.store b.call).2.value getServer x =
        some a → From grp stod x a) ∧
      (∀ k a, AtLeast (st.store.value getServer k) a →
        AtLeast ((Servers.perform (mvvLib other) getServer st.store b.call).2.value getServer k)
          a) ∧
      AtLeast ((Servers.perform (mvvLib other) getServer st.store b.call).2.value getServer v)
        val := by
  rcases (hi.fine w).left b hb with ⟨v, val, rfl, hfrom⟩
  refine ⟨v, val, rfl, ?_, fun k a hk => hk.send, atLeast_send v val⟩
  intro x a hx
  rcases of_value_send hx with hold | ⟨rfl, rfl⟩
  · exact hi.stored x a hold
  · exact hfrom

/-- A worker sends what is due and goes on to the local state `l`. -/
theorem Inv.sent (hi : Inv grp stod getServer st) (other : Libs α) {w : Fin n} {b : Bupdate α}
    {l : Worker α α} (hb : b ∈ (st.loc w).phase.left) (hloc : st'.loc = Function.update st.loc w l)
    (hstore : st'.store = (Servers.perform (mvvLib other) getServer st.store b.call).2)
    (hgood : ∀ w, Good (loop (W := W)) getServer (fun w => init (grp w)) st' w)
    (hfine : ∀ v val, b = MaxVertexValue.send v val →
      (∀ k a, AtLeast (st.store.value getServer k) a → AtLeast (st'.store.value getServer k) a) →
      AtLeast (st'.store.value getServer v) val → Fine grp stod (st'.store.value getServer) w l) :
    Inv grp stod getServer st' := by
  rcases hi.send other w b hb with ⟨v, val, heq, hstored, hle, hval⟩
  rw [← hstore] at hstored hle hval
  refine ⟨hstored, hgood, ?_⟩
  intro x
  rw [hloc]
  by_cases hx : x = w
  · subst hx
    rw [Function.update_self]
    exact hfine v val heq hle hval
  · rw [Function.update_of_ne hx]
    exact (hi.fine x).mono hle

omit [Inhabited α] in
/-- A vote finds a value, as superstep 0 has sent one to each row. -/
theorem Inv.present (hplace : ∀ w w', (st.loc w).place = (st.loc w').place)
    (hi : Inv grp stod getServer st) :
    (∃ w vtx todo, (st.loc w).phase = .vote (vtx :: todo)) →
      ∀ w, ∀ v ∈ rows (grp w), (st.store.value getServer v).isSome := by
  rintro ⟨w, vtx, todo, hphase⟩ w' v hv
  have hsilent : silent (st.loc w').phase.stage = true := by
    rw [same_stage hplace w' w, hphase]
    rfl
  rcases (hi.fine w').atLeast (ne_first_of_silent hsilent) hv with ⟨b, hb, -⟩
  exact Option.isSome_iff_exists.mpr ⟨b, hb⟩

theorem Inv.move (hplace : ∀ w w', (st.loc w).place = (st.loc w').place)
    (hi : Inv grp stod getServer st)
    (h : Move (loop (W := W)) (mvvLib other) getServer (fun w => init (grp w)) st st') :
    Inv grp stod getServer st' := by
  have hgood := good_move hplace (hi.present hplace) hi.good h
  cases h with
  | first w b todo hphase =>
      refine hi.sent other (by rw [hphase]; exact List.mem_cons_self) rfl rfl hgood ?_
      exact fun v val hb hle hval => (hi.fine w).sent_first hphase hb hle hval
  | compute w b todo hphase =>
      refine hi.sent other (by rw [hphase]; exact List.mem_cons_self) rfl rfl hgood ?_
      exact fun v val hb hle hval => (hi.fine w).sent_compute hphase hb hle hval
  | vote w vtx todo msg hphase hmsg =>
      refine ⟨hi.stored, hgood, ?_⟩
      intro x
      by_cases hx : x = w
      · subst hx
        simp only [Function.update_self]
        exact (hi.fine x).voted hphase ((hi.good x).mem_of_vote hphase) hmsg
          (hi.stored vtx msg hmsg)
      · simp only [Function.update_of_ne hx]
        exact hi.fine x
  | abort w vtx todo hphase hmsg =>
      have hw := hgood w
      simp only [Good, Function.update_self] at hw
  | begin hphase =>
      refine ⟨hi.stored, hgood, ?_⟩
      intro x
      rcases hphase with hp | hp
      · refine (hi.fine x).superstep (fun b todo heq => by rw [hp x] at heq; cases heq) ?_
        intro u hu hinactive
        have hx := hi.good x
        unfold Good at hx
        rw [hp x] at hx
        rw [hx u hu] at hinactive
        cases hinactive
      · have hsilent : silent (st.loc x).phase.stage = true := by
          rw [hp x]
          rfl
        exact (hi.fine x).superstep (ne_first_of_silent hsilent) ((hi.fine x).told hsilent)
  | computed hphase =>
      refine ⟨hi.stored, hgood, ?_⟩
      intro x
      refine (hi.fine x).withPhase (fun b todo heq => by rw [hphase x] at heq; cases heq) rfl ?_
      have ht := (hi.fine x).telling
      unfold Telling at ht
      rw [hphase x] at ht
      refine ⟨rows_nodup (grp x), ?_⟩
      intro u hu _ e he
      exact (ht u hu e he).resolve_right List.not_mem_nil
  | voted hphase =>
      exact ⟨hi.stored, hgood, fun x => (hi.fine x).goOn (by rw [hphase x]; rfl) rfl id⟩
  | reduce hphase =>
      refine ⟨hi.stored, hgood, ?_⟩
      intro x
      have hsilent : silent (st.loc x).phase.stage = true := by
        rcases hphase with hp | hp <;> rw [hp x] <;> rfl
      simp only [Worker.afterReduce]
      split
      · exact (hi.fine x).goOn hsilent rfl id
      · exact (hi.fine x).goOn hsilent rfl id
  | leave hphase =>
      exact ⟨hi.stored, hgood, fun x => (hi.fine x).goOn (by rw [hphase x]; rfl) rfl id⟩

omit [Inhabited α] in
theorem inv_start : Inv grp stod getServer (start (m := m) grp stod) where
  stored := by
    intro x a hx
    cases hx
  good := by
    intro w
    exact fun v _ => rfl
  fine := by
    intro w
    have hrow : ∀ v ∈ rows (grp w), From grp stod v (stod v) := fun v hv =>
      ⟨v, ⟨w, hv⟩, .refl, rfl⟩
    constructor
    · exact hrow
    · intro b hb
      rcases List.mem_map.mp hb with ⟨v, hv, rfl⟩
      exact ⟨v, stod v, rfl, hrow v hv⟩
    · exact fun v _ => le_rfl
    · exact fun v hv => .inr ⟨_, rfl, List.mem_map.mpr ⟨v, hv, rfl⟩⟩
    · trivial

omit [LinearOrder α] [Inhabited α] in
theorem start_place (w w' : Fin n) :
    ((start (m := m) grp stod).loc w).place = ((start (m := m) grp stod).loc w').place := rfl

theorem inv_of_reachable (h : Reachable
      ((loop (W := W)).step (mvvLib other) getServer fun w => init (grp w)) (start grp stod) st) :
    Inv grp stod getServer st := by
  have hboth := h.invariant (P := fun st => Reachable
      ((loop (W := W)).step (mvvLib other) getServer fun w => init (grp w)) (start grp stod) st ∧
      Inv grp stod getServer st) ⟨.refl _, inv_start⟩ (by
    intro s l s' hs hstep
    have hplace := same_place start_place hs.1
    exact ⟨hs.1.tail hstep, hs.2.move hplace (move_of_step hplace hstep)⟩)
  exact hboth.2

omit [Inhabited α] in
/-- Out of the loop, every vertex has the greatest initial value of the rows that reach it. -/
theorem Inv.isGreatest (hi : Inv grp stod getServer st) (hleft : ∀ w, (st.loc w).LeftLoop)
    {w : Fin n} {v : Str} (hv : v ∈ rows (grp w)) :
    IsGreatest (stod '' {u | Row grp u ∧ Reaches grp u v}) ((st.loc w).vertexValMap v) := by
  have hsettled : ∀ w, ∀ v ∈ rows (grp w), (st.loc w).vertexActiveMap v = false ∧
      st.store.value getServer v = some ((st.loc w).vertexValMap v) := by
    intro w v hv
    rcases (hi.good w).of_leftLoop (hleft w) v hv with ⟨⟨msg, hmsg, hval⟩, hinactive⟩
    exact ⟨hinactive, by rw [hmsg, hval]; rfl⟩
  have htold : ∀ w, ∀ u ∈ rows (grp w), Told grp (st.store.value getServer) w (st.loc w) u := by
    intro w u hu
    have hsilent : silent (st.loc w).phase.stage = true := by
      rcases hleft w with hp | hp <;> rw [hp] <;> rfl
    exact (hi.fine w).told hsilent u hu (hsettled w u hu).1
  -- along a path the values on the server do not fall; every vertex on it but the last is a row
  have hpath : ∀ u x, Reaches grp u x → ∀ a, AtLeast (st.store.value getServer u) a →
      AtLeast (st.store.value getServer x) a := by
    intro u x hreach a hu
    induction hreach with
    | refl => exact hu
    | tail _ hedge ih =>
        rcases hedge with ⟨w', hrow, wgt, hmem⟩
        rcases ih with ⟨b, hb, hle⟩
        rw [(hsettled w' _ hrow).2] at hb
        cases hb
        rcases htold w' _ hrow _ hmem with ⟨c, hc, hle'⟩
        exact ⟨c, hc, hle.trans hle'⟩
  constructor
  · rcases (hi.fine w).held v hv with ⟨u, hu, hreach, hval⟩
    exact ⟨u, ⟨hu, hreach⟩, hval⟩
  · rintro a ⟨u, ⟨⟨w', hu⟩, hreach⟩, rfl⟩
    have hstart : AtLeast (st.store.value getServer u) (stod u) :=
      ⟨_, (hsettled w' u hu).2, (hi.fine w').grown u hu⟩
    rcases hpath u v hreach _ hstart with ⟨b, hb, hle⟩
    rw [(hsettled w v hv).2] at hb
    cases hb
    exact hle

end Invariant

end Paracel.MaxVertexValue
