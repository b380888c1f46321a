import Mathlib.Algebra.BigOperators.Fin
import Mathlib.Algebra.BigOperators.Pi
import Mathlib.Algebra.BigOperators.Ring.Finset
import Mathlib.Analysis.Complex.Exponential
import Mathlib.Tactic.FieldSimp
import Mathlib.Tactic.Ring
import Paracel.Ps.Shared

/-!
# Logistic regression

`alg/logistic_regression`: the workers hold samples of their own and share the
vector `theta` on the servers. In each round they pull it, work out a delta
(`dgd_learning` a gradient, `ipm_learning` what a pass over their samples
changes), and add it with a bupdate between two barriers, for which `sync()` is
taken as `paracel_sync()`. Every worker pushes a random vector first, and nothing
separates these pushes from the first pulls. Numbers are those of a field, `exp`
any function on it; `debug` is off, so `calc_loss` is not called.
-/

namespace Paracel.LogisticRegression

open StepSystem MergeFold

/-- `vector<double>` of `data_dim` entries. -/
abbrev Vec (K : Type) (d : Nat) := Fin d → K

/-- One of `samples`, with its label. -/
structure Sample (K : Type) (d : Nat) where
  features : Vec K d
  label : K

/-- What a worker has loaded, and what it draws at random. -/
structure Data (K : Type) (d : Nat) where
  samples : List (Sample K d)
  /-- `random_double_list` -/
  theta0 : Vec K d
  /-- `idx` in round `rd`, after `random_shuffle`. -/
  idx : Nat → List (Fin samples.length)
  shuffled : ∀ rd, (idx rd).Perm (List.finRange samples.length)

/-- The samples in the order of a round. -/
def Data.traverse {K : Type} {d : Nat} (data : Data K d) (rd : Nat) : List (Sample K d) :=
  (data.idx rd).map data.samples.get

section Deltas

variable {K : Type} [Field K] {d : Nat} (exp : K → K) (alpha beta : K)

/-- `lg_hypothesis`. -/
def lgHypothesis (theta v : Vec K d) : K :=
  1 / (1 + exp (-∑ i, v i * theta i))

/-- What the loop of `dgd_learning` adds to `delta` for a sample. -/
def gradient (theta : Vec K d) (s : Sample K d) : Vec K d :=
  let coff2 := 2 * beta * alpha
  let grad := s.label - lgHypothesis exp theta s.features
  let coff1 := alpha * grad
  fun i => coff1 * s.features i - coff2 * theta i

/-- `delta` in a round of `dgd_learning`. -/
def dgdDelta (data : Data K d) (rd : Nat) (theta : Vec K d) : Vec K d :=
  (data.traverse rd).foldl (fun delta s i => delta i + gradient exp alpha beta theta s i)
    fun _ => 0

/-- One coordinate of a sample in `ipm_learning`: `theta` changes from one to the next. -/
def ipmCoord (s : Sample K d) (theta : Vec K d) (i : Fin d) : Vec K d :=
  let coff1 := alpha * (s.label - lgHypothesis exp theta s.features)
  let coff2 := 2 * beta * alpha
  Function.update theta i (theta i + (coff1 * s.features i - coff2 * theta i))

/-- The pass of `ipm_learning` over the samples of a worker. -/
def ipmPass (data : Data K d) (rd : Nat) (theta : Vec K d) : Vec K d :=
  (data.traverse rd).foldl
    (fun theta s => (List.finRange d).foldl (ipmCoord exp alpha beta s) theta) theta

/-- `delta` in a round of `ipm_learning`; `workers` is `get_worker_size()`. -/
def ipmDelta (workers : Nat) (data : Data K d) (rd : Nat) (theta : Vec K d) : Vec K d :=
  let wgt := 1 / (workers : K)
  fun i => wgt * (ipmPass exp alpha beta data rd theta i - theta i)

end Deltas

/-- `local_update`. -/
def localUpdate {K : Type} [Field K] {d : Nat} (a b : Vec K d) : Vec K d :=
  fun i => a i + b i

/-- `lg_theta_update`. -/
def lgThetaUpdate : Symbol :=
  ⟨lit "/mfs/user/wuhong/paracel/build/lib/liblg_update.so", lit "lg_theta_update"⟩

/-- The shared libraries, with the one of the program. -/
def lgLib {K : Type} [Field K] {d : Nat} (other : Libs (Vec K d)) : Libs (Vec K d) :=
  { other with
    update := fun func => if func = lgThetaUpdate then localUpdate else other.update func }

/-- The key of the shared vector. -/
def thetaKey : Str := lit "theta"

/-- Where a worker is: before the barrier of `solve`, in the segment that begins with the init
    push, in one that begins with the pull or the bupdate of a round, before the last pull,
    and after `solve`. -/
inductive Loc (K : Type) (d : Nat) where
  | load
  | first
  | map (rd : Nat)
  | reduce (rd : Nat) (delta : Vec K d)
  | last
  | done (theta : Vec K d)

variable {n m d : Nat} {K : Type}

/-- The replies to a worker of the program. -/
abbrev Replies (K : Type) (d : Nat) := List (Option (Reply (Vec K d)))

/-- The vector that the last of the calls pulled. -/
def pulled [Inhabited K] (rs : Replies K d) : Vec K d :=
  readVal rs.getLast?.join

section Program

variable [Inhabited K] (getServer : Str → Fin m) (rounds : Nat) (data : Fin n → Data K d)
  (delta : Fin n → Nat → Vec K d → Vec K d)

/-- The calls that a worker makes before it next waits for the others. -/
def calls (w : Fin n) : Loc K d → List (SrvCall m (Vec K d))
  | .load | .done _ => []
  | .first =>
      .paracelWrite getServer thetaKey (data w).theta0 ::
        (paracelRegisterBupdate m lgThetaUpdate ++ [.paracelRead getServer thetaKey])
  | .map _ | .last => [.paracelRead getServer thetaKey]
  | .reduce _ delta => [.paracelBupdate getServer thetaKey delta none]

/-- Where a worker goes on after a barrier. -/
def next (w : Fin n) (rs : Replies K d) : Loc K d → Loc K d
  | .load => .first
  | .first => if rounds = 0 then .done (pulled rs) else .reduce 0 (delta w 0 (pulled rs))
  | .map rd => .reduce rd (delta w rd (pulled rs))
  | .reduce rd _ => if rd + 1 < rounds then .map (rd + 1) else .last
  | .last => .done (pulled rs)
  | .done theta => .done theta

/-- `solve` with a method that works out `delta` from what it pulls. -/
def solve : Segments.Program n (Loc K d) (SrvCall m (Vec K d)) (Option (Reply (Vec K d))) Unit where
  calls := calls getServer data
  meet := fun _ l _ =>
    match l with
    | .done _ => none
    | _ => some ()
  next := fun w l rs _ => next rounds delta w rs l
  kind := fun _ => 0

end Program

/-- `solve` with `dgd_learning`. -/
def dgdLearning [Field K] [Inhabited K] (exp : K → K) (alpha beta : K) (getServer : Str → Fin m)
    (rounds : Nat) (data : Fin n → Data K d) :
    Segments.Program n (Loc K d) (SrvCall m (Vec K d)) (Option (Reply (Vec K d))) Unit :=
  solve getServer rounds data fun w => dgdDelta exp alpha beta (data w)

/-- `solve` with `ipm_learning`. -/
def ipmLearning [Field K] [Inhabited K] (exp : K → K) (alpha beta : K) (getServer : Str → Fin m)
    (rounds : Nat) (data : Fin n → Data K d) :
    Segments.Program n (Loc K d) (SrvCall m (Vec K d)) (Option (Reply (Vec K d))) Unit :=
  solve getServer rounds data fun w => ipmDelta exp alpha beta n (data w)

/-! ### What the rounds compute -/

section Rounds

variable [Field K] (data : Fin n → Data K d) (delta : Fin n → Nat → Vec K d → Vec K d)

/-- `theta` after round `rd`. The push of `last` came last, and worker `w` first pulled what
    `src w` had pushed; later rounds pull what the round before left. -/
def thetaAfter (last : Fin n) (src : Fin n → Fin n) : Nat → Vec K d
  | 0 => (data last).theta0 + ∑ w, delta w 0 (data (src w)).theta0
  | rd + 1 => thetaAfter last src rd + ∑ w, delta w (rd + 1) (thetaAfter last src rd)

/-- The worker has left the barrier that ends round `rd`, and not the next one. -/
def AfterRound (rounds rd : Nat) : Loc K d → Prop
  | .map rd' => rd' = rd + 1
  | .last => rd + 1 = rounds
  | _ => False

/-- Where all workers are at the start of a segment before anything is pulled. -/
inductive Before [Inhabited K] (rounds : Nat) :
    Segments.Config n (Loc K d) (Servers m (Vec K d)) → Prop where
  | load (servers) : Before rounds ⟨fun _ => .load, servers⟩
  | first (servers) : Before rounds ⟨fun _ => .first, servers⟩
  | none (servers) (theta : Fin n → Vec K d) (hrounds : rounds = 0) :
      Before rounds ⟨fun w => .done (theta w), servers⟩

/-- Where they are later, and what the servers then hold. -/
inductive Stage [Inhabited K] (rounds : Nat) (getServer : Str → Fin m) (lib : Libs (Vec K d))
    (last : Fin n) (src : Fin n → Fin n) :
    Segments.Config n (Loc K d) (Servers m (Vec K d)) → Prop where
  | reduce0 (servers) (hrounds : 0 < rounds)
      (hvalue : servers.value getServer thetaKey = some (data last).theta0)
      (hupdater : ∀ i, Servers.updater lib servers i = localUpdate) :
      Stage rounds getServer lib last src
        ⟨fun w => .reduce 0 (delta w 0 (data (src w)).theta0), servers⟩
  | map (servers) (rd) (hrounds : rd + 1 < rounds)
      (hvalue : servers.value getServer thetaKey = some (thetaAfter data delta last src rd))
      (hupdater : ∀ i, Servers.updater lib servers i = localUpdate) :
      Stage rounds getServer lib last src ⟨fun _ => .map (rd + 1), servers⟩
  | reduce (servers) (rd) (hrounds : rd + 1 < rounds)
      (hvalue : servers.value getServer thetaKey = some (thetaAfter data delta last src rd))
      (hupdater : ∀ i, Servers.updater lib servers i = localUpdate) :
      Stage rounds getServer lib last src
        ⟨fun w => .reduce (rd + 1) (delta w (rd + 1) (thetaAfter data delta last src rd)), servers⟩
  | last (servers) (rd) (hrounds : rd + 1 = rounds)
      (hvalue : servers.value getServer thetaKey = some (thetaAfter data delta last src rd)) :
      Stage rounds getServer lib last src ⟨fun _ => .last, servers⟩
  | done (servers) (rd) (hrounds : rd + 1 = rounds) :
      Stage rounds getServer lib last src
        ⟨fun _ => .done (thetaAfter data delta last src rd), servers⟩

end Rounds

section Segments

variable [Field K] [Inhabited K] {rounds : Nat} {getServer : Str → Fin m} {data : Fin n → Data K d}
  {delta : Fin n → Nat → Vec K d → Vec K d} {other : Libs (Vec K d)}
  {servers : Servers m (Vec K d)} {loc : Fin n → Loc K d}
  {log : List (Fin n × SrvCall m (Vec K d))}

/-- What holds of the servers once a vector has been pushed. -/
def Pushed (data : Fin n → Data K d) (getServer : Str → Fin m) (servers : Servers m (Vec K d)) :
    Prop :=
  ∃ w, servers.value getServer thetaKey = some (data w).theta0

omit [Field K] [Inhabited K] in
/-- The calls of the first segment, one by one. -/
theorem mem_calls_first {w : Fin n} {c : SrvCall m (Vec K d)}
    (h : c ∈ calls getServer data w .first) :
    c = .paracelWrite getServer thetaKey (data w).theta0 ∨
      (∃ i, c = ⟨i, .registerBupdate lgThetaUpdate⟩) ∨ c = .paracelRead getServer thetaKey := by
  simp only [calls, paracelRegisterBupdate, List.mem_cons, List.mem_append, List.mem_map,
    List.mem_finRange, true_and, List.not_mem_nil, or_false] at h
  rcases h with h | ⟨i, h⟩ | h
  · exact .inl h
  · exact .inr (.inl ⟨i, h.symm⟩)
  · exact .inr (.inr h)

/-- No call of the first segment takes the vector away. -/
theorem Pushed.handle {w : Fin n} {c : SrvCall m (Vec K d)}
    (hc : c ∈ calls getServer data w .first) (h : Pushed data getServer servers) :
    Pushed data getServer (Servers.handle (lgLib other) servers c).2 := by
  obtain ⟨x, hx⟩ := h
  rcases mem_calls_first hc with rfl | ⟨i, rfl⟩ | rfl
  · exact ⟨w, by simp⟩
  · exact ⟨x, by simp [hx]⟩
  · exact ⟨x, by simp [hx]⟩

/-- None of them changes an updater that is the registered one. -/
theorem updater_first {w : Fin n} {c : SrvCall m (Vec K d)} (i : Fin m)
    (hc : c ∈ calls getServer data w .first)
    (h : Servers.updater (lgLib other) servers i = localUpdate) :
    Servers.updater (lgLib other) (Servers.handle (lgLib other) servers c).2 i = localUpdate := by
  rcases mem_calls_first hc with rfl | ⟨j, rfl⟩ | rfl
  · simpa using h
  · rw [Servers.updater_register]
    split
    · simp [lgLib]
    · exact h
  · simpa using h

/-- What the first segment leaves: some vector, and the updater on all servers; and every worker
    has pulled some vector. -/
theorem after_first (other : Libs (Vec K d)) (hn : 0 < n)
    (hlogs : (⟨fun _ => .first, servers⟩ : Segments.Config n (Loc K d) _).Logs
      (solve getServer rounds data delta) log) :
    Pushed data getServer (Spmd.replay (Servers.handle (lgLib other)) servers
        (log.map Prod.snd)) ∧
      (∀ i, Servers.updater (lgLib other) (Spmd.replay (Servers.handle (lgLib other)) servers
        (log.map Prod.snd)) i = localUpdate) ∧
      ∀ w, ∃ x, pulled (Segments.repliesOf (Servers.handle (lgLib other)) w servers log) =
        (data x).theta0 := by
  have hcalls : ∀ e ∈ log, e.2 ∈ calls getServer data e.1 .first := fun e he => hlogs.mem he
  have hmem : ∀ w, ∀ c ∈ calls getServer data w .first, (w, c) ∈ log := by
    intro w c hc
    have hw : Spmd.callsOf w log = calls getServer data w .first := hlogs w
    exact Segments.mem_of_mem_callsOf (hw ▸ hc)
  have hpush : ∀ w, ∀ pre : List (Fin n × SrvCall m (Vec K d)), (∀ e ∈ pre, e ∈ log) →
      (w, .paracelWrite getServer thetaKey (data w).theta0) ∈ pre →
      Pushed data getServer (Spmd.replay (Servers.handle (lgLib other)) servers
        (pre.map Prod.snd)) := by
    intro w pre hsub hpre
    apply Segments.replay_of_mem (List.mem_map.mpr ⟨_, hpre, rfl⟩)
    · intro s
      exact ⟨w, by simp⟩
    · intro c hc s hs
      obtain ⟨e, he, rfl⟩ := List.mem_map.mp hc
      exact hs.handle (hcalls e (hsub e he))
  refine ⟨?_, ?_, ?_⟩
  · exact hpush ⟨0, hn⟩ log (fun e he => he) (hmem _ _ (by simp [calls]))
  · intro i
    have hreg : (⟨i, .registerBupdate lgThetaUpdate⟩ : SrvCall m (Vec K d)) ∈
        calls getServer data ⟨0, hn⟩ .first := by
      simp [calls, paracelRegisterBupdate]
    apply Segments.replay_of_mem (List.mem_map.mpr ⟨_, hmem _ _ hreg, rfl⟩)
      (P := fun s => Servers.updater (lgLib other) s i = localUpdate)
    · intro s
      rw [Servers.updater_register, if_pos rfl]
      simp [lgLib]
    · intro c hc s hs
      obtain ⟨e, he, rfl⟩ := List.mem_map.mp hc
      exact updater_first i (hcalls e he) hs
  · intro w
    have hw : Spmd.callsOf w log = (.paracelWrite getServer thetaKey (data w).theta0 ::
        paracelRegisterBupdate m lgThetaUpdate) ++ [.paracelRead getServer thetaKey] := hlogs w
    obtain ⟨pre, post, hlog, hpre, hlast⟩ := Segments.exists_last_reply
      (Servers.handle (lgLib other)) servers hw
    -- the worker's own push is among the calls before its pull
    have hin : (w, .paracelWrite getServer thetaKey (data w).theta0) ∈ pre := by
      apply Segments.mem_of_mem_callsOf
      rw [hpre]
      exact List.mem_cons_self
    obtain ⟨x, hx⟩ := hpush w pre (fun e he => by rw [hlog]; exact List.mem_append_left _ he) hin
    refine ⟨x, ?_⟩
    rw [pulled, hlast, Option.join_some, Servers.readVal_read, hx, Option.getD_some]

/-- A segment of pulls: every worker has the vector that is there. -/
theorem after_pull (other : Libs (Vec K d)) {theta : Vec K d}
    (hlogs : (⟨loc, servers⟩ : Segments.Config n (Loc K d) _).Logs
      (solve getServer rounds data delta) log)
    (hcalls : ∀ w, calls getServer data w (loc w) = [.paracelRead getServer thetaKey])
    (hvalue : servers.value getServer thetaKey = some theta) :
    Spmd.replay (Servers.handle (lgLib other)) servers (log.map Prod.snd) = servers ∧
      ∀ w, pulled (Segments.repliesOf (Servers.handle (lgLib other)) w servers log) = theta := by
  obtain ⟨hafter, hreplies⟩ := Servers.of_reads (lgLib other) hlogs (by
    intro w c hc
    have hw : c ∈ calls getServer data w (loc w) := hc
    rw [hcalls, List.mem_singleton] at hw
    exact ⟨thetaKey, hw⟩)
  refine ⟨hafter, ?_⟩
  intro w
  have hw : Segments.repliesOf (Servers.handle (lgLib other)) w servers log =
      (calls getServer data w (loc w)).map fun c => (Servers.handle (lgLib other) servers c).1 :=
    hreplies w
  rw [hw, hcalls]
  simp [pulled, hvalue]

omit [Inhabited K] in
theorem mergeAll_localUpdate (theta : Vec K d) (ds : List (Vec K d)) :
    mergeAll localUpdate (some theta) ds = some (theta + ds.sum) := by
  have hadd : (localUpdate : Vec K d → Vec K d → Vec K d) = (· + ·) := rfl
  rw [hadd]
  exact mergeAll_add (theta :: ds)

/-- A segment of bupdates: the deltas of all workers are added up. -/
theorem after_bupdates (other : Libs (Vec K d)) {theta : Vec K d} {rd : Nat} {ds : Fin n → Vec K d}
    (hlogs : (⟨fun w => .reduce rd (ds w), servers⟩ : Segments.Config n (Loc K d) _).Logs
      (solve getServer rounds data delta) log)
    (hvalue : servers.value getServer thetaKey = some theta)
    (hupdater : ∀ i, Servers.updater (lgLib other) servers i = localUpdate) :
    (Spmd.replay (Servers.handle (lgLib other)) servers (log.map Prod.snd)).value getServer
        thetaKey = some (theta + ∑ w, ds w) ∧
      ∀ i, Servers.updater (lgLib other) (Spmd.replay (Servers.handle (lgLib other)) servers
        (log.map Prod.snd)) i = localUpdate := by
  have hcall : ∀ e ∈ log, e.2 = .paracelBupdate getServer thetaKey (ds e.1) none := by
    intro e he
    exact List.mem_singleton.mp (hlogs.mem he)
  constructor
  · obtain ⟨es, hperm, hafter⟩ := Servers.of_merges (lgLib other) (f := localUpdate) hlogs (by
      intro w c hc
      rw [List.mem_singleton.mp hc]
      exact merges_bupdate hupdater thetaKey (ds w)) thetaKey
    have hdeltas : ((List.finRange n).flatMap fun w => deltasOf thetaKey
        ((calls getServer data w (.reduce rd (ds w))).flatMap fun c => c.req.pairs)) =
        (List.finRange n).map ds := by
      rw [List.map_eq_flatMap]
      rfl
    have hsum : es.sum = ∑ w, ds w := by
      rw [hperm.sum_eq, Fin.sum_univ_def]
      exact congrArg List.sum hdeltas
    rw [← hsum, ← mergeAll_localUpdate, ← hvalue]
    exact hafter
  · intro i
    apply Segments.replay_invariant
      (P := fun s => Servers.updater (lgLib other) s i = localUpdate) _ (hupdater i)
    intro c hc s hs
    obtain ⟨e, he, rfl⟩ := List.mem_map.mp hc
    rw [hcall e he, Servers.updater_bupdate]
    exact hs

/-- The first segment leads to a stage. -/
theorem Before.leads (hn : 0 < n) {cfg cfg' : Segments.Config n (Loc K d) (Servers m (Vec K d))}
    (h : Before rounds cfg)
    (hleads : Segments.Leads (solve getServer rounds data delta) (Servers.handle (lgLib other))
      cfg cfg') :
    Before rounds cfg' ∨
      ∃ last src, Stage data delta rounds getServer (lgLib other) last src cfg' := by
  obtain ⟨log, c, hseg⟩ := hleads
  have hlogs := hseg.logs
  rw [hseg.eq]
  cases h with
  | load servers => exact .inl (.first _)
  | first servers =>
      obtain ⟨⟨last, hlast⟩, hupdater, hpulled⟩ := after_first other hn hlogs
      choose src hsrc using hpulled
      by_cases hrounds : rounds = 0
      · simp only [solve, next, if_pos hrounds]
        exact .inl (.none _ _ hrounds)
      · simp only [solve, next, if_neg hrounds, hsrc]
        exact .inr ⟨last, src, .reduce0 _ (Nat.pos_of_ne_zero hrounds) hlast hupdater⟩
  | none servers theta hrounds =>
      have hnone := hseg.offers ⟨0, hn⟩
      cases hnone

/-- One segment leads from a stage to the next. -/
theorem Stage.leads (hn : 0 < n) {cfg cfg' : Segments.Config n (Loc K d) (Servers m (Vec K d))}
    {last : Fin n} {src : Fin n → Fin n}
    (h : Stage data delta rounds getServer (lgLib other) last src cfg)
    (hleads : Segments.Leads (solve getServer rounds data delta) (Servers.handle (lgLib other))
      cfg cfg') : Stage data delta rounds getServer (lgLib other) last src cfg' := by
  obtain ⟨log, c, hseg⟩ := hleads
  have hlogs := hseg.logs
  rw [hseg.eq]
  cases h with
  | reduce0 servers hrounds hvalue hupdater =>
      obtain ⟨hvalue', hupdater'⟩ := after_bupdates other hlogs hvalue hupdater
      by_cases hmore : 0 + 1 < rounds
      · simp only [solve, next, if_pos hmore]
        exact .map _ 0 hmore hvalue' hupdater'
      · simp only [solve, next, if_neg hmore]
        exact .last _ 0 (by omega) hvalue'
  | map servers rd hrounds hvalue hupdater =>
      obtain ⟨hafter, hpulled⟩ := after_pull other hlogs (fun _ => rfl) hvalue
      simp only [solve, next, hpulled, Segments.Config.after, hafter]
      exact .reduce _ rd hrounds hvalue hupdater
  | reduce servers rd hrounds hvalue hupdater =>
      obtain ⟨hvalue', hupdater'⟩ := after_bupdates other hlogs hvalue hupdater
      by_cases hmore : rd + 1 + 1 < rounds
      · simp only [solve, next, if_pos hmore]
        exact .map _ (rd + 1) hmore hvalue' hupdater'
      · simp only [solve, next, if_neg hmore]
        exact .last _ (rd + 1) (by omega) hvalue'
  | last servers rd hrounds hvalue =>
      obtain ⟨hafter, hpulled⟩ := after_pull other hlogs (fun _ => rfl) hvalue
      simp only [solve, next, hpulled]
      exact .done _ rd hrounds
  | done servers rd hrounds =>
      have hnone := hseg.offers ⟨0, hn⟩
      cases hnone

/-- The states of the program: all workers before the barrier of `solve` at first. -/
abbrev Runs (rounds : Nat) (getServer : Str → Fin m) (data : Fin n → Data K d)
    (delta : Fin n → Nat → Vec K d → Vec K d) (lib : Libs (Vec K d))
    (servers : Servers m (Vec K d))
    (st : Segments.State n (Loc K d) (SrvCall m (Vec K d)) (Option (Reply (Vec K d)))
      (Servers m (Vec K d))) : Prop :=
  Reachable (Segments.checked readOk (solve getServer rounds data delta) (Servers.handle lib))
    (Segments.start (solve getServer rounds data delta) ⟨fun _ => .load, servers⟩) st

variable {st : Segments.State n (Loc K d) (SrvCall m (Vec K d)) (Option (Reply (Vec K d)))
  (Servers m (Vec K d))}

/-- Every segment that a run comes to starts from a stage, or nothing is pulled before. -/
theorem stage_of_visits (hn : 0 < n) {cfg : Segments.Config n (Loc K d) (Servers m (Vec K d))}
    (h : Segments.Visits (solve getServer rounds data delta) (Servers.handle (lgLib other))
      ⟨fun _ => .load, servers⟩ cfg) :
    Before rounds cfg ∨
      ∃ last src, Stage data delta rounds getServer (lgLib other) last src cfg := by
  refine h.invariant (P := fun cfg => Before rounds cfg ∨ ∃ last src,
    Stage data delta rounds getServer (lgLib other) last src cfg) (.inl (.load servers)) ?_
  intro cfg cfg' hcfg hleads
  rcases hcfg with hbefore | ⟨last, src, hstage⟩
  · exact hbefore.leads hn hleads
  · exact .inr ⟨last, src, hstage.leads hn hleads⟩

/-- The workers pull the vector when it is there, or after they have pushed one. -/
theorem calls_ok {cfg : Segments.Config n (Loc K d) (Servers m (Vec K d))}
    (hpresent : ∀ w, ((∃ rd, cfg.loc w = .map rd) ∨ cfg.loc w = .last) →
      (cfg.store.value getServer thetaKey).isSome)
    (hlogs : cfg.Logs (solve getServer rounds data delta) log) (w : Fin n) :
    ∀ r ∈ Segments.repliesOf (Servers.handle (lgLib other)) w cfg.store log, readOk r := by
  apply Servers.replies_ok (lgLib other) getServer hlogs
  · intro w c hc
    have hmem : c ∈ calls getServer data w (cfg.loc w) := hc
    cases hloc : cfg.loc w with
    | load | done => simp [hloc, calls] at hmem
    | map | last =>
        rw [hloc] at hmem
        rw [List.mem_singleton.mp hmem]
        exact .quiet _ rfl
    | first =>
        rw [hloc] at hmem
        rcases mem_calls_first hmem with rfl | ⟨i, rfl⟩ | rfl
        · exact .write _ _
        · exact .quiet _ rfl
        · exact .quiet _ rfl
    | reduce rd ds =>
        rw [hloc] at hmem
        rw [List.mem_singleton.mp hmem]
        exact .bupdate _ _ _
  · intro w
    show ∃ own asked, calls getServer data w (cfg.loc w) = own ++ asked ∧ _
    cases hloc : cfg.loc w with
    | load | done => exact ⟨[], [], rfl, by simp, by simp⟩
    | map rd =>
        have hsome := hpresent w (.inl ⟨rd, hloc⟩)
        refine ⟨[.paracelRead getServer thetaKey], [], rfl, fun c hc => ?_, by simp⟩
        exact .inr ⟨thetaKey, List.mem_singleton.mp hc, hsome⟩
    | last =>
        have hsome := hpresent w (.inr hloc)
        refine ⟨[.paracelRead getServer thetaKey], [], rfl, fun c hc => ?_, by simp⟩
        exact .inr ⟨thetaKey, List.mem_singleton.mp hc, hsome⟩
    | reduce rd ds =>
        refine ⟨[.paracelBupdate getServer thetaKey ds none], [], rfl, fun c hc => ?_, by simp⟩
        rw [List.mem_singleton.mp hc]
        exact .inl nofun
    | first =>
        refine ⟨.paracelWrite getServer thetaKey (data w).theta0 ::
          paracelRegisterBupdate m lgThetaUpdate, [.paracelRead getServer thetaKey], rfl, ?_, ?_⟩
        · intro c hc
          rcases List.mem_cons.mp hc with rfl | hreg
          · exact .inl nofun
          · obtain ⟨i, -, rfl⟩ := List.mem_map.mp hreg
            exact .inl nofun
        · intro c hc
          exact .inr ⟨thetaKey, List.mem_singleton.mp hc, .inl ⟨_, List.mem_cons_self, rfl⟩⟩

/-- No worker ends at a pull. -/
theorem answered (hn : 0 < n) : Segments.Answered readOk (solve getServer rounds data delta)
    (Servers.handle (lgLib other)) ⟨fun _ => .load, servers⟩ := by
  intro cfg log hvisits hlogs
  apply calls_ok _ hlogs
  intro w hw
  rcases stage_of_visits hn hvisits with hbefore | ⟨last, src, hstage⟩
  · cases hbefore <;> simp at hw
  · cases hstage with
    | reduce0 | reduce | done => simp at hw
    | map _ _ _ hvalue | last _ _ _ hvalue => exact Option.isSome_of_eq_some hvalue

/-- What a worker that is through has pulled. -/
theorem Runs.done_eq (hn : 0 < n) (hrounds : 0 < rounds)
    (h : Runs rounds getServer data delta (lgLib other) servers st) :
    ∃ last src, ∀ w theta, (st.loc w).base = .done theta →
      theta = thetaAfter data delta last src (rounds - 1) := by
  obtain ⟨cfg, log, hvisits, hwithin⟩ := Segments.exists_within (Segments.reachable_of_checked h)
  have hnone : (∀ w theta, cfg.loc w ≠ .done theta) → ∃ last src, ∀ w theta,
      (st.loc w).base = .done theta → theta = thetaAfter data delta last src (rounds - 1) := by
    refine fun hne => ⟨⟨0, hn⟩, id, fun w theta hdone => ?_⟩
    rw [hwithin.base] at hdone
    exact absurd hdone (hne w theta)
  rcases stage_of_visits hn hvisits with hbefore | ⟨last, src, hstage⟩
  · cases hbefore with
    | load | first => exact hnone fun w theta => nofun
    | none servers theta hzero => omega
  · cases hstage with
    | reduce0 | map | reduce | last => exact hnone fun w theta => nofun
    | done servers rd hrd =>
        refine ⟨last, src, fun w theta hdone => ?_⟩
        rw [hwithin.base] at hdone
        cases hdone
        rw [← hrd, Nat.add_sub_cancel]

/-- A worker that pulls finds the vector there, and has it then. -/
theorem pulled_within {cfg : Segments.Config n (Loc K d) (Servers m (Vec K d))} {theta : Vec K d}
    (h : Segments.Within (solve getServer rounds data delta) (Servers.handle (lgLib other))
      cfg log st)
    (hcalls : ∀ w, calls getServer data w (cfg.loc w) = [.paracelRead getServer thetaKey])
    (hvalue : cfg.store.value getServer thetaKey = some theta) :
    st.store.value getServer thetaKey = some theta ∧
      ∀ w, (st.loc w).todo = [] → pulled (st.loc w).got = theta := by
  have hquiet : ∀ pre post, log = pre ++ post → (Spmd.replay (Servers.handle (lgLib other))
      cfg.store (pre.map Prod.snd)).value getServer thetaKey = some theta := by
    intro pre post hlog
    rw [Servers.value_replay_quiet, hvalue]
    intro c hc
    obtain ⟨e, he, rfl⟩ := List.mem_map.mp hc
    have hmem : e.2 ∈ calls getServer data e.1 (cfg.loc e.1) :=
      h.mem (hlog ▸ List.mem_append_left _ he)
    rw [hcalls, List.mem_singleton] at hmem
    rw [hmem]
    rfl
  refine ⟨by rw [h.store]; exact hquiet log [] (List.append_nil log).symm, fun w hdone => ?_⟩
  have hw : Spmd.callsOf w log = [] ++ [.paracelRead getServer thetaKey] := by
    have htodo := h.todo w
    rw [hdone, List.append_nil] at htodo
    exact htodo.trans (hcalls w)
  obtain ⟨pre, post, hlog, -, hlast⟩ := Segments.exists_last_reply
    (Servers.handle (lgLib other)) cfg.store hw
  rw [h.got, pulled, hlast, Option.join_some, Servers.readVal_read, hquiet pre _ hlog,
    Option.getD_some]

/-- What the rounds leave on the servers and with every worker, in the states of one run. -/
theorem exists_throughout_rounds (hn : 0 < n) (hrounds : 0 < rounds) {as}
    (h : run (Segments.checked readOk (solve getServer rounds data delta)
        (Servers.handle (lgLib other)))
      (Segments.start (solve getServer rounds data delta) ⟨fun _ => .load, servers⟩) as = some st) :
    ∃ last src, Throughout (Segments.checked readOk (solve getServer rounds data delta)
        (Servers.handle (lgLib other)))
      (Segments.start (solve getServer rounds data delta) ⟨fun _ => .load, servers⟩) as
      fun t => ∀ w,
        (∀ rd, AfterRound rounds rd (t.loc w).base →
          t.store.value getServer thetaKey = some (thetaAfter data delta last src rd) ∧
            ((t.loc w).todo = [] → pulled (t.loc w).got = thetaAfter data delta last src rd)) ∧
        ∀ theta, (t.loc w).base = .done theta →
          theta = thetaAfter data delta last src (rounds - 1) := by
  let prog := solve getServer rounds data delta
  let sem := Servers.handle (m := m) (lgLib other)
  have hne : Nonempty (Fin n × (Fin n → Fin n)) := ⟨⟨0, hn⟩, id⟩
  obtain ⟨⟨last, src⟩, hall⟩ := exists_throughout (E := Segments.Inside prog sem (Before rounds))
    (P := fun i : Fin n × (Fin n → Fin n) =>
      Segments.Inside prog sem (Stage data delta rounds getServer (lgLib other) i.1 i.2))
    (by
      intro s l s' hs hstep
      rcases hs.advance (q := fun cfg => Before rounds cfg ∨ ∃ last src,
          Stage data delta rounds getServer (lgLib other) last src cfg)
        (fun cfg cfg' hbefore hleads => hbefore.leads hn hleads)
        (Segments.step_of_checked hstep) with hin | ⟨cfg, log, hbefore | ⟨last, src, hstage⟩, hin⟩
      · exact .inl hin
      · exact .inl ⟨cfg, log, hbefore, hin⟩
      · exact .inr ⟨(last, src), cfg, log, hstage, hin⟩)
    (by
      intro i s l s' hs hstep
      exact (hs.advance (fun cfg cfg' hstage hleads => hstage.leads hn hleads)
        (Segments.step_of_checked hstep)).elim id id)
    (Segments.inside_start (.load servers)) h
  refine ⟨last, src, fun pre t hpre ht w => ?_⟩
  rcases hall pre t hpre ht with ⟨cfg, log, hbefore, hin⟩ | ⟨cfg, log, hstage, hin⟩
  · rw [hin.base]
    cases hbefore with
    | load | first => exact ⟨fun _ => False.elim, fun _ => nofun⟩
    | none servers theta hzero => omega
  · rw [hin.base]
    cases hstage with
    | reduce0 | reduce => exact ⟨fun _ => False.elim, fun _ => nofun⟩
    | map servers rd hrd hvalue =>
        obtain ⟨hthere, hpulled⟩ := pulled_within hin (fun _ => rfl) hvalue
        refine ⟨fun rd' hrd' => ?_, fun _ => nofun⟩
        obtain rfl : rd = rd' := Nat.succ.inj hrd'
        exact ⟨hthere, hpulled w⟩
    | last servers rd hrd hvalue =>
        obtain ⟨hthere, hpulled⟩ := pulled_within hin (fun _ => rfl) hvalue
        refine ⟨fun rd' hrd' => ?_, fun _ => nofun⟩
        obtain rfl : rd = rd' := Nat.succ.inj (hrd.trans (Eq.symm hrd'))
        exact ⟨hthere, hpulled w⟩
    | done servers rd hrd =>
        refine ⟨fun _ => False.elim, fun theta hdone => ?_⟩
        cases hdone
        rw [← hrd, Nat.add_sub_cancel]

/-- How many segments are left, at most. -/
def level (rounds : Nat) : Loc K d → Nat
  | .load => 2 * rounds + 5
  | .first => 2 * rounds + 4
  | .map rd => 2 * (rounds - rd) + 3
  | .reduce rd _ => 2 * (rounds - rd) + 2
  | .last => 1
  | .done _ => 0

omit [Field K] in
theorem level_next {w : Fin n} {l : Loc K d} (hl : ∀ theta, l ≠ .done theta)
    (rs : Replies K d) : level rounds (next rounds delta w rs l) < level rounds l := by
  cases l with
  | load => simp [next, level]
  | first =>
      by_cases hzero : rounds = 0
      · simp [next, hzero, level]
      · simp [next, hzero, level]
  | map rd => simp [next, level]
  | reduce rd ds =>
      by_cases hmore : rd + 1 < rounds
      · simp only [next, if_pos hmore, level]
        omega
      · simp only [next, if_neg hmore, level]
        omega
  | last => simp [next, level]
  | done theta => exact absurd rfl (hl theta)

/-- All workers are through, or none is. -/
theorem done_or_of_visits (hn : 0 < n)
    {cfg : Segments.Config n (Loc K d) (Servers m (Vec K d))}
    (h : Segments.Visits (solve getServer rounds data delta) (Servers.handle (lgLib other))
      ⟨fun _ => .load, servers⟩ cfg) :
    (∀ w, ∃ theta, cfg.loc w = .done theta) ∨ ∀ w theta, cfg.loc w ≠ .done theta := by
  rcases stage_of_visits hn h with hbefore | ⟨last, src, hstage⟩
  · cases hbefore with
    | none servers theta => exact .inl fun w => ⟨_, rfl⟩
    | load | first => exact .inr fun w theta => nofun
  · cases hstage with
    | done servers rd => exact .inl fun w => ⟨_, rfl⟩
    | _ => exact .inr fun w theta => nofun

omit [Field K] in
theorem offer_of_done {cfg : Segments.Config n (Loc K d) (Servers m (Vec K d))} {w : Fin n}
    {theta : Vec K d} (h : cfg.loc w = .done theta) {sem} :
    cfg.offer (solve getServer rounds data delta) sem log w = none := by
  simp only [Segments.Config.offer, solve, h]

omit [Field K] in
theorem offer_of_ne_done {cfg : Segments.Config n (Loc K d) (Servers m (Vec K d))} {w : Fin n}
    (h : ∀ theta, cfg.loc w ≠ .done theta) {sem} :
    cfg.offer (solve getServer rounds data delta) sem log w = some () := by
  unfold Segments.Config.offer
  cases hl : cfg.loc w with
  | done theta => exact absurd hl (h theta)
  | _ => rfl

/-- Every run can be continued until all workers are through. -/
theorem Runs.exists_done (hn : 0 < n)
    (h : Runs rounds getServer data delta (lgLib other) servers st) :
    ∃ t, Reachable (Segments.checked readOk (solve getServer rounds data delta)
        (Servers.handle (lgLib other))) st t ∧
      ∀ w, ∃ theta, (t.loc w).base = .done theta := by
  obtain ⟨t, ht, hhalted⟩ := (answered hn).exists_halted
    (fun loc => level rounds (loc ⟨0, hn⟩))
    (by
      intro cfg log hvisits _
      rcases done_or_of_visits hn hvisits with hdone | hnone
      · refine .inl fun w => ?_
        obtain ⟨theta, hw⟩ := hdone w
        exact offer_of_done hw
      · exact .inr ⟨fun _ => (), fun w => offer_of_ne_done (hnone w), fun _ _ => rfl⟩)
    (by
      intro cfg cfg' hvisits hleads
      obtain ⟨log, c, hseg⟩ := hleads
      have hoffer := hseg.offers ⟨0, hn⟩
      rw [hseg.loc]
      apply level_next
      intro theta hdone
      rw [offer_of_done hdone] at hoffer
      cases hoffer) h
  refine ⟨t, ht, fun w => ?_⟩
  have hmeet := (hhalted w).2
  cases hbase : (t.loc w).base with
  | done theta => exact ⟨theta, rfl⟩
  | _ =>
      rw [hbase] at hmeet
      cases hmeet

end Segments

/-! ### The two methods -/

section Methods

variable [Field K] (exp : K → K) (alpha beta : K)

/-- One step of batch gradient descent on a single machine. -/
def batchStep (samples : List (Sample K d)) (theta : Vec K d) : Vec K d :=
  theta + (samples.map (gradient exp alpha beta theta)).sum

/-- The samples of all workers. -/
def pooled (data : Fin n → Data K d) : List (Sample K d) :=
  (List.finRange n).flatMap fun w => (data w).samples

omit [Field K] in
theorem traverse_perm (data : Data K d) (rd : Nat) : (data.traverse rd).Perm data.samples := by
  have hperm := (data.shuffled rd).map data.samples.get
  rwa [List.map_get_finRange] at hperm

/-- The order in which a worker goes through its samples does not matter. -/
theorem dgdDelta_eq (data : Data K d) (rd : Nat) (theta : Vec K d) :
    dgdDelta exp alpha beta data rd theta =
      (data.samples.map (gradient exp alpha beta theta)).sum := by
  have hfold : ∀ (ss : List (Sample K d)) (acc : Vec K d),
      ss.foldl (fun delta s i => delta i + gradient exp alpha beta theta s i) acc =
        acc + (ss.map (gradient exp alpha beta theta)).sum := by
    intro ss
    induction ss with
    | nil => simp
    | cons s ss ih =>
        intro acc
        rw [List.foldl_cons, ih, List.map_cons, List.sum_cons, ← add_assoc]
        rfl
  rw [dgdDelta, hfold]
  have hzero : (fun _ => 0 : Vec K d) = 0 := rfl
  rw [hzero, zero_add]
  exact ((traverse_perm data rd).map _).sum_eq

theorem sum_dgdDelta (data : Fin n → Data K d) (rd : Nat) (theta : Vec K d) :
    ∑ w, dgdDelta exp alpha beta (data w) rd theta =
      ((pooled data).map (gradient exp alpha beta theta)).sum := by
  have hsum : ∀ ws : List (Fin n), (ws.map fun w => dgdDelta exp alpha beta (data w) rd theta).sum =
      ((ws.flatMap fun w => (data w).samples).map (gradient exp alpha beta theta)).sum := by
    intro ws
    induction ws with
    | nil => rfl
    | cons w ws ih =>
        rw [List.map_cons, List.sum_cons, List.flatMap_cons, List.map_append, List.sum_append, ih,
          dgdDelta_eq]
  rw [Fin.sum_univ_def]
  exact hsum _

theorem thetaAfter_dgd (data : Fin n → Data K d) (last : Fin n) (src : Fin n → Fin n)
    (rd : Nat) :
    thetaAfter data (fun w => dgdDelta exp alpha beta (data w)) last src rd =
      (batchStep exp alpha beta (pooled data))^[rd] ((data last).theta0 +
        ∑ w, ((data w).samples.map (gradient exp alpha beta (data (src w)).theta0)).sum) := by
  induction rd with
  | zero => simp only [thetaAfter, dgdDelta_eq, Function.iterate_zero, id]
  | succ rd ih =>
      rw [thetaAfter, sum_dgdDelta, Function.iterate_succ_apply', ← ih]
      rfl

variable [Inhabited K] {getServer : Str → Fin m} {rounds : Nat} {data : Fin n → Data K d}
  {other : Libs (Vec K d)} {servers : Servers m (Vec K d)}
  {st : Segments.State n (Loc K d) (SrvCall m (Vec K d)) (Option (Reply (Vec K d)))
    (Servers m (Vec K d))}

/-- In every run of `dgd_learning` the rounds after the first are steps of batch gradient descent
    on the samples of all workers, and every run can be continued to its end. In the first round
    the gradients are taken at vectors that some workers pushed. -/
theorem dgd_learning_batch (hn : 0 < n) (hrounds : 0 < rounds)
    (h : Reachable (Segments.checked readOk (dgdLearning exp alpha beta getServer rounds data)
        (Servers.handle (lgLib other)))
      (Segments.start (dgdLearning exp alpha beta getServer rounds data)
        ⟨fun _ => .load, servers⟩) st) :
    (∃ t, Reachable (Segments.checked readOk (dgdLearning exp alpha beta getServer rounds data)
        (Servers.handle (lgLib other))) st t ∧ ∀ w, ∃ theta, (t.loc w).base = .done theta) ∧
      ∃ (last : Fin n) (src : Fin n → Fin n), ∀ w theta, (st.loc w).base = .done theta →
        theta = (batchStep exp alpha beta (pooled data))^[rounds - 1] ((data last).theta0 +
          ∑ w, ((data w).samples.map (gradient exp alpha beta (data (src w)).theta0)).sum) := by
  have hruns : Runs rounds getServer data (fun w => dgdDelta exp alpha beta (data w))
    (lgLib other) servers st := h
  refine ⟨hruns.exists_done hn, ?_⟩
  obtain ⟨last, src, hdone⟩ := hruns.done_eq hn hrounds
  refine ⟨last, src, fun w theta hw => ?_⟩
  rw [hdone w theta hw, thetaAfter_dgd]

/-- Rounds of `ipm_learning` after the first: the mean of what the passes of the workers make of
    the vector that they all pulled. -/
def meanAfter (exp : K → K) (alpha beta : K) (data : Fin n → Data K d) (theta : Vec K d) :
    Nat → Vec K d
  | 0 => theta
  | rd + 1 => fun i =>
      (∑ w, ipmPass exp alpha beta (data w) (rd + 1) (meanAfter exp alpha beta data theta rd) i) / n

/-- What the first round of `ipm_learning` leaves: the push of `last` came last, and worker `w`
    pulled what `src w` had pushed. -/
def ipmFirst (exp : K → K) (alpha beta : K) (data : Fin n → Data K d) (last : Fin n)
    (src : Fin n → Fin n) : Vec K d :=
  (data last).theta0 + ∑ w, ipmDelta exp alpha beta n (data w) 0 (data (src w)).theta0

omit [Inhabited K] in
theorem add_sum_ipmDelta (hn : (n : K) ≠ 0) (rd : Nat) (theta : Vec K d) :
    theta + ∑ w, ipmDelta exp alpha beta n (data w) rd theta =
      fun i => (∑ w, ipmPass exp alpha beta (data w) rd theta i) / n := by
  funext i
  simp only [ipmDelta, Pi.add_apply, Finset.sum_apply]
  rw [← Finset.mul_sum, Finset.sum_sub_distrib, Finset.sum_const, Finset.card_fin, nsmul_eq_mul]
  field_simp
  ring

omit [Inhabited K] in
theorem thetaAfter_ipm (hn : (n : K) ≠ 0) (last : Fin n) (src : Fin n → Fin n) (rd : Nat) :
    thetaAfter data (fun w => ipmDelta exp alpha beta n (data w)) last src rd =
      meanAfter exp alpha beta data (ipmFirst exp alpha beta data last src) rd := by
  induction rd with
  | zero => rfl
  | succ rd ih => rw [thetaAfter, ih, add_sum_ipmDelta exp alpha beta hn, meanAfter]

/-- In every run of `ipm_learning` a round after the first leaves, on the servers and with every
    worker that pulls, the mean of what the workers make of the vector that the round before left,
    each with a pass over its own samples. Every run can be continued to its end. -/
theorem ipm_learning_mean [CharZero K] (hn : 0 < n) (hrounds : 0 < rounds) {as}
    (h : run (Segments.checked readOk (ipmLearning exp alpha beta getServer rounds data)
        (Servers.handle (lgLib other)))
      (Segments.start (ipmLearning exp alpha beta getServer rounds data)
        ⟨fun _ => .load, servers⟩) as = some st) :
    (∃ t, Reachable (Segments.checked readOk (ipmLearning exp alpha beta getServer rounds data)
        (Servers.handle (lgLib other))) st t ∧ ∀ w, ∃ theta, (t.loc w).base = .done theta) ∧
      ∃ (last : Fin n) (src : Fin n → Fin n),
        Throughout (Segments.checked readOk (ipmLearning exp alpha beta getServer rounds data)
            (Servers.handle (lgLib other)))
          (Segments.start (ipmLearning exp alpha beta getServer rounds data)
            ⟨fun _ => .load, servers⟩) as fun t => ∀ w,
          (∀ rd, AfterRound rounds rd (t.loc w).base →
            t.store.value getServer thetaKey =
              some (meanAfter exp alpha beta data (ipmFirst exp alpha beta data last src) rd) ∧
            ((t.loc w).todo = [] → pulled (t.loc w).got =
              meanAfter exp alpha beta data (ipmFirst exp alpha beta data last src) rd)) ∧
          ∀ theta, (t.loc w).base = .done theta → theta =
            meanAfter exp alpha beta data (ipmFirst exp alpha beta data last src) (rounds - 1) := by
  have hruns : Runs rounds getServer data (fun w => ipmDelta exp alpha beta n (data w))
    (lgLib other) servers st := ⟨as, h⟩
  have hcast : (n : K) ≠ 0 := Nat.cast_ne_zero.mpr (Nat.pos_iff_ne_zero.mp hn)
  refine ⟨hruns.exists_done hn, ?_⟩
  obtain ⟨last, src, hall⟩ := exists_throughout_rounds hn hrounds h
  refine ⟨last, src, fun pre t hpre ht w => ?_⟩
  have hw := hall pre t hpre ht w
  simpa only [thetaAfter_ipm exp alpha beta hcast] using hw

/-! ### The first round -/

/-- One worker after another: each pulls the vector that it has just pushed. -/
theorem pulled_serial (w : Fin n) :
    pulled (Segments.repliesOf (Servers.handle (lgLib other)) w servers
      (Segments.serialLog fun x => calls getServer data x .first)) = (data w).theta0 := by
  have hserial := Segments.repliesOf_serialLog (Servers.handle (lgLib other))
    (fun x => calls getServer data x .first) w servers
  generalize Spmd.replay (Servers.handle (lgLib other)) servers (((List.finRange n).take
    w).flatMap fun x => calls getServer data x .first) = s at hserial
  have hcalls : calls getServer data w .first =
      (.paracelWrite getServer thetaKey (data w).theta0 ::
        paracelRegisterBupdate m lgThetaUpdate) ++ [.paracelRead getServer thetaKey] := rfl
  have hvalue : (Spmd.replay (Servers.handle (lgLib other)) s
      (.paracelWrite getServer thetaKey (data w).theta0 ::
        paracelRegisterBupdate m lgThetaUpdate)).value getServer thetaKey =
      some (data w).theta0 := by
    rw [Spmd.replay_cons, Servers.value_replay_quiet, Servers.value_write, if_pos rfl]
    intro c hc
    obtain ⟨i, -, rfl⟩ := List.mem_map.mp hc
    rfl
  rw [hserial, hcalls, Segments.answers_append, Segments.answers_singleton, pulled,
    List.getLast?_concat, Option.join_some,
    Servers.readVal_read, hvalue, Option.getD_some]

/-- Where a segment leads when the workers make their calls one after another. -/
def serialNext (getServer : Str → Fin m) (rounds : Nat) (data : Fin n → Data K d)
    (delta : Fin n → Nat → Vec K d → Vec K d) (other : Libs (Vec K d))
    (cfg : Segments.Config n (Loc K d) (Servers m (Vec K d))) :
    Segments.Config n (Loc K d) (Servers m (Vec K d)) :=
  let log := Segments.serialLog fun w => calls getServer data w (cfg.loc w)
  ⟨fun w => next rounds delta w
    (Segments.repliesOf (Servers.handle (lgLib other)) w cfg.store log) (cfg.loc w),
    cfg.after (Servers.handle (lgLib other)) log⟩

theorem reaches_serialNext {delta : Fin n → Nat → Vec K d → Vec K d}
    {cfg : Segments.Config n (Loc K d) (Servers m (Vec K d))}
    (hne : ∀ w theta, cfg.loc w ≠ .done theta)
    (hpresent : ∀ w, ((∃ rd, cfg.loc w = .map rd) ∨ cfg.loc w = .last) →
      (cfg.store.value getServer thetaKey).isSome) :
    Reachable (Segments.checked readOk (solve getServer rounds data delta)
        (Servers.handle (lgLib other)))
      (Segments.start (solve getServer rounds data delta) cfg)
      (Segments.start (solve getServer rounds data delta)
        (serialNext getServer rounds data delta other cfg)) := by
  have hsegment : Segments.Segment (solve getServer rounds data delta)
      (Servers.handle (lgLib other)) cfg
      (Segments.serialLog fun w => calls getServer data w (cfg.loc w)) (fun _ => ())
      (serialNext getServer rounds data delta other cfg) :=
    { logs := Segments.callsOf_serialLog _
      offers := fun w => offer_of_ne_done (hne w)
      matched := fun _ _ => rfl
      loc := fun _ => rfl
      store := rfl }
  exact hsegment.reaches_checked (calls_ok hpresent hsegment.logs)

/-- The first two segments, run so. -/
theorem runs_serialNext (delta : Fin n → Nat → Vec K d → Vec K d) :
    Runs rounds getServer data delta (lgLib other) servers
      (Segments.start (solve getServer rounds data delta)
        (serialNext getServer rounds data delta other
          (serialNext getServer rounds data delta other ⟨fun _ => .load, servers⟩))) := by
  have hload : Runs rounds getServer data delta (lgLib other) servers
      (Segments.start (solve getServer rounds data delta)
        (serialNext getServer rounds data delta other ⟨fun _ => .load, servers⟩)) :=
    reaches_serialNext (fun _ _ => nofun) fun w hw => by simp at hw
  exact hload.trans (reaches_serialNext (fun _ _ => nofun) fun w hw => by
    simp [serialNext, next] at hw)

/-- Nothing makes the workers begin with one vector: some run has every worker work out its
    first delta from the vector that it has drawn itself. -/
theorem exists_own_vectors (data : Fin n → Data K d) (delta : Fin n → Nat → Vec K d → Vec K d)
    (hrounds : 0 < rounds) :
    ∃ st, Runs rounds getServer data delta (lgLib other) servers st ∧
      ∀ w, (st.loc w).base = .reduce 0 (delta w 0 (data w).theta0) := by
  refine ⟨_, runs_serialNext delta, fun w => ?_⟩
  show next rounds delta w (Segments.repliesOf _ w _ (Segments.serialLog fun x =>
    calls getServer data x .first)) .first = _
  rw [next, if_neg (Nat.pos_iff_ne_zero.mp hrounds), pulled_serial]

/-- Some run comes to the pulls of the second round. -/
theorem exists_map_one (data : Fin n → Data K d) (delta : Fin n → Nat → Vec K d → Vec K d)
    (hrounds : 1 < rounds) :
    ∃ st, Runs rounds getServer data delta (lgLib other) servers st ∧
      ∀ w, (st.loc w).base = .map 1 := by
  have hreduce : ∀ w, (serialNext getServer rounds data delta other
      (serialNext getServer rounds data delta other ⟨fun _ => .load, servers⟩)).loc w =
        .reduce 0 (delta w 0 (data w).theta0) := by
    intro w
    show next rounds delta w (Segments.repliesOf _ w _ (Segments.serialLog fun x =>
      calls getServer data x .first)) .first = _
    rw [next, if_neg (by omega), pulled_serial]
  refine ⟨_, (runs_serialNext delta).trans (reaches_serialNext ?_ ?_), fun w => ?_⟩
  · intro w theta hdone
    rw [hreduce] at hdone
    cases hdone
  · intro w hw
    simp [hreduce] at hw
  · show next rounds delta w _ _ = _
    rw [hreduce, next, if_pos hrounds]

end Methods

/-! ### Two workers with samples of their own -/

/-- One worker has a sample and the other two; they draw different vectors. -/
noncomputable def twoSamples (w : Fin 2) : Data ℝ 1 :=
  if w.val = 0 then
    { samples := [⟨fun _ => 1, 1⟩]
      theta0 := fun _ => 0
      idx := fun _ => List.finRange 1
      shuffled := fun _ => .refl _ }
  else
    { samples := [⟨fun _ => 2, 0⟩, ⟨fun _ => -1, 1⟩]
      theta0 := fun _ => 1
      idx := fun _ => (List.finRange 2).reverse
      shuffled := fun _ => List.reverse_perm _ }

/-- Shared libraries that hold `local_update` under every symbol. -/
noncomputable def addLib : Libs (Vec ℝ 1) :=
  { update := fun _ => localUpdate, filter := fun _ _ _ => true }

theorem dgd_learning_batch_two : ∃ (t : _) (last : Fin 2) (src : Fin 2 → Fin 2),
    Reachable (Segments.checked readOk
        (dgdLearning Real.exp 1 (1 / 10) (fun _ => (0 : Fin 1)) 2 twoSamples)
        (Servers.handle (lgLib addLib)))
      (Segments.start (dgdLearning Real.exp 1 (1 / 10) (fun _ => (0 : Fin 1)) 2 twoSamples)
        ⟨fun _ => .load, fun _ => {}⟩) t ∧
      ∀ w, (t.loc w).base = .done (batchStep Real.exp 1 (1 / 10) (pooled twoSamples)
        ((twoSamples last).theta0 + ∑ w, ((twoSamples w).samples.map
          (gradient Real.exp 1 (1 / 10) (twoSamples (src w)).theta0)).sum)) := by
  have hstart : Reachable (Segments.checked readOk
      (dgdLearning Real.exp 1 (1 / 10) (fun _ => (0 : Fin 1)) 2 twoSamples)
      (Servers.handle (lgLib addLib)))
    (Segments.start (dgdLearning Real.exp 1 (1 / 10) (fun _ => (0 : Fin 1)) 2 twoSamples)
      ⟨fun _ => .load, fun _ => {}⟩) _ := .refl _
  obtain ⟨⟨t, ht, hdone⟩, -⟩ := dgd_learning_batch Real.exp 1 (1 / 10) (by decide) (by decide)
    hstart
  obtain ⟨-, last, src, heq⟩ := dgd_learning_batch Real.exp 1 (1 / 10) (by decide) (by decide) ht
  refine ⟨t, last, src, ht, fun w => ?_⟩
  obtain ⟨theta, hw⟩ := hdone w
  rw [hw, heq w theta hw]
  rfl

theorem ipm_learning_mean_two : ∃ (as bs : _) (u t : _) (theta : Vec ℝ 1),
    run (Segments.checked readOk
        (ipmLearning Real.exp 1 (1 / 10) (fun _ => (0 : Fin 1)) 2 twoSamples)
        (Servers.handle (lgLib addLib)))
      (Segments.start (ipmLearning Real.exp 1 (1 / 10) (fun _ => (0 : Fin 1)) 2 twoSamples)
        ⟨fun _ => .load, fun _ => {}⟩) as = some u ∧
    (∀ w, (u.loc w).base = .map 1) ∧
    u.store.value (fun _ => (0 : Fin 1)) thetaKey = some theta ∧
    run (Segments.checked readOk
        (ipmLearning Real.exp 1 (1 / 10) (fun _ => (0 : Fin 1)) 2 twoSamples)
        (Servers.handle (lgLib addLib))) u bs = some t ∧
    ∀ w, (t.loc w).base =
      .done fun i => (∑ w, ipmPass Real.exp 1 (1 / 10) (twoSamples w) 1 theta i) / 2 := by
  have hsecond : ∃ u, Runs 2 (fun _ => (0 : Fin 1)) twoSamples
      (fun w => ipmDelta Real.exp 1 (1 / 10) 2 (twoSamples w)) (lgLib addLib) (fun _ => {}) u ∧
      ∀ w, (u.loc w).base = .map 1 := exists_map_one twoSamples _ (by decide)
  obtain ⟨u, ⟨as, hu⟩, hmap⟩ := hsecond
  obtain ⟨⟨t, ⟨bs, ht⟩, hdone⟩, -⟩ := ipm_learning_mean Real.exp 1 (1 / 10) (by decide) (by decide)
    hu
  have hrun := (run_append _ as bs).trans ((congrArg (Option.bind · _) hu).trans ht)
  obtain ⟨-, last, src, hall⟩ := ipm_learning_mean Real.exp 1 (1 / 10) (by decide) (by decide) hrun
  have hvalue := ((hall as u (List.prefix_append as bs) hu 0).1 0 (by rw [hmap]; rfl)).1
  refine ⟨as, bs, u, t, _, hu, hmap, hvalue, ht, fun w => ?_⟩
  obtain ⟨theta, hw⟩ := hdone w
  rw [hw, (hall _ t (List.prefix_refl _) hrun w).2 theta hw]
  rfl

theorem exists_own_vectors_two : ∃ st,
    Runs 1 (fun _ => (0 : Fin 1)) twoSamples
      (fun w => dgdDelta Real.exp 1 (1 / 10) (twoSamples w)) (lgLib addLib) (fun _ => {}) st ∧
    ∀ w, (st.loc w).base =
      .reduce 0 (dgdDelta Real.exp 1 (1 / 10) (twoSamples w) 0 (twoSamples w).theta0) :=
  exists_own_vectors twoSamples (fun w => dgdDelta Real.exp 1 (1 / 10) (twoSamples w)) (by decide)

end Paracel.LogisticRegression
